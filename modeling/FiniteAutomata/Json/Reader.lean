import FiniteAutomata.Json.Token

/-!
Reading JSON: the tokens of a text, taken one by one, build a value from the arrays and objects
that stand open. Text that is no single JSON value is refused, and so is a value beyond the limits
of the reader.
-/

namespace FiniteAutomata.Json

-- An open array or object around the value that is being read: what it holds so far, an
-- array last item first, and in an object the key that the value belongs to.
inductive Frame where
  | array (items : List Json)
  | object (members : List (String × Json)) (key : String)

-- What may come next, inside the open frames, innermost first.
inductive Reading where
  | value (frames : List Frame)
  | firstItem (frames : List Frame)
  | firstKey (frames : List Frame)
  | key (members : List (String × Json)) (frames : List Frame)
  | colon (members : List (String × Json)) (key : String) (frames : List Frame)
  | separator (last : Json) (frame : Frame) (frames : List Frame)
  | complete (value : Json)

-- What a reader takes. Without any limit it takes every JSON value.
structure Limits where
  -- how many arrays and objects may stand open
  depth : Option Nat
  -- whether numbers are words or doubles
  bounded : Bool

namespace Limits

def strict : Limits := ⟨some 1024, true⟩

def unlimited : Limits := ⟨none, false⟩

-- Whether one more array or object may be opened inside so many.
def allows (limits : Limits) (opened : Nat) : Bool := limits.depth.all (opened < ·)

def scalar? (limits : Limits) (value : Json) : Option Json :=
  if limits.bounded then bounded? value else some value

end Limits

namespace Reading

-- A value is whole: it ends the text, or what follows separates it from its neighbour.
def deliver (value : Json) : List Frame → Reading
  | [] => complete value
  | frame :: frames => separator value frame frames

def startValue (limits : Limits) (frames : List Frame) : Token → Option Reading
  | .openArray => if limits.allows frames.length then some (firstItem frames) else none
  | .openObject => if limits.allows frames.length then some (firstKey frames) else none
  | .string s => some (deliver (.string s) frames)
  | .scalar v => (limits.scalar? v).map fun v => deliver v frames
  | _ => none

def step (limits : Limits) : Reading → Token → Option Reading
  | value frames, t => startValue limits frames t
  | firstItem frames, .closeArray => some (deliver (.array []) frames)
  | firstItem frames, t => startValue limits (.array [] :: frames) t
  | firstKey frames, .closeObject => some (deliver (.object []) frames)
  | firstKey frames, .string k => some (colon [] k frames)
  | key members frames, .string k => some (colon members k frames)
  | colon members k frames, .colon => some (value (.object members k :: frames))
  | separator v (.array items) frames, .comma => some (value (.array (v :: items) :: frames))
  | separator v (.array items) frames, .closeArray =>
    some (deliver (.array (v :: items).reverse) frames)
  | separator v (.object members k) frames, .comma => some (key (putMember k v members) frames)
  | separator v (.object members k) frames, .closeObject =>
    some (deliver (.object (putMember k v members)) frames)
  | _, _ => none

end Reading

def ofTokens? (limits : Limits) (ts : List Token) : Option Json := do
  match ← ts.foldlM (Reading.step limits) (.value []) with
  | .complete v => some v
  | _ => none

-- The value of a text, within limits.
def read? (limits : Limits) (text : String) : Option Json :=
  tokens? text.toList >>= ofTokens? limits

def ofText? (text : String) : Option Json := read? .strict text

-- The bytes of a text in UTF-8.
def ofBytes? (bytes : ByteArray) : Option Json := String.fromUTF8? bytes >>= ofText?

end FiniteAutomata.Json
