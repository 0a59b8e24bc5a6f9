import FiniteAutomata.Document.Basic
import FiniteAutomata.Document.Fault
import FiniteAutomata.Json.Reader

/-!
Documents read from JSON: an object with the fields `kind`, `states`, `final_states` and
`moves`, where null is the symbol of a silent move. The faults of all fields are collected; only
a document without any is looked at as a whole, and there the first fault counts.
-/

namespace FiniteAutomata.Document

-- Reading fields

def readInteger : Json → Checked Int
  | .int n => .ok n
  | _ => .fail .notInteger

def readStates : Json → Checked Nat
  | .int n => if n < 1 then .fail (.broken .someState) else .ok n.toNat
  | _ => .fail .notInteger

def readKind : Json → Checked Kind
  | .string "nfa" => .ok .nfa
  | .string "dfa" => .ok .dfa
  | _ => .fail .notKind

def readLabel : Json → Checked Label
  | .null => .ok none
  | .string s =>
    match s.toList with
    | [c] => .ok (some c)
    | _ => .fail (.broken (.singleCharacter s))
  | _ => .fail .notText

def readList {α : Type} (read : Json → Checked α) : Json → Checked (List α)
  | .array items => .all (items.mapIdx fun i item => .inside (.index i) (read item))
  | _ => .fail .notList

def required {α : Type} (members : List (String × Json)) (name : String)
    (read : Json → Checked α) : Checked α :=
  .inside (.key name) <|
    match Json.member? name members with
    | some value => read value
    | none => .fail .missing

def optional {α : Type} (members : List (String × Json)) (name : String)
    (read : Json → Checked α) (default : α) : Checked α :=
  match Json.member? name members with
  | some value => .inside (.key name) (read value)
  | none => .ok default

-- Members with other names than these are refused, in the order of the document.
def onlyNames (members : List (String × Json)) (names : List String) : Checked Unit :=
  match members.filter fun m => m.1 ∉ names with
  | [] => .ok ()
  | extra => .error (extra.map fun m => ⟨[.key m.1], .unexpected⟩)

def readMove : Json → Checked (Edge Char)
  | .object members =>
    let source := required members "source" readInteger
    let label := required members "symbol" readLabel
    let target := required members "target" readInteger
    let rest := onlyNames members ["source", "symbol", "target"]
    (source.both (label.both (target.both rest))).map fun (p, l, q, _) => ⟨p, l, q⟩
  | _ => .fail .notMove

-- The fields of a document, without regard to one another.
def ofJson : Json → Checked Document
  | .object members =>
    let kind := required members "kind" readKind
    let states := required members "states" readStates
    let finals := optional members "final_states" (readList readInteger) []
    let moves := optional members "moves" (readList readMove) []
    let rest := onlyNames members ["kind", "states", "final_states", "moves"]
    (kind.both (states.both (finals.both (moves.both rest)))).map
      fun (kind, states, finals, moves, _) => ⟨kind, states, finals, moves⟩
  | _ => .fail .notDocument

-- The document as a whole

def InRange (n : Nat) (p : State) : Prop := 0 ≤ p ∧ p < n

instance (n : Nat) (p : State) : Decidable (InRange n p) :=
  inferInstanceAs (Decidable (0 ≤ p ∧ p < n))

-- The rule that a move breaks first, after moves with the keys `seen`.
def brokenByMove? (kind : Kind) (n : Nat) (seen : Std.ExtTreeSet (Key Char)) (e : Edge Char) :
    Option Rule :=
  if ¬ InRange n e.source then some (.sourceInRange e.source n)
  else if ¬ InRange n e.target then some (.targetInRange e.target n)
  else
    match kind, e.label with
    | .nfa, _ => none
    | .dfa, none => some .notSilent
    | .dfa, some c => if e.key ∈ seen then some (.oneTarget e.source c) else none

def brokenByMoves? (kind : Kind) (n : Nat) (seen : Std.ExtTreeSet (Key Char)) :
    List (Edge Char) → Option Rule
  | [] => none
  | e :: es =>
    match brokenByMove? kind n seen e with
    | some rule => some rule
    | none => brokenByMoves? kind n (seen.insert e.key) es

-- The rule broken first: by the final states, then by the moves, in their order.
def broken? (d : Document) : Option Rule :=
  match d.finals.find? fun p => ¬ InRange d.states p with
  | some p => some (.finalInRange p d.states)
  | none => brokenByMoves? d.kind d.states ∅ d.moves

def check (d : Document) : Checked Document :=
  match d.broken? with
  | none => .ok d
  | some rule => .fail (.broken rule)

inductive LoadError where
  -- the text is no JSON value
  | malformed
  | invalid (errors : List FieldError)

def ofJson? : Option Json → Except LoadError Document
  | none => .error .malformed
  | some value => (ofJson value >>= check).mapError .invalid

def ofText? (text : String) : Except LoadError Document := ofJson? (Json.ofText? text)

def ofBytes? (bytes : ByteArray) : Except LoadError Document := ofJson? (Json.ofBytes? bytes)

end FiniteAutomata.Document
