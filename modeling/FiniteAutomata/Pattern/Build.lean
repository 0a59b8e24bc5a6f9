import FiniteAutomata.Json.Display
import FiniteAutomata.Pattern
import FiniteAutomata.Sorting

/-!
Patterns and fragments from values that were not checked yet. Whatever stands in the place of
an expression is taken as it is; only its compilation fails.
-/

namespace FiniteAutomata

-- A JSON value where a symbol is expected: null is the silent move.
def Symbol.ofJson : Json → Symbol
  | .null => .silent
  | .string s => .text s
  | value => .other value

namespace Pattern

abbrev Given := Pattern Json

inductive Error where
  | symbol (error : Symbol.Error)
  | literalNotText (given : Symbol)
  | memberNotText (given : Symbol)
  | noCollection (value : Json)
  | noMember (value : Json)
  | negativeLeast (least : Int)
  | mostBelowLeast (least most : Int)
  | noAlternatives
  | noExpression (value : Json)
  | copies (error : CountError)
  | tooDeep

def Error.message : Error → String
  | symbol error => error.message
  | literalNotText given => "Literal symbol must be a str, got " ++ given.typeName
  | memberNotText given => "CharSet members must be str, got " ++ given.typeName
  | noCollection value => "'" ++ value.typeName ++ "' object is not iterable"
  | noMember value => "unhashable type: '" ++ value.typeName ++ "'"
  | negativeLeast least => "min_count must be >= 0, got " ++ toString least
  | mostBelowLeast least most =>
    "max_count must be >= min_count (" ++ toString least ++ ") or None, got " ++ toString most
  | noAlternatives => "alternate() needs at least one alternative"
  | noExpression value => "Expected code to be unreachable, but got: " ++ value.displayShort
  | copies error => error.message
  | tooDeep => "maximum recursion depth exceeded"

-- Only text, numbers, truth values and the silent move can be members of a set.
def member? : Json → Except Error Symbol
  | .array items => .error (.noMember (.array items))
  | .object members => .error (.noMember (.object members))
  | value => .ok (Symbol.ofJson value)

-- The members of a collection of symbols: a text holds its characters, an object its keys.
def members? : Json → Except Error (List Symbol)
  | .string s => .ok (s.toList.map fun c => .text (String.singleton c))
  | .array items => items.mapM member?
  | .object members => .ok (members.map fun m => .text m.1)
  | value => .error (.noCollection value)

-- The one character of a text; what is no text fails with the given error.
def character? (otherwise : Symbol → Error) : Symbol → Except Error Char
  | .silent => .error (otherwise .silent)
  | .other value => .error (otherwise (.other value))
  | .text s =>
    match s.toList with
    | [c] => .ok c
    | _ => .error (.symbol (.notSingle s))

def literal? (given : Symbol) : Except Error Given := do
  return literal (← character? .literalNotText given)

def charSet? (given : Json) : Except Error Given := do
  return charSet (.ofList (← (← members? given).mapM (character? .memberNotText)))

def repeated? (inner : Given) (least : Int) (most : Option Int) : Except Error Given :=
  if least < 0 then .error (.negativeLeast least)
  else
    match most with
    | none => .ok (repeated inner least.toNat none)
    | some most =>
      if most < least then .error (.mostBelowLeast least most)
      else .ok (repeated inner least.toNat (some (most - least).toNat))

-- One of several, nested to the left.
def alternateAll? {φ : Type} : List (Pattern φ) → Except Error (Pattern φ)
  | [] => .error .noAlternatives
  | r :: rs => .ok (rs.foldl alternate r)

-- A pattern that is to be shown may not nest deeper than one that is to be compiled.
def shallow? (r : Given) : Except Error Given :=
  if r.depth ≤ maxDepth then .ok r else .error .tooDeep

def compile? (r : Given) : Except Error Fragment :=
  match r.ground? 1 with
  | .ok r => .ok (Regex.compile r)
  | .error (.foreign value) => .error (.noExpression value)
  | .error (.copies e) => .error (.copies e)
  | .error .tooDeep => .error .tooDeep

end Pattern

namespace Fragment

inductive BuildError where
  | collection (error : Pattern.Error)
  -- two members that cannot be compared
  | unordered (left right : Symbol)
  | symbol (error : Symbol.Error)

def ofSymbol? (given : Symbol) : Except Symbol.Error Fragment := do
  return reading (← given.label?)

-- Whether one symbol stands before another. Texts have an order and numbers have one, the silent move
-- is only equal to itself, and symbols of different kinds cannot be compared.
def before? : Symbol → Symbol → Except BuildError Bool
  | .silent, .silent => .ok false
  | .text s, .text t => .ok (compare s t = .lt)
  | .other v, .other w => .ok (v.isBelow w)
  | s, t => .error (.unordered s t)

-- Reads one of the symbols of a collection. The members are sorted before they are checked, so one that
-- cannot be compared with another is told of before one that is no label.
def ofCollection? (given : Json) : Except BuildError Fragment := do
  let members ← (Pattern.members? given).mapError .collection
  let labels ← ((← Sorting.sort? before? members).mapM Symbol.label?).mapError .symbol
  return ⟨2, 1, .ofEdges (labels.map fun l => ⟨0, l, 1⟩)⟩

end Fragment

end FiniteAutomata
