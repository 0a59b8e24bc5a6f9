import FiniteAutomata.Json.Value
import FiniteAutomata.Text.Quoted

/-!
States, the labels of moves, and the check that turns a given value into a label.
-/

namespace FiniteAutomata

-- States are numbers. An automaton of `n` states owns those from 0 to n - 1 and refuses or
-- ignores all others.
abbrev State := Int

-- The character that a move reads, or `none` for a silent move.
abbrev Label := Option Char

-- A label that nobody checked: any text, or `none` for the silent move.
abbrev TextLabel := Option String

def Label.toText (l : Label) : TextLabel := l.map String.singleton

-- Silent moves come first, and the others ascend by their characters.
def Label.Precedes : Label → Label → Prop
  | none, some _ => True
  | some c, some d => c < d
  | _, none => False

theorem Label.compare_eq_lt {l m : Label} : compare l m = .lt ↔ l.Precedes m := by
  cases l with
  | none =>
      cases m with
      | none => simp [Precedes]
      | some d => exact iff_of_true rfl trivial
  | some c =>
      cases m with
      | none => simp [Precedes]
      | some d => exact compareOfLessAndEq_eq_lt

-- Silent moves come first and texts follow by their characters.
def TextLabel.sortKey : TextLabel → Nat × String
  | none => (0, "")
  | some s => (1, s)

-- What may be given where a symbol is expected.
inductive Symbol where
  | silent
  | text (s : String)
  | other (value : Json)

namespace Symbol

-- The name of the type of a given value.
def typeName : Symbol → String
  | silent => "EpsilonType"
  | text _ => "str"
  | other value => value.typeName

inductive Error where
  | notText (given : Symbol)
  | notSingle (s : String)

def Error.message : Error → String
  | notText given => "Symbol must be a str or EPSILON, got " ++ given.typeName
  | notSingle s => "Symbol must be a single character, got " ++ Text.quoted s

-- A label is the silent move or a text of one character.
def label? : Symbol → Except Error Label
  | silent => .ok none
  | text s =>
    match s.toList with
    | [c] => .ok (some c)
    | _ => .error (.notSingle s)
  | other value => .error (.notText (.other value))

end Symbol

end FiniteAutomata
