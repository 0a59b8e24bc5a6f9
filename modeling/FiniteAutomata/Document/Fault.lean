import FiniteAutomata.Label
import FiniteAutomata.Text.Quoted

/-!
What can be wrong with a document, and where. Values that are read side by side yield the faults
of all of them.
-/

namespace FiniteAutomata.Document

-- What the fields may hold beyond their type.
inductive Rule where
  | someState
  | singleCharacter (s : String)
  | finalInRange (p : State) (states : Nat)
  | sourceInRange (p : State) (states : Nat)
  | targetInRange (p : State) (states : Nat)
  | notSilent
  | oneTarget (p : State) (c : Char)

def Rule.message : Rule → String
  | someState => "states must be >= 1"
  | singleCharacter s =>
    "symbol must be a single character or null, got " ++ Text.quoted s
  | finalInRange p n => outOfRange "final state" p n
  | sourceInRange p n => outOfRange "move source" p n
  | targetInRange p n => outOfRange "move target" p n
  | notSilent => "dfa documents cannot contain epsilon moves"
  | oneTarget p c =>
    "dfa documents need at most one move per (state, symbol), got two for (" ++ toString p ++
      ", " ++ Text.quoted (String.singleton c) ++ ")"
where
  outOfRange (what : String) (p : State) (n : Nat) : String :=
    what ++ " " ++ toString p ++ " out of range for " ++ toString n ++ " states"

inductive Fault where
  | missing
  | unexpected
  | notInteger
  | notText
  | notList
  | notKind
  | notDocument
  | notMove
  | broken (rule : Rule)

-- The short name of a fault.
def Fault.code : Fault → String
  | missing => "missing"
  | unexpected => "extra_forbidden"
  | notInteger => "int_type"
  | notText => "string_type"
  | notList => "list_type"
  | notKind => "literal_error"
  | notDocument | notMove => "model_type"
  | broken _ => "value_error"

def Fault.message : Fault → String
  | missing => "Field required"
  | unexpected => "Extra inputs are not permitted"
  | notInteger => "Input should be a valid integer"
  | notText => "Input should be a valid string"
  | notList => "Input should be a valid list"
  | notKind => "Input should be 'nfa' or 'dfa'"
  | notDocument => "Input should be a valid dictionary or instance of AutomatonModel"
  | notMove => "Input should be a valid dictionary or instance of MoveModel"
  | broken rule => "Value error, " ++ rule.message

-- A step from a value to a part of it.
inductive Place where
  | key (name : String)
  | index (i : Nat)

structure FieldError where
  path : List Place
  fault : Fault

-- Collecting faults

abbrev Checked := Except (List FieldError)

namespace Checked

def fail {α : Type} (fault : Fault) : Checked α := .error [⟨[], fault⟩]

-- The faults of a part, told from the whole.
def inside {α : Type} (place : Place) (x : Checked α) : Checked α :=
  x.mapError fun errors => errors.map fun e => { e with path := place :: e.path }

-- Both values, or the faults of both.
def both {α β : Type} : Checked α → Checked β → Checked (α × β)
  | .ok a, .ok b => .ok (a, b)
  | .error e, .ok _ => .error e
  | .ok _, .error f => .error f
  | .error e, .error f => .error (e ++ f)

def all {α : Type} : List (Checked α) → Checked (List α)
  | [] => .ok []
  | x :: xs => (both x (all xs)).map fun (a, as) => a :: as

end Checked

end FiniteAutomata.Document
