import FiniteAutomata.Mark
import FiniteAutomata.MoveRelation
import FiniteAutomata.Sorting

/-!
Transition relations with free labels: nobody checks what is written on a move. Numbers of the
same value are one label, which keeps the form in which it was first written. The moves of such
a relation can be listed unless a source has a text and a number among its labels, because
those have no common order.
-/

namespace FiniteAutomata

structure FreeRelation where
  moves : MoveRelation Mark
  -- the numbers on keys, as they were first written
  numerals : List (Key Mark × Json)

namespace FreeRelation

inductive Error where
  | noLabel (value : Json)
  | unordered (left right : Symbol)

def Error.message : Error → String
  | noLabel value => "unhashable type: '" ++ value.typeName ++ "'"
  | unordered left right =>
    "'<' not supported between instances of '" ++ left.typeName ++ "' and '" ++
      right.typeName ++ "'"

def empty : FreeRelation := ⟨∅, []⟩

instance : EmptyCollection FreeRelation := ⟨empty⟩

-- Checked labels are texts of one character.
def ofMoves (r : MoveRelation Char) : FreeRelation :=
  ⟨r.relabel fun c => .text (String.singleton c), []⟩

def summary (r : FreeRelation) : String := r.moves.summary

def label? : Symbol → Except Error (Option Mark)
  | .silent => .ok none
  | .text s => .ok (some (.text s))
  | .other value => (Mark.ofJson? value).elim (.error (.noLabel value)) fun m => .ok (some m)

def key? (p : State) (s : Symbol) : Except Error (Key Mark) := (label? s).map fun l => ⟨p, l⟩

-- The form of the label of a key.
def symbol (r : FreeRelation) (k : Key Mark) : Symbol :=
  match k.label with
  | none => .silent
  | some (.text s) => .text s
  | some (.number _) => .other (((r.numerals.find? (·.1 = k)).map (·.2)).getD .null)

-- Writing

-- A new key with a number is noted in its form.
def noted (r : FreeRelation) (k : Key Mark) (s : Symbol) : List (Key Mark × Json) :=
  match s with
  | .other value => if k ∈ r.moves.table then r.numerals else (k, value) :: r.numerals
  | _ => r.numerals

def add? (r : FreeRelation) (p : State) (s : Symbol) (q : State) : Except Error FreeRelation :=
  (key? p s).map fun k => ⟨r.moves.add ⟨p, k.label, q⟩, r.noted k s⟩

def replace? (r : FreeRelation) (p : State) (s : Symbol) (q : State) :
    Except Error FreeRelation :=
  (key? p s).map fun k => ⟨r.moves.replace ⟨p, k.label, q⟩, r.noted k s⟩

-- Reading

def contains? (r : FreeRelation) (p : State) (s : Symbol) : Except Error Bool :=
  (key? p s).map fun k => r.moves.contains k.source k.label

-- Without a state to start from the label is not looked at.
def image? (r : FreeRelation) (ps : List State) (s : Symbol) :
    Except Error (Ascending State) :=
  match ps with
  | [] => .ok ∅
  | ps => (label? s).map (r.moves.image ps)

def targets? (r : FreeRelation) (p : State) (s : Symbol) : Except Error (Ascending State) :=
  r.image? [p] s

-- The texts among the labels.
def texts (r : FreeRelation) : List String :=
  r.moves.symbols.toList.filterMap fun
    | .text s => some s
    | .number _ => none

def keys (r : FreeRelation) : List (Key Mark) := r.moves.keys

-- Listing

-- Whether one key stands before another. A source has one silent key, which stands first.
def before? (r : FreeRelation) (k l : Key Mark) : Except Error Bool :=
  if k.source ≠ l.source then .ok (k.source < l.source)
  else
    match k.label, l.label with
    | none, label => .ok label.isSome
    | some _, none => .ok false
    | some (.number a), some (.number b) => .ok (a.blt b)
    | some (.text s), some (.text t) => .ok (compare s t = .lt)
    | some _, some _ => .error (.unordered (r.symbol k) (r.symbol l))

-- Each key with its targets, keys ascending.
def groups? (r : FreeRelation) : Except Error (List (State × Symbol × Ascending State)) :=
  (Sorting.sort? r.before? r.keys).map fun ks =>
    ks.map fun k => (k.source, r.symbol k, r.moves.targets k.source k.label)

-- Every move, by its key and then by its target.
def edges? (r : FreeRelation) : Except Error (List (State × Symbol × State)) :=
  r.groups?.map fun groups =>
    groups.flatMap fun (p, s, targets) => targets.toList.map fun q => (p, s, q)

-- Every move with source and target renumbered by `offset`.
def shifted? (r : FreeRelation) (offset : Int) : Except Error (List (State × Symbol × State)) :=
  r.edges?.map fun es => es.map fun (p, s, q) => (p + offset, s, q + offset)

end FreeRelation

end FiniteAutomata
