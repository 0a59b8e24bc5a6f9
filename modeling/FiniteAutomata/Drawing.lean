import FiniteAutomata.Automaton
import FiniteAutomata.Text.Identifier
import FiniteAutomata.Text.Quoted

/-!
Drawings of automata in the Graphviz language. Final states are double circles, and parallel
moves share one arrow, whose label lists their symbols (`mem_bundle`, `getD_bundle`).
-/

namespace FiniteAutomata

namespace Drawing

-- The direction in which a drawing grows.
inductive Direction where
  | leftToRight
  | rightToLeft
  | topToBottom
  | bottomToTop
deriving DecidableEq

namespace Direction

def name : Direction → String
  | leftToRight => "LR"
  | rightToLeft => "RL"
  | topToBottom => "TB"
  | bottomToTop => "BT"

def all : List Direction := [leftToRight, rightToLeft, topToBottom, bottomToTop]

def ofName? (s : String) : Option Direction := all.find? fun d => d.name = s

end Direction

structure Options where
  direction : Direction
  -- stands before each state number
  stateStem : String
  -- the label of silent moves
  silentLabel : String
  stateStem_isIdentifier : Text.isIdentifier stateStem = true
  silentLabel_ne_empty : silentLabel ≠ ""

theorem isIdentifier_q : Text.isIdentifier "q" = true := by decide +kernel

theorem epsilon_ne_empty : "ε" ≠ "" := by decide

-- What is drawn where nothing else is asked for.
def Options.standard : Options := ⟨.leftToRight, "q", "ε", isIdentifier_q, epsilon_ne_empty⟩

instance : Inhabited Options := ⟨.standard⟩

inductive Error where
  | noDirection (given : String)
  | stateStem (given : String)
  | noSilentLabel
  | name (given : String)

def Error.message : Error → String
  | noDirection given => Text.unsupported "rankdir" given (Direction.all.map Direction.name)
  | stateStem given => "state_prefix must be a valid identifier, got " ++ Text.quoted given
  | noSilentLabel => "epsilon_label must not be empty"
  | name given => "name must be a valid identifier, got " ++ Text.quoted given

-- The first fault counts, in the order of the arguments.
def options? (direction stateStem silentLabel : String) : Except Error Options :=
  match Direction.ofName? direction with
  | none => .error (.noDirection direction)
  | some d =>
    if hs : Text.isIdentifier stateStem = true then
      if hl : silentLabel = "" then .error .noSilentLabel
      else .ok ⟨d, stateStem, silentLabel, hs, hl⟩
    else .error (.stateStem stateStem)

-- The symbol as it stands in a label: a comma is put between apostrophes, and what would end
-- the label is escaped.
def symbolLabel (c : Char) : String :=
  if c = ',' then "','"
  else if c = '\\' ∨ c = '"' then String.ofList ['\\', c]
  else String.singleton c

def label (o : Options) : Label → String
  | none => o.silentLabel
  | some c => symbolLabel c

def node (o : Options) (p : State) : String := o.stateStem ++ toString p

-- The states that an arrow joins.
structure Arc where
  source : State
  target : State
deriving DecidableEq

-- Arcs ascend by source, then by target.
instance : Ord Arc := ⟨compareLex (compareOn Arc.source) (compareOn Arc.target)⟩

instance : Std.TransOrd Arc :=
  inferInstanceAs (Std.TransCmp (compareLex (compareOn Arc.source) (compareOn Arc.target)))

instance : Std.LawfulEqOrd Arc :=
  lawfulEqCmp_compareLex Arc.source Arc.target fun a b hs ht => by
    cases a; cases b; simp_all

def arcOf (e : Edge Char) : Arc := ⟨e.source, e.target⟩

-- The labels of the arrows, each from the front of the list to its end.
def bundle (es : List (Edge Char)) : Std.TreeMap Arc (List Label) :=
  es.foldr (fun e t => t.insert (arcOf e) (e.label :: t.getD (arcOf e) [])) ∅

theorem mem_bundle {es : List (Edge Char)} {arc : Arc} :
    arc ∈ bundle es ↔ ∃ e ∈ es, arcOf e = arc := by
  induction es with
  | nil => simp [bundle]
  | cons e es ih =>
    rw [bundle, List.foldr_cons, ← bundle, Std.TreeMap.mem_insert, Std.compare_eq_iff_eq, ih]
    simp

theorem getD_bundle {es : List (Edge Char)} {arc : Arc} :
    (bundle es).getD arc [] = (es.filter fun e => arcOf e = arc).map Edge.label := by
  induction es with
  | nil => rfl
  | cons e es ih =>
    rw [bundle, List.foldr_cons, ← bundle, Std.TreeMap.getD_insert]
    by_cases h : arcOf e = arc
    · rw [if_pos (Std.compare_eq_iff_eq.mpr h), h, ih]
      simp [h]
    · rw [if_neg (fun he => h (Std.compare_eq_iff_eq.mp he)), ih]
      simp [h]

def arrow (o : Options) (arc : Arc) (labels : List Label) : String :=
  "  " ++ node o arc.source ++ " -> " ++ node o arc.target ++ " [ label = \"" ++
    ",".intercalate (labels.map (label o)) ++ "\" ];"

-- An arrow for each pair of states that a move joins, with the labels in the order of the moves.
def arrows (o : Options) (r : MoveRelation Char) : List String :=
  (bundle r.edges.toList).toList.map fun (arc, labels) => arrow o arc labels

def finalsLine (o : Options) (finals : List State) : List String :=
  if finals.isEmpty then []
  else ["  node [shape = doublecircle]; " ++ " ".intercalate (finals.map (node o)) ++ ";"]

def lines {k : Kind} (a : Automaton k) (name : String) (o : Options) : List String :=
  ["digraph " ++ name ++ " \x7b", "  rankdir=" ++ o.direction.name ++ ";"] ++
    finalsLine o a.finals.toList ++
    ["  node [shape = circle];", "  __start [shape = point]; __start -> " ++ node o 0 ++ ";"] ++
    arrows o a.moves ++ ["\x7d"]

def render {k : Kind} (a : Automaton k) (name : String) (o : Options) : String :=
  String.join ((lines a name o).map (· ++ "\n"))

-- A graph's name has to be an identifier.
def render? {k : Kind} (a : Automaton k) (name : String) (o : Options) : Except Error String :=
  if Text.isIdentifier name then .ok (render a name o) else .error (.name name)

end Drawing

end FiniteAutomata
