import FiniteAutomata.Automaton
import FiniteAutomata.Text.Ranges

/-!
Automata as tables of text, a row for each state and a column for each label. The start state
is marked by an arrow and final states by a star; columns are aligned.
-/

namespace FiniteAutomata.Table

variable {k : Kind}

-- Silent moves have the first column, if there are any.
def columns (a : Automaton k) : List Label :=
  (if a.moves.written.any (·.label = none) then [none] else []) ++
    a.alphabet.toList.map some

def cell (targets : Ascending State) : String :=
  match targets.toList with
  | [] => "-"
  | [q] => toString q
  | qs => "\x7b" ++ ",".intercalate (qs.map toString) ++ "\x7d"

def header (silentLabel : String) : Label → String
  | none => silentLabel
  | some c => String.ofList (Text.escaped [c])

def marker (a : Automaton k) (p : State) : String :=
  (if p = 0 then "->" else "  ") ++ (if a.isFinal p then "*" else " ") ++ " " ++ toString p

def headers (silentLabel : String) (columns : List Label) : List String :=
  "State" :: columns.map (header silentLabel)

def row (a : Automaton k) (columns : List Label) (p : State) : List String :=
  marker a p :: columns.map fun l => cell (a.moves.targets p l)

-- The length of the longest text of each column.
def widths (headers : List String) (rows : List (List String)) : List Nat :=
  rows.foldl (List.zipWith fun width text => max width text.length) (headers.map String.length)

def pad (text : String) (width : Nat) : String :=
  text ++ String.ofList (List.replicate (width - text.length) ' ')

def line (widths : List Nat) (texts : List String) : String :=
  String.ofList (Text.trimEnd (" | ".intercalate (List.zipWith pad texts widths)).toList)

def lines (a : Automaton k) (silentLabel : String) : List String :=
  let columns := columns a
  let headers := headers silentLabel columns
  let rows := a.states.map (row a columns)
  let widths := widths headers rows
  let first := line widths headers
  first :: String.ofList (List.replicate first.length '-') :: rows.map (line widths)

def render (a : Automaton k) (silentLabel : String) : String :=
  "\n".intercalate (lines a silentLabel)

end FiniteAutomata.Table
