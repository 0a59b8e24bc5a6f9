import FiniteAutomata.CommandLine.Arguments

/-!
The help of the program: how it is called, then its input and its options, each beside what it is for.
It is set for a terminal of eighty columns, the last two of which stay free.
-/

namespace FiniteAutomata.CommandLine

namespace Switch

def all : List Switch := [help, format, name, noDeterminize, rankdir, logLevel]

-- What stands for the value of an option, if it takes one.
def placeholder? : Switch → Option String
  | name => some "NAME"
  | w => w.choices?.map fun choices => "\x7b" ++ ",".intercalate choices ++ "\x7d"

-- What the option is for; empty if nothing is said of it.
def purpose : Switch → String
  | help => "show this help message and exit"
  | format => "output format (default: dot)"
  | name => "graph name for DOT output"
  | noDeterminize => "print the input automaton as is instead of its DFA"
  | rankdir => ""
  | logLevel => "logging level (default: WARNING)"

-- Every spelling of the option, with the place of its value.
def forms (w : Switch) : List String :=
  (spellings.filter (·.2 = w)).map fun s => s.1 ++ w.placeholder?.elim "" (" " ++ ·)

end Switch

namespace Help

def width : Nat := 78

-- The column in which purposes start.
def column : Nat := 24

def blanks (n : Nat) : String := String.ofList (List.replicate n ' ')

-- Words after the start of a line, on lines of at most `width` characters behind a margin. What is
-- longer has a line of its own.
def fill (margin : String) (line : String) : List String → List String
  | [] => [line]
  | word :: words =>
    if line.length + 1 + word.length ≤ width then fill margin (line ++ " " ++ word) words
    else line :: fill margin (margin ++ word) words

def usage : List String :=
  let start := "usage: nfakit"
  let margin := blanks (start.length + 1)
  fill margin start (Switch.all.map fun w => "[" ++ w.forms.headD "" ++ "]") ++ [margin ++ "input"]

-- An argument and its purpose, which starts a line if there is no room left of it.
def entry (argument purpose : String) : List String :=
  let line := "  " ++ argument
  if purpose = "" then [line]
  else if line.length + 2 ≤ column then
    [line ++ blanks (column - line.length) ++ purpose]
  else [line, blanks column ++ purpose]

def lines : List String :=
  usage ++ ["", "nfakit subset construction driver", "", "positional arguments:"] ++
    entry "input" "JSON automaton document, or - for stdin" ++ ["", "options:"] ++
    Switch.all.flatMap fun w => entry (", ".intercalate w.forms) w.purpose

def text : String := String.join (lines.map (· ++ "\n"))

end Help

end FiniteAutomata.CommandLine
