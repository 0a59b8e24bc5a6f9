import FiniteAutomata.Drawing

/-!
What a run of the program is asked to do. Settings are checked once, when they are made.
-/

namespace FiniteAutomata

-- The ways to print an automaton.
inductive Format where
  | dot
  | table
  | json
deriving DecidableEq

namespace Format

def name : Format → String
  | dot => "dot"
  | table => "table"
  | json => "json"

def all : List Format := [dot, table, json]

def ofName? (s : String) : Option Format := all.find? fun f => f.name = s

end Format

inductive LogLevel where
  | debug
  | info
  | warning
  | error
  | critical
deriving DecidableEq

namespace LogLevel

def name : LogLevel → String
  | debug => "DEBUG"
  | info => "INFO"
  | warning => "WARNING"
  | error => "ERROR"
  | critical => "CRITICAL"

def all : List LogLevel := [debug, info, warning, error, critical]

def ofName? (s : String) : Option LogLevel := all.find? fun l => l.name = s

def rank : LogLevel → Nat
  | debug => 10
  | info => 20
  | warning => 30
  | error => 40
  | critical => 50

end LogLevel

structure Settings where
  -- the document to read, or a dash for standard input
  input : String
  format : Format
  -- the graph's name in a drawing
  name : String
  determinize : Bool
  logLevel : LogLevel
  drawing : Drawing.Options
  name_isIdentifier : Text.isIdentifier name = true
  input_ne_empty : input ≠ ""

namespace Settings

inductive Error where
  | noFormat (given : String)
  | noLogLevel (given : String)
  | name (given : String)
  | noInput

def Error.message : Error → String
  | noFormat given => Text.unsupported "output_format" given (Format.all.map Format.name)
  | noLogLevel given => Text.unsupported "log_level" given (LogLevel.all.map LogLevel.name)
  | name given => "name must be a valid identifier, got " ++ Text.quoted given
  | noInput => "input_path must not be empty"

-- The first fault counts: the format, the level, the name, then the input.
def ofTexts? (input format name : String) (determinize : Bool) (logLevel : String)
    (drawing : Drawing.Options) : Except Error Settings :=
  match Format.ofName? format, LogLevel.ofName? logLevel with
  | none, _ => .error (.noFormat format)
  | some _, none => .error (.noLogLevel logLevel)
  | some f, some l =>
    if hn : Text.isIdentifier name = true then
      if hi : input = "" then .error .noInput
      else .ok ⟨input, f, name, determinize, l, drawing, hn, hi⟩
    else .error (.name name)

end Settings

end FiniteAutomata
