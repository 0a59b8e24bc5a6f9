import FiniteAutomata.CommandLine.Files
import FiniteAutomata.CommandLine.Help
import FiniteAutomata.Determinize
import FiniteAutomata.Document.Reader
import FiniteAutomata.Document.Writer
import FiniteAutomata.Table
import FiniteAutomata.Text.Line

/-!
The program: it reads a document, determinizes the automaton unless told otherwise, and prints
it as a drawing, a table or a document.
-/

namespace FiniteAutomata.CommandLine

structure LogRecord where
  level : LogLevel
  logger : String
  message : String

def LogRecord.text (r : LogRecord) : String :=
  r.level.name ++ " " ++ r.logger ++ ": " ++ r.message

-- What is told about a document that was read.
def loadedRecord (d : Document) : LogRecord :=
  ⟨.debug, "nfakit.serialize", "loaded " ++ Document.kindName d.kind ++ " with " ++
    toString d.states ++ " states, " ++ toString d.moves.length ++ " moves"⟩

-- What is told about a determinization.
def determinizedRecords (a : NFA) (d : DFA) : List LogRecord :=
  [⟨.debug, "nfakit.automaton.subset", "subset construction: " ++ toString a.size ++
      " NFA states, " ++ toString a.alphabet.toList.length ++ " symbols -> " ++
      toString d.size ++ " DFA states"⟩,
    ⟨.info, "nfakit.cli", "determinized " ++ toString a.size ++ " NFA states into " ++
      toString d.size ++ " DFA states"⟩]

-- The automaton to print.
def chosen (s : Settings) (a : AnyAutomaton) : AnyAutomaton :=
  match a with
  | ⟨.nfa, a⟩ => if s.determinize then ⟨.dfa, NFA.toDFA a⟩ else ⟨.nfa, a⟩
  | a => a

def chosenRecords : AnyAutomaton → AnyAutomaton → List LogRecord
  | ⟨.nfa, a⟩, ⟨.dfa, d⟩ => determinizedRecords a d
  | _, _ => []

def render? (s : Settings) (a : AnyAutomaton) : Except Document.DumpError String :=
  match s.format with
  | .dot => .ok (Drawing.render a.automaton s.name s.drawing)
  | .table => .ok (Table.render a.automaton s.drawing.silentLabel ++ "\n")
  | .json =>
    ((Document.ofAutomaton a.automaton).toText? true).map (· ++ "\n")

-- What a run leaves behind.
structure Outcome where
  exitCode : Nat
  output : String
  log : List LogRecord
  error : Option String

def Outcome.failed (exitCode : Nat) (log : List LogRecord) (error : String) : Outcome :=
  ⟨exitCode, "", log, some error⟩

-- What is told of a run, line by line.
def Outcome.told (o : Outcome) : List String :=
  o.log.map LogRecord.text ++ o.error.elim [] fun e => (Text.lines e.toList).map String.ofList

def invalidDocument (reason : Option String) : String :=
  "error: invalid automaton document" ++ (reason.map (": " ++ ·)).getD ""

def countErrors (n : Nat) : String :=
  toString n ++ (if n = 1 then " validation error" else " validation errors") ++
    " for AutomatonModel"

-- The run after its input was read.
def process (s : Settings) (bytes : ByteArray) : Outcome :=
  let kept (records : List LogRecord) := records.filter fun r => s.logLevel.rank ≤ r.level.rank
  match Document.ofBytes? bytes with
  | .error .malformed => .failed 1 [] (invalidDocument none)
  | .error (.invalid errors) => .failed 1 [] (invalidDocument (countErrors errors.length))
  | .ok d =>
    let given := d.toAutomaton
    let a := chosen s given
    let log := kept (loadedRecord d :: chosenRecords given a)
    match render? s a with
    | .ok text => ⟨0, text, log, none⟩
    | .error e => .failed 1 log ("error: " ++ e.message)

def unreadable (s : Settings) (e : ReadError) : Outcome :=
  match e with
  | .nullCharacter => .failed 1 [] (invalidDocument none)
  | e => .failed 1 [] ("error: cannot read " ++ s.input ++ ": " ++
      e.message (Path.ofString s.input))

-- The run breaks off with an exception that nothing catches, of which the last line is told.
def Outcome.uncaught (exception message : String) : Outcome :=
  .failed 1 [] (exception ++ ": " ++ message)

-- How a run ends that could not begin.
def Failure.outcome (failure : Failure) : Outcome :=
  match failure with
  | arguments _ => .failed 2 [] ("nfakit: error: " ++ failure.message)
  | valueless w => .uncaught w.exception failure.message
  | settings _ => .failed 1 [] ("error: " ++ failure.message)

-- What the arguments ask for, or the outcome if that ends the run.
def request (args : List String) : Except Outcome Settings :=
  match parse args with
  | .error failure => .error failure.outcome
  | .ok .help => .error ⟨0, Help.text, [], none⟩
  | .ok (.run s) => .ok s

-- Where a run takes its document from.
inductive Source where
  | standardInput
  | file (path : Path)

def Source.ofSettings (s : Settings) : Source :=
  if s.input = "-" then .standardInput else .file (.ofString s.input)

-- The run once its input was asked for.
def conclude (s : Settings) : Except ReadError ByteArray → Outcome
  | .ok bytes => process s bytes
  | .error e => unreadable s e

-- The whole run, where `read` gives the content of a file.
def run (args : List String) (read : Path → Except ReadError ByteArray) (stdin : ByteArray) :
    Outcome :=
  match request args with
  | .error outcome => outcome
  | .ok s =>
    conclude s <|
      match Source.ofSettings s with
      | .standardInput => .ok stdin
      | .file path => read path

end FiniteAutomata.CommandLine
