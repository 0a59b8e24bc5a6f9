import FiniteAutomata.Settings
import FiniteAutomata.Text.Ranges

/-!
The arguments of the program: one input and some options. An option may be shortened as long as
no other one starts alike, and its value follows it or is attached by an equals sign. After a
lone double dash nothing is an option. The double dash is not a value either: an option to which
it is attached has none.
-/

namespace FiniteAutomata.CommandLine

inductive Switch where
  | help
  | format
  | name
  | noDeterminize
  | rankdir
  | logLevel
deriving DecidableEq

namespace Switch

-- Every spelling of every option.
def spellings : List (String × Switch) :=
  [("-h", help), ("--help", help), ("--format", format), ("--name", name),
    ("--no-determinize", noDeterminize), ("--rankdir", rankdir), ("--log-level", logLevel)]

def ofSpelling? (s : String) : Option Switch := (spellings.find? (·.1 = s)).map (·.2)

-- All spellings of one option.
def title (w : Switch) : String :=
  "/".intercalate ((spellings.filter (·.2 = w)).map (·.1))

def takesValue : Switch → Bool
  | help | noDeterminize => false
  | format | name | rankdir | logLevel => true

-- The values that an option may have, if they are limited.
def choices? : Switch → Option (List String)
  | format => some (Format.all.map Format.name)
  | rankdir => some (Drawing.Direction.all.map Drawing.Direction.name)
  | logLevel => some (LogLevel.all.map LogLevel.name)
  | help | name | noDeterminize => none

end Switch

inductive Rejection where
  | ambiguous (given : String) (candidates : List String)
  | noValue (w : Switch)
  | unwantedValue (w : Switch) (value : String)
  | noChoice (w : Switch) (value : String) (choices : List String)
  | noInput
  | unrecognized (extras : List String)

def Rejection.message : Rejection → String
  | ambiguous given candidates =>
    "ambiguous option: " ++ given ++ " could match " ++ ", ".intercalate candidates
  | noValue w => "argument " ++ w.title ++ ": expected one argument"
  | unwantedValue w value =>
    "argument " ++ w.title ++ ": ignored explicit argument " ++ Text.quoted value
  | noChoice w value choices =>
    "argument " ++ w.title ++ ": invalid choice: " ++ Text.quoted value ++ " (choose from " ++
      ", ".intercalate (choices.map Text.quoted) ++ ")"
  | noInput => "the following arguments are required: input"
  | unrecognized extras => "unrecognized arguments: " ++ " ".intercalate extras

-- The lone double dash.
def separator : String := "--"

-- What an argument is, looked at by itself.
inductive Word where
  | plain (s : String)
  | separator
  | switch (w : Switch) (attached : Option String)
  -- what follows the letter of the short help option, or the equals sign behind it
  | afterHelp (tail : List Char)
  | unknown (s : String)

-- A dash and digits, or a dash, digits, a point and digits; a line end may follow.
def isNegativeNumber (cs : List Char) : Bool :=
  match cs with
  | '-' :: cs =>
    let cs := if cs.getLast? = some '\n' then cs.dropLast else cs
    match cs.dropWhile Text.isDecimalDigit with
    | [] => !cs.isEmpty
    | '.' :: fraction => !fraction.isEmpty && fraction.all Text.isDecimalDigit
    | _ => false
  | _ => false

-- The part before the first equals sign, and the part after it, if there is one.
def splitValue (cs : List Char) : List Char × Option (List Char) :=
  match cs.dropWhile (· ≠ '=') with
  | [] => (cs, none)
  | _ :: value => (cs.takeWhile (· ≠ '='), some value)

def classify (s : String) : Except Rejection Word :=
  let cs := s.toList
  let (stem, value) := splitValue cs
  let text := value.map String.ofList
  match cs with
  | '-' :: second :: tail =>
    match Switch.ofSpelling? s, Switch.ofSpelling? (String.ofList stem) with
    | some w, _ => .ok (.switch w none)
    | none, some w =>
      if second = '-' ∨ value = some [] then .ok (.switch w text)
      else .ok (.afterHelp (value.getD []))
    | none, none =>
      let candidates :=
        if second = '-' then Switch.spellings.filter fun c => stem.isPrefixOf c.1.toList else []
      match candidates with
      | [(_, w)] => .ok (.switch w text)
      | [] =>
        if second = 'h' then .ok (.afterHelp tail)
        else if isNegativeNumber cs ∨ ' ' ∈ cs then .ok (.plain s)
        else .ok (.unknown s)
      | _ => .error (.ambiguous s (candidates.map (·.1)))
  | _ => .ok (.plain s)

def classifyAll : List String → Except Rejection (List Word)
  | [] => .ok []
  | s :: rest =>
    if s = separator then .ok (.separator :: rest.map .plain)
    else do return (← classify s) :: (← classifyAll rest)

-- The options and the input so far, as they were written. An option whose value is `none` was
-- given without one.
structure Draft where
  input : Option String := none
  format : Option String := some Format.dot.name
  name : Option String := some "automaton"
  determinize : Bool := true
  rankdir : Option String := some Drawing.Options.standard.direction.name
  logLevel : Option String := some LogLevel.warning.name
  extras : List String := []

namespace Draft

def set (d : Draft) (w : Switch) (value : Option String) : Draft :=
  match w with
  | .format => { d with format := value }
  | .name => { d with name := value }
  | .rankdir => { d with rankdir := value }
  | .logLevel => { d with logLevel := value }
  | .help | .noDeterminize => d

def set? (d : Draft) (w : Switch) (value : String) : Except Rejection Draft :=
  if value = separator then .ok (d.set w none)
  else
    match w.choices? with
    | none => .ok (d.set w (some value))
    | some choices =>
      if value ∈ choices then .ok (d.set w (some value)) else .error (.noChoice w value choices)

def addExtra (d : Draft) (s : String) : Draft := { d with extras := d.extras ++ [s] }

end Draft

-- The letters after the short help option are further options, of which help is the only one.
def afterHelp : List Char → Except Rejection Unit
  | [] => .ok ()
  | 'h' :: tail => afterHelp tail
  | tail => .error (.unwantedValue .help (String.ofList tail))

-- Takes the arguments in their order; `none` when help is asked for. The separator belongs to
-- the input beside it, which `afterInput` tells of the argument before. Elsewhere it is in
-- excess.
def consume (d : Draft) (afterInput : Bool) : List Word → Except Rejection (Option Draft)
  | [] => .ok (some d)
  | .plain s :: rest =>
    if d.input.isNone then consume { d with input := some s } true rest
    else consume (d.addExtra s) false rest
  | .separator :: rest =>
    if d.input.isNone ∨ afterInput then consume d false rest
    else consume (d.addExtra separator) false rest
  | .unknown s :: rest => consume (d.addExtra s) false rest
  | .afterHelp tail :: _ => (afterHelp tail).map fun _ => none
  | .switch w (some value) :: rest =>
    if w.takesValue then d.set? w value >>= fun d => consume d false rest
    else .error (.unwantedValue w value)
  | .switch .help none :: _ => .ok none
  | .switch .noDeterminize none :: rest => consume { d with determinize := false } false rest
  | .switch w none :: .plain value :: rest => d.set? w value >>= fun d => consume d false rest
  | .switch w none :: _ => .error (.noValue w)

inductive Failure where
  | arguments (rejection : Rejection)
  -- the option was given without a value
  | valueless (w : Switch)
  | settings (error : Settings.Error)

-- In the place of a missing value stands an empty list, which is then asked for what it does not have.
def Failure.message : Failure → String
  | arguments rejection => rejection.message
  | valueless .name => "'list' object has no attribute 'isidentifier'"
  | valueless _ => "unhashable type: 'list'"
  | settings error => error.message

-- The exception that a missing value of the option ends in.
def Switch.exception : Switch → String
  | name => "AttributeError"
  | _ => "TypeError"

inductive Request where
  | help
  | run (settings : Settings)

namespace Draft

-- The first option without a value counts, in the order in which settings are checked.
def toSettings? (d : Draft) (input : String) : Except Failure Settings := do
  let value (w : Switch) (given : Option String) : Except Failure String :=
    given.elim (.error (.valueless w)) .ok
  let rankdir ← value .rankdir d.rankdir
  let format ← value .format d.format
  let logLevel ← value .logLevel d.logLevel
  let name ← value .name d.name
  let direction := (Drawing.Direction.ofName? rankdir).getD .leftToRight
  (Settings.ofTexts? input format name d.determinize logLevel
    { Drawing.Options.standard with direction }).mapError .settings

def toRequest? (d : Draft) : Except Failure Request :=
  match d.input, d.extras with
  | none, _ => .error (.arguments .noInput)
  | some input, [] => (d.toSettings? input).map .run
  | some _, extras => .error (.arguments (.unrecognized extras))

end Draft

def parse (args : List String) : Except Failure Request :=
  match classifyAll args >>= consume {} false with
  | .error rejection => .error (.arguments rejection)
  | .ok none => .ok .help
  | .ok (some d) => d.toRequest?

end FiniteAutomata.CommandLine
