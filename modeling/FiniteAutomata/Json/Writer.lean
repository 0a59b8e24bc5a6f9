import FiniteAutomata.Json.Value
import FiniteAutomata.Text.Quoted

/-!
Writing JSON, in one line without blanks (`Json.compact`) or with each item on a line of its
own, indented by two spaces a level (`Json.pretty`). Strings are written raw except for the
quote, the backslash and the control characters below the space.
-/

namespace FiniteAutomata.Json

def escapeChar (c : Char) : List Char :=
  if c = '"' then ['\\', '"']
  else if c = '\\' then ['\\', '\\']
  else if c = '\x08' then ['\\', 'b']
  else if c = '\x0c' then ['\\', 'f']
  else if c = '\n' then ['\\', 'n']
  else if c = '\r' then ['\\', 'r']
  else if c = '\t' then ['\\', 't']
  else if c.toNat < 0x20 then '\\' :: 'u' :: Text.hexDigits 4 c.toNat
  else [c]

def writeString (s : String) : String :=
  String.ofList ('"' :: s.toList.flatMap escapeChar ++ ['"'])

-- A decimal is written with its power of ten, as it stands.
def writeDecimal (d : Decimal) : String :=
  (if d.negative then "-" else "") ++ toString d.magnitude ++ "e" ++ toString d.exponent

def writeBool (b : Bool) : String := if b then "true" else "false"

mutual

def compact : Json → String
  | .null => "null"
  | .bool b => writeBool b
  | .int n => toString n
  | .decimal d => writeDecimal d
  | .string s => writeString s
  | .array items => "[" ++ ",".intercalate (compactItems items) ++ "]"
  | .object members => "\x7b" ++ ",".intercalate (compactMembers members) ++ "\x7d"

def compactItems : List Json → List String
  | [] => []
  | item :: items => compact item :: compactItems items

def compactMembers : List (String × Json) → List String
  | [] => []
  | (key, value) :: members => (writeString key ++ ":" ++ compact value) :: compactMembers members

end

-- The start of a line at this level.
def newline (level : Nat) : String := String.ofList ('\n' :: List.replicate (2 * level) ' ')

-- Items between brackets, each on a line of its own; brackets around nothing stand together.
def bracket (start stop : String) (level : Nat) (items : List String) : String :=
  if items.isEmpty then start ++ stop
  else
    start ++ newline (level + 1) ++ ("," ++ newline (level + 1)).intercalate items ++
      newline level ++ stop

mutual

def prettyAt (level : Nat) : Json → String
  | .null => "null"
  | .bool b => writeBool b
  | .int n => toString n
  | .decimal d => writeDecimal d
  | .string s => writeString s
  | .array items => bracket "[" "]" level (prettyItems (level + 1) items)
  | .object members => bracket "\x7b" "\x7d" level (prettyMembers (level + 1) members)

def prettyItems (level : Nat) : List Json → List String
  | [] => []
  | item :: items => prettyAt level item :: prettyItems level items

def prettyMembers (level : Nat) : List (String × Json) → List String
  | [] => []
  | (key, value) :: members =>
    (writeString key ++ ": " ++ prettyAt level value) :: prettyMembers level members

end

def pretty (value : Json) : String := prettyAt 0 value

mutual

-- Whether all integers are words. A machine writes no others.
def hasWords : Json → Bool
  | .null | .bool _ | .decimal _ | .string _ => true
  | .int n => isWord n
  | .array items => allWords items
  | .object members => allMembersWords members

def allWords : List Json → Bool
  | [] => true
  | item :: items => hasWords item && allWords items

def allMembersWords : List (String × Json) → Bool
  | [] => true
  | (_, value) :: members => hasWords value && allMembersWords members

end

-- The text of a value, unless an integer is too large.
def toText? (value : Json) (indent : Bool) : Option String :=
  if value.hasWords then some (if indent then value.pretty else value.compact) else none

end FiniteAutomata.Json
