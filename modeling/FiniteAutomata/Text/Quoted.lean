import FiniteAutomata.Ascending
import FiniteAutomata.Text.Unprintable

/-!
Text between quotes, as messages and table headers show it. The quote is an apostrophe, or a
double quote when the text holds apostrophes and no double quote. The quote in use and the
backslash are escaped, and so is every character without a glyph.
-/

namespace FiniteAutomata.Text

-- The last `width` hexadecimal digits of `n`, in lower case.
def hexDigits : (width : Nat) → (n : Nat) → List Char
  | 0, _ => []
  | width + 1, n => hexDigits width (n / 16) ++ [Nat.digitChar (n % 16)]

def quoteMark (text : List Char) : Char :=
  if '\'' ∈ text ∧ '"' ∉ text then '"' else '\''

def escapeChar (mark c : Char) : List Char :=
  if c = mark ∨ c = '\\' then ['\\', c]
  else if c = '\n' then ['\\', 'n']
  else if c = '\r' then ['\\', 'r']
  else if c = '\t' then ['\\', 't']
  else if isPrintable c then [c]
  else if c.toNat < 0x100 then '\\' :: 'x' :: hexDigits 2 c.toNat
  else if c.toNat < 0x10000 then '\\' :: 'u' :: hexDigits 4 c.toNat
  else '\\' :: 'U' :: hexDigits 8 c.toNat

-- What stands between the quotes.
def escaped (text : List Char) : List Char := text.flatMap (escapeChar (quoteMark text))

def quoted (text : String) : String :=
  let mark := quoteMark text.toList
  String.ofList (mark :: escaped text.toList ++ [mark])

def bracketed (items : List String) : String := "[" ++ ", ".intercalate items ++ "]"

-- What to say of a text that is none of the names, which are listed in ascending order.
def unsupported (field given : String) (names : List String) : String :=
  "Unsupported " ++ field ++ ": " ++ quoted given ++ ". Choose from " ++
    bracketed ((Ascending.ofList names).toList.map quoted)

end FiniteAutomata.Text
