import FiniteAutomata.Json.Double
import FiniteAutomata.Text.Quoted

/-!
The text of a value in a message. A decimal is shown by the shortest digits of the double
nearest to it.
-/

namespace FiniteAutomata.Json

-- Numbers below 10 ^ -4 and from 10 ^ 16 on are written with a power of ten.
def displayDigits (digits : List Char) (point : Int) : List Char :=
  if -4 < point ∧ point ≤ 0 then
    '0' :: '.' :: List.replicate (-point).toNat '0' ++ digits
  else if 0 < point ∧ point ≤ 16 then
    let whole := digits.take point.toNat
    let fraction := digits.drop point.toNat
    whole ++ List.replicate (point.toNat - whole.length) '0' ++
      '.' :: (if fraction.isEmpty then ['0'] else fraction)
  else
    let power := point - 1
    let sign := if power < 0 then '-' else '+'
    let exponent := Nat.toDigits 10 power.natAbs
    let exponent := if exponent.length < 2 then '0' :: exponent else exponent
    digits.take 1 ++ (if digits.length ≤ 1 then [] else '.' :: digits.drop 1) ++
      'e' :: sign :: exponent

def displayDecimal (d : Decimal) : List Char :=
  let magnitude := Double.ofDecimal d
  let text :=
    if magnitude.significand = 0 then ['0', '.', '0']
    else if magnitude = Double.infinity then ['i', 'n', 'f']
    else
      let (digits, point) := magnitude.shortest
      displayDigits digits point
  if d.negative then '-' :: text else text

mutual

def display : Json → String
  | .null => "None"
  | .bool b => if b then "True" else "False"
  | .int n => toString n
  | .decimal d => String.ofList (displayDecimal d)
  | .string s => Text.quoted s
  | .array items => Text.bracketed (displayItems items)
  | .object members => "\x7b" ++ ", ".intercalate (displayMembers members) ++ "\x7d"

def displayItems : List Json → List String
  | [] => []
  | item :: items => display item :: displayItems items

def displayMembers : List (String × Json) → List String
  | [] => []
  | (key, value) :: members => (Text.quoted key ++ ": " ++ display value) :: displayMembers members

end

-- The first hundred characters of a long text stand for the whole.
def displayShort (value : Json) : String :=
  let text := display value
  if 100 < text.length then String.ofList (text.toList.take 100) ++ "..." else text

end FiniteAutomata.Json
