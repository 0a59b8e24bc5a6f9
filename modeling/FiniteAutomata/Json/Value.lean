/-!
JSON values. Numbers are integers of any size or decimals, their digits and a power of ten.
-/

namespace FiniteAutomata

-- The number `magnitude * 10 ^ exponent` with a sign, which zero has too.
structure Decimal where
  negative : Bool
  magnitude : Nat
  exponent : Int
deriving DecidableEq, BEq, Repr

inductive Json where
  | null
  | bool (b : Bool)
  | int (n : Int)
  | decimal (d : Decimal)
  | string (s : String)
  | array (items : List Json)
  | object (members : List (String × Json))
deriving BEq, Repr, Inhabited

namespace Json

-- The least number beyond an unsigned word of 64 bits.
def wordLimit : Nat := Nat.pow 2 64

-- The integers of one 64-bit word, signed or unsigned.
def isWord (n : Int) : Bool := -wordLimit ≤ 2 * n && n < wordLimit

-- The name of the type of a value, as messages give it.
def typeName : Json → String
  | null => "NoneType"
  | bool _ => "bool"
  | int _ => "int"
  | decimal _ => "float"
  | string _ => "str"
  | array _ => "list"
  | object _ => "dict"

-- An object's member with this key.
def member? (key : String) (members : List (String × Json)) : Option Json :=
  (members.find? (·.1 == key)).map (·.2)

-- A repeated key keeps its first place and takes the last value.
def putMember (key : String) (value : Json) : List (String × Json) → List (String × Json)
  | [] => [(key, value)]
  | (k, v) :: rest => if k = key then (k, value) :: rest else (k, v) :: putMember key value rest

end Json

end FiniteAutomata
