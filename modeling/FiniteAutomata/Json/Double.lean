import FiniteAutomata.Json.Value

/-!
The double nearest to a number, and the fewest decimal digits that still round to a double; of
several such decimals the one nearest to the double is taken.
-/

namespace FiniteAutomata

namespace Decimal

-- The least number that rounds to no finite double: halfway from the largest one to 2 ^ 1024.
def doubleLimit : Nat := Nat.pow 2 1024 - Nat.pow 2 970

-- Away from the limit the number of digits decides, so that no huge power is computed.
def exceedsDouble (d : Decimal) : Bool :=
  let digits := (Nat.toDigits 10 d.magnitude).length + d.exponent
  if d.magnitude = 0 ∨ digits < 309 then false
  else if 309 < digits then true
  else if 0 ≤ d.exponent then doubleLimit ≤ d.magnitude * Nat.pow 10 d.exponent.toNat
  else doubleLimit * Nat.pow 10 (-d.exponent).toNat ≤ d.magnitude

end Decimal

-- The double `significand * 2 ^ exponent`, below 2 ^ 53 and from 2 ^ -1074 up.
structure Double where
  significand : Nat
  exponent : Int
deriving DecidableEq

namespace Double

-- The quotient `n * b ^ e / d` of natural numbers.
structure Ratio where
  num : Nat
  den : Nat

def Ratio.scale (r : Ratio) (base : Nat) (e : Int) : Ratio :=
  if 0 ≤ e then ⟨r.num * base.pow e.toNat, r.den⟩ else ⟨r.num, r.den * base.pow (-e).toNat⟩

-- The nearest natural number, a tie going to the even one.
def Ratio.round (r : Ratio) : Nat :=
  let q := r.num / r.den
  let twice := 2 * (r.num % r.den)
  if twice < r.den ∨ twice = r.den ∧ q % 2 = 0 then q else q + 1

-- The nearest double. A nonzero number takes 53 significant bits where the range of exponents
-- allows it.
def nearest (r : Ratio) : Double :=
  if r.num = 0 then ⟨0, 0⟩
  else
    let guess : Int := (r.num.log2 : Int) - r.den.log2 - 52
    let low := r.scale 2 (-guess)
    let exponent := max (-1074) (if low.num / low.den < Nat.pow 2 52 then guess - 1 else guess)
    let significand := (r.scale 2 (-exponent)).round
    if significand = Nat.pow 2 53 then ⟨Nat.pow 2 52, exponent + 1⟩ else ⟨significand, exponent⟩

-- What stands for everything beyond the doubles.
def infinity : Double := ⟨1, 1024⟩

-- The double nearest to the size of a decimal. Below 10 ^ -324 everything rounds to zero, and
-- zero has no size whatever its exponent, so that no huge power is computed.
def ofDecimal (d : Decimal) : Double :=
  if d.magnitude = 0 ∨ (Nat.toDigits 10 d.magnitude).length + d.exponent < -324 then ⟨0, 0⟩
  else if d.exceedsDouble then infinity
  else nearest (Ratio.scale ⟨d.magnitude, 1⟩ 10 d.exponent)

def ratio (d : Double) : Ratio := Ratio.scale ⟨d.significand, 1⟩ 2 d.exponent

-- The decimal with `digits` significant digits next to `d` that rounds to `d`, if there is one:
-- a whole number of units of 10 ^ (point - digits), where `d` is below 10 ^ point.
def withDigits? (d : Double) (point : Int) (digits : Nat) : Option Nat :=
  let unit := point - digits
  let scaled := d.ratio.scale 10 (-unit)
  let below := scaled.num / scaled.den
  let readsBack (n : Nat) : Bool := nearest (Ratio.scale ⟨n, 1⟩ 10 unit) = d
  let near := scaled.round
  let far := if near = below then below + 1 else below
  if readsBack near then some near else if readsBack far then some far else none

-- The least `point` such that `d` is below 10 ^ point.
def point (d : Double) : Int :=
  let r := d.ratio
  let below (p : Int) : Bool := let s := r.scale 10 (-p); s.num < s.den
  let start := ((Nat.toDigits 10 r.num).length : Int) - (Nat.toDigits 10 r.den).length
  if below start then start else start + 1

-- The significant digits and the place of the point before them. Rounding up may have made
-- a power of ten, which has one place more.
def shortest (d : Double) : List Char × Int :=
  let point := d.point
  let found := (List.range' 1 17).findSome? fun digits => do
    let n ← d.withDigits? point digits
    return (n, if n = Nat.pow 10 digits then point + 1 else point)
  match found with
  | none => (['0'], 1)
  | some (n, point) => (((Nat.toDigits 10 n).reverse.dropWhile (· = '0')).reverse, point)

end Double

namespace Json

-- A number or a truth value as a quotient. A decimal counts as the double nearest to it.
def quotient? : Json → Option (Int × Nat)
  | bool b => some (if b then 1 else 0, 1)
  | int n => some (n, 1)
  | decimal d =>
    let r := (Double.ofDecimal d).ratio
    some (if d.negative then -r.num else r.num, r.den)
  | _ => none

-- Whether the first of two numbers is less than the second.
def isBelow (v w : Json) : Bool :=
  match v.quotient?, w.quotient? with
  | some (m, c), some (n, d) => m * d < n * c
  | _, _ => false

end Json

end FiniteAutomata
