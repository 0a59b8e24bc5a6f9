import FiniteAutomata.Json.Double

/-!
JSON numerals. One without a point and an exponent is an integer, every other one a decimal. A
machine may bound its numbers to 64-bit words and doubles (`Json.bounded?`).
-/

namespace FiniteAutomata

namespace Json

-- The digits at the front, at least one, and the rest.
def digits? (cs : List Char) : Option (List Char × List Char) :=
  match cs.takeWhile Char.isDigit with
  | [] => none
  | ds => some (ds, cs.dropWhile Char.isDigit)

-- No zero stands before another digit.
def wholePart? (cs : List Char) : Option (List Char × List Char) :=
  match digits? cs with
  | some ('0' :: _ :: _, _) => none
  | found => found

-- The digits after a point; none of them without a point.
def fractionPart? : List Char → Option (List Char × List Char)
  | '.' :: rest => digits? rest
  | rest => some ([], rest)

def exponentDigits? : List Char → Option (Int × List Char)
  | '-' :: rest => (digits? rest).map fun (ds, rest) => (-(Nat.ofDigitChars 10 ds 0 : Int), rest)
  | '+' :: rest => (digits? rest).map fun (ds, rest) => (Nat.ofDigitChars 10 ds 0, rest)
  | rest => (digits? rest).map fun (ds, rest) => (Nat.ofDigitChars 10 ds 0, rest)

def exponentPart? : List Char → Option (Option Int × List Char)
  | 'e' :: rest => (exponentDigits? rest).map fun (e, rest) => (some e, rest)
  | 'E' :: rest => (exponentDigits? rest).map fun (e, rest) => (some e, rest)
  | rest => some (none, rest)

-- A numeral from its parts; the exponent is `none` where none is written.
def ofNumeral (negative : Bool) (whole fraction : List Char) (exponent : Option Int) : Json :=
  let magnitude := Nat.ofDigitChars 10 (whole ++ fraction) 0
  match fraction, exponent with
  | [], none => .int (if negative then -magnitude else magnitude)
  | _, _ => .decimal ⟨negative, magnitude, exponent.getD 0 - fraction.length⟩

def unsigned? (negative : Bool) (cs : List Char) : Option (Json × List Char) := do
  let (whole, rest) ← wholePart? cs
  let (fraction, rest) ← fractionPart? rest
  let (exponent, rest) ← exponentPart? rest
  return (ofNumeral negative whole fraction exponent, rest)

def number? : List Char → Option (Json × List Char)
  | '-' :: rest => unsigned? true rest
  | cs => unsigned? false cs

-- A number as words and doubles hold it: an integer of more than one word is taken for a double,
-- and what rounds to no finite double is refused.
def bounded? (value : Json) : Option Json :=
  match value with
  | .int n =>
    let d : Decimal := ⟨n < 0, n.natAbs, 0⟩
    if isWord n then some value else if d.exceedsDouble then none else some (.decimal d)
  | .decimal d => if d.exceedsDouble then none else some value
  | _ => some value

theorem length_digits? {cs ds rest : List Char} (h : digits? cs = some (ds, rest)) :
    rest.length < cs.length := by
  unfold digits? at h
  split at h
  · exact nomatch h
  · rename_i hne
    cases h
    have hlen := congrArg List.length (List.takeWhile_append_dropWhile (p := Char.isDigit) (l := cs))
    have hpos := List.length_pos_iff.mpr hne
    simp only [List.length_append] at hlen
    omega

theorem length_wholePart? {cs ds rest : List Char} (h : wholePart? cs = some (ds, rest)) :
    rest.length < cs.length := by
  unfold wholePart? at h
  split at h
  · exact nomatch h
  · exact length_digits? h

theorem length_fractionPart? {cs ds rest : List Char} (h : fractionPart? cs = some (ds, rest)) :
    rest.length ≤ cs.length := by
  unfold fractionPart? at h
  split at h
  · exact Nat.le_succ_of_le (Nat.le_of_lt (length_digits? h))
  · cases h; exact Nat.le_refl _

theorem length_exponentDigits? {cs rest : List Char} {e : Int}
    (h : exponentDigits? cs = some (e, rest)) : rest.length ≤ cs.length := by
  unfold exponentDigits? at h
  split at h
  all_goals
    obtain ⟨⟨ds, last⟩, hds, h⟩ := Option.map_eq_some_iff.mp h
    cases h
  · exact Nat.le_succ_of_le (Nat.le_of_lt (length_digits? hds))
  · exact Nat.le_succ_of_le (Nat.le_of_lt (length_digits? hds))
  · exact Nat.le_of_lt (length_digits? hds)

theorem length_exponentPart? {cs rest : List Char} {e : Option Int}
    (h : exponentPart? cs = some (e, rest)) : rest.length ≤ cs.length := by
  unfold exponentPart? at h
  split at h
  case h_3 => cases h; exact Nat.le_refl _
  all_goals
    obtain ⟨⟨ds, last⟩, hds, h⟩ := Option.map_eq_some_iff.mp h
    cases h
    exact Nat.le_succ_of_le (length_exponentDigits? hds)

theorem length_unsigned? {negative : Bool} {cs rest : List Char} {value : Json}
    (h : unsigned? negative cs = some (value, rest)) : rest.length < cs.length := by
  simp only [unsigned?, bind, Option.bind_eq_some_iff, pure, Option.some.injEq,
    Prod.mk.injEq] at h
  obtain ⟨⟨_, _⟩, hwhole, ⟨_, _⟩, hfraction, ⟨_, _⟩, hexponent, _, rfl⟩ := h
  exact Nat.lt_of_le_of_lt (length_exponentPart? hexponent)
    (Nat.lt_of_le_of_lt (length_fractionPart? hfraction) (length_wholePart? hwhole))

theorem length_number? {cs rest : List Char} {value : Json}
    (h : number? cs = some (value, rest)) : rest.length < cs.length := by
  unfold number? at h
  split at h
  · exact Nat.lt_succ_of_lt (length_unsigned? h)
  · exact length_unsigned? h

end Json

end FiniteAutomata
