import FiniteAutomata.Json.Value

/-!
The body of a JSON string, from behind its opening quote. It holds no raw control character, and
its escapes name characters, those beyond the first 2 ^ 16 by a pair of surrogates. A surrogate
that has no partner is refused.
-/

namespace FiniteAutomata.Json

def hexValue? (c : Char) : Option Nat :=
  if '0' ≤ c ∧ c ≤ '9' then some (c.toNat - '0'.toNat)
  else if 'a' ≤ c ∧ c ≤ 'f' then some (c.toNat - 'a'.toNat + 10)
  else if 'A' ≤ c ∧ c ≤ 'F' then some (c.toNat - 'A'.toNat + 10)
  else none

-- The four hexadecimal digits of an escape, and the rest.
def codeUnit? : List Char → Option (Nat × List Char)
  | a :: b :: c :: d :: rest => do
    let a ← hexValue? a
    let b ← hexValue? b
    let c ← hexValue? c
    let d ← hexValue? d
    return (((a * 16 + b) * 16 + c) * 16 + d, rest)
  | _ => none

def isHighSurrogate (unit : Nat) : Bool := 0xD800 ≤ unit && unit < 0xDC00
def isLowSurrogate (unit : Nat) : Bool := 0xDC00 ≤ unit && unit < 0xE000

-- What follows the backslash and the `u` of an escape.
def unicodeEscape? (cs : List Char) : Option (Char × List Char) := do
  let (unit, rest) ← codeUnit? cs
  if isLowSurrogate unit then none
  else if isHighSurrogate unit then
    match rest with
    | '\\' :: 'u' :: rest =>
      let (low, rest) ← codeUnit? rest
      if isLowSurrogate low then
        some (Char.ofNat (0x10000 + (unit - 0xD800) * 0x400 + (low - 0xDC00)), rest)
      else none
    | _ => none
  else some (Char.ofNat unit, rest)

-- The escapes of one letter.
def letterEscape? (c : Char) : Option Char :=
  match c with
  | '"' | '\\' | '/' => some c
  | 'b' => some '\x08'
  | 'f' => some '\x0c'
  | 'n' => some '\n'
  | 'r' => some '\r'
  | 't' => some '\t'
  | _ => none

-- One character of a string's body, written raw or as an escape.
def character? : List Char → Option (Char × List Char)
  | '\\' :: 'u' :: rest => unicodeEscape? rest
  | '\\' :: c :: rest => (letterEscape? c).map (·, rest)
  | c :: rest => if c = '\\' ∨ c.toNat < 0x20 then none else some (c, rest)
  | [] => none

theorem length_codeUnit? {cs rest : List Char} {unit : Nat}
    (h : codeUnit? cs = some (unit, rest)) : rest.length < cs.length := by
  unfold codeUnit? at h
  split at h
  · simp only [bind, Option.bind_eq_some_iff, pure, Option.some.injEq, Prod.mk.injEq] at h
    obtain ⟨_, _, _, _, _, _, _, _, _, rfl⟩ := h
    simp only [List.length_cons]; omega
  · exact nomatch h

theorem length_unicodeEscape? {cs rest : List Char} {c : Char}
    (h : unicodeEscape? cs = some (c, rest)) : rest.length < cs.length := by
  simp only [unicodeEscape?, bind, Option.bind_eq_some_iff] at h
  obtain ⟨⟨unit, mid⟩, hunit, h⟩ := h
  have hmid := length_codeUnit? hunit
  dsimp only at h
  split at h
  · exact nomatch h
  · split at h
    · split at h
      · simp only [Option.bind_eq_some_iff] at h
        obtain ⟨⟨low, last⟩, hlow, h⟩ := h
        have hlast := length_codeUnit? hlow
        split at h
        · simp only [Option.some.injEq, Prod.mk.injEq] at h
          obtain ⟨_, rfl⟩ := h
          simp only [List.length_cons] at hmid
          omega
        · exact nomatch h
      · exact nomatch h
    · simp only [Option.some.injEq, Prod.mk.injEq] at h
      obtain ⟨_, rfl⟩ := h
      exact hmid

theorem length_character? {cs rest : List Char} {c : Char}
    (h : character? cs = some (c, rest)) : rest.length < cs.length := by
  unfold character? at h
  split at h
  · have := length_unicodeEscape? h
    simp only [List.length_cons]; omega
  · obtain ⟨_, _, h⟩ := Option.map_eq_some_iff.mp h
    cases h
    simp only [List.length_cons]; omega
  · split at h
    · exact nomatch h
    · cases h; exact Nat.lt_succ_self _
  · exact nomatch h

-- A string's body up to its closing quote, and the rest.
def stringBody? (cs : List Char) : Option (List Char × List Char) :=
  match cs with
  | [] => none
  | c :: cs =>
    if c = '"' then some ([], cs)
    else
      match _h : character? (c :: cs) with
      | none => none
      | some (x, rest) =>
        (stringBody? rest).map fun (xs, rest) => (x :: xs, rest)
termination_by cs.length
decreasing_by exact length_character? _h

theorem length_stringBody? {cs xs rest : List Char}
    (h : stringBody? cs = some (xs, rest)) : rest.length < cs.length := by
  fun_induction stringBody? cs generalizing xs with
  | case1 => exact nomatch h
  | case2 => cases h; exact Nat.lt_succ_self _
  | case3 => exact nomatch h
  | case4 c cs _ x mid hx ih =>
    obtain ⟨⟨ys, last⟩, hys, h⟩ := Option.map_eq_some_iff.mp h
    cases h
    exact Nat.lt_trans (ih hys) (length_character? hx)

end FiniteAutomata.Json
