import FiniteAutomata.Json.Token
import FiniteAutomata.Json.Writer
import Mathlib.Tactic.SplitIfs

/-!
Written numbers and strings are read back (`Json.number?_int`, `Json.number?_decimal`,
`Json.stringBody?_flatMap`). A string may stand before any text, a number only before one that does
not go on like a numeral (`Json.Ends`).
-/

namespace FiniteAutomata.Json

-- Digits

theorem eq_zero_of_toDigits {n : Nat} {ds : List Char} (h : Nat.toDigits 10 n = '0' :: ds) :
    n = 0 := by
  induction n using Nat.base_induction 10 (by decide) generalizing ds with
  | single m hm =>
      rw [Nat.toDigits_of_lt_base hm] at h
      have hchar : Nat.digitChar m = '0' := (List.cons.inj h).1
      have hdigits : ∀ m < 10, Nat.digitChar m = '0' → m = 0 := by decide
      exact hdigits m hm hchar
  | digit m k hk hm ih =>
      rw [← Nat.toDigits_append_toDigits (by decide) hm hk] at h
      cases hfirst : Nat.toDigits 10 m with
      | nil => exact absurd hfirst Nat.toDigits_ne_nil
      | cons d rest =>
          rw [hfirst, List.cons_append] at h
          rw [(List.cons.inj h).1] at hfirst
          have hzero := ih hfirst
          omega

theorem exists_toDigits_eq_cons (n : Nat) :
    ∃ d ds, Nat.toDigits 10 n = d :: ds ∧ d.isDigit = true := by
  cases hdigits : Nat.toDigits 10 n with
  | nil => exact absurd hdigits Nat.toDigits_ne_nil
  | cons d ds =>
      have hmem : d ∈ Nat.toDigits 10 n := by
        rw [hdigits]
        exact List.mem_cons_self
      exact ⟨d, ds, rfl, Nat.isDigit_of_mem_toDigits (by decide) (by decide) hmem⟩

theorem toList_toString (n : Int) :
    (toString n).toList = (if n < 0 then ['-'] else []) ++ Nat.toDigits 10 n.natAbs := by
  cases n with
  | ofNat n => exact Nat.toList_repr
  | negSucc n =>
      rw [if_pos (Int.negSucc_lt_zero n), Int.natAbs_negSucc]
      exact String.toList_append.trans (congrArg _ Nat.toList_repr)

-- What follows does not go on like a numeral.
def Ends (rest : List Char) : Prop :=
  ∀ c ∈ rest.head?, c.isDigit = false ∧ c ≠ '.' ∧ c ≠ 'e' ∧ c ≠ 'E'

theorem ends_nil : Ends [] := nofun

theorem ends_cons {c : Char} {rest : List Char} :
    Ends (c :: rest) ↔ c.isDigit = false ∧ c ≠ '.' ∧ c ≠ 'e' ∧ c ≠ 'E' := by
  simp [Ends]

theorem digits?_append {ds rest : List Char} (hds : ∀ c ∈ ds, c.isDigit = true) (hne : ds ≠ [])
    (hrest : ∀ c ∈ rest.head?, c.isDigit = false) : digits? (ds ++ rest) = some (ds, rest) := by
  have htake : rest.takeWhile Char.isDigit = [] := by
    cases rest with
    | nil => rfl
    | cons c rest => simp [hrest c rfl]
  have hdrop : rest.dropWhile Char.isDigit = rest := by
    cases rest with
    | nil => rfl
    | cons c rest => simp [hrest c rfl]
  rw [digits?, List.takeWhile_append_of_pos hds, List.dropWhile_append_of_pos hds, htake, hdrop,
    List.append_nil]
  cases ds with
  | nil => exact absurd rfl hne
  | cons d ds => rfl

theorem digits?_toDigits (n : Nat) {rest : List Char}
    (hrest : ∀ c ∈ rest.head?, c.isDigit = false) :
    digits? (Nat.toDigits 10 n ++ rest) = some (Nat.toDigits 10 n, rest) :=
  digits?_append (fun _ hc => Nat.isDigit_of_mem_toDigits (by decide) (by decide) hc)
    Nat.toDigits_ne_nil hrest

-- No digits but those of zero begin with a zero.
theorem wholePart?_toDigits (n : Nat) {rest : List Char}
    (hrest : ∀ c ∈ rest.head?, c.isDigit = false) :
    wholePart? (Nat.toDigits 10 n ++ rest) = some (Nat.toDigits 10 n, rest) := by
  unfold wholePart?
  split
  · rename_i d ds last hdigits
    rw [digits?_toDigits n hrest] at hdigits
    have hlist : Nat.toDigits 10 n = '0' :: d :: ds := by
      simpa using congrArg (Option.map Prod.fst) hdigits
    have hzero := eq_zero_of_toDigits hlist
    rw [hzero] at hlist
    exact nomatch hlist
  · exact digits?_toDigits n hrest

-- Numbers

theorem fractionPart?_of_head {rest : List Char} (hrest : rest.head? ≠ some '.') :
    fractionPart? rest = some ([], rest) := by
  unfold fractionPart?
  split
  · exact absurd rfl hrest
  · rfl

theorem exponentPart?_of_ends {rest : List Char} (hrest : Ends rest) :
    exponentPart? rest = some (none, rest) := by
  unfold exponentPart?
  split
  · exact absurd rfl (ends_cons.mp hrest).2.2.1
  · exact absurd rfl (ends_cons.mp hrest).2.2.2
  · rfl

theorem exponentDigits?_toString (e : Int) {rest : List Char} (hrest : Ends rest) :
    exponentDigits? ((toString e).toList ++ rest) = some (e, rest) := by
  have hdigits := digits?_toDigits e.natAbs fun c hc => (hrest c hc).1
  rw [toList_toString]
  by_cases he : e < 0
  · simp only [he, if_true, List.cons_append, List.nil_append, exponentDigits?, hdigits,
      Option.map_some, Nat.ofDigitChars_ten_toDigits]
    rw [Int.ofNat_natAbs_of_nonpos (Int.le_of_lt he), Int.neg_neg]
  · obtain ⟨d, ds, hcons, hd⟩ := exists_toDigits_eq_cons e.natAbs
    have hvalue : ((Nat.ofDigitChars 10 (d :: ds) 0 : Nat) : Int) = e := by
      rw [← hcons, Nat.ofDigitChars_ten_toDigits]
      omega
    simp only [he, if_false, List.nil_append, hcons, List.cons_append] at hdigits ⊢
    unfold exponentDigits?
    split
    · rename_i heq
      cases heq
      exact absurd hd (by decide)
    · rename_i heq
      cases heq
      exact absurd hd (by decide)
    · simp only [hdigits, Option.map_some, hvalue]

theorem unsigned?_int (negative : Bool) (n : Nat) {rest : List Char} (hrest : Ends rest) :
    unsigned? negative (Nat.toDigits 10 n ++ rest) =
      some (.int (if negative then -n else n), rest) := by
  have hhead : rest.head? ≠ some '.' := fun h => (hrest '.' h).2.1 rfl
  rw [unsigned?, wholePart?_toDigits n fun c hc => (hrest c hc).1]
  simp [fractionPart?_of_head hhead, exponentPart?_of_ends hrest, ofNumeral]

theorem unsigned?_decimal (negative : Bool) (n : Nat) (e : Int) {rest : List Char}
    (hrest : Ends rest) :
    unsigned? negative (Nat.toDigits 10 n ++ 'e' :: ((toString e).toList ++ rest)) =
      some (.decimal ⟨negative, n, e⟩, rest) := by
  have hnext : ∀ c ∈ ('e' :: ((toString e).toList ++ rest)).head?, c.isDigit = false := by
    intro c hc
    cases hc
    rfl
  rw [unsigned?, wholePart?_toDigits n hnext]
  simp [fractionPart?, exponentPart?, exponentDigits?_toString e hrest, ofNumeral,
    -Int.toString_eq_repr]

-- A sign is followed by the digits, and without one the digits come first.
theorem number?_signed (negative : Bool) (n : Nat) (rest : List Char) :
    number? ((if negative then ['-'] else []) ++ Nat.toDigits 10 n ++ rest) =
      unsigned? negative (Nat.toDigits 10 n ++ rest) := by
  cases negative with
  | true => rfl
  | false =>
      obtain ⟨d, ds, hcons, hd⟩ := exists_toDigits_eq_cons n
      simp only [Bool.false_eq_true, if_false, List.nil_append, hcons, List.cons_append]
      unfold number?
      split
      · rename_i heq
        cases heq
        exact absurd hd (by decide)
      · rfl

theorem number?_int (n : Int) {rest : List Char} (hrest : Ends rest) :
    number? ((toString n).toList ++ rest) = some (.int n, rest) := by
  have hsigned := number?_signed (n < 0) n.natAbs rest
  rw [unsigned?_int _ _ hrest] at hsigned
  simp only [decide_eq_true_eq] at hsigned
  rw [toList_toString, hsigned]
  congr 3
  omega

theorem toList_writeDecimal (d : Decimal) :
    (writeDecimal d).toList = (if d.negative then ['-'] else []) ++ Nat.toDigits 10 d.magnitude ++
      'e' :: (toString d.exponent).toList := by
  unfold writeDecimal
  cases d.negative <;> simp

theorem number?_decimal (d : Decimal) {rest : List Char} (hrest : Ends rest) :
    number? ((writeDecimal d).toList ++ rest) = some (.decimal d, rest) := by
  have hsigned := number?_signed d.negative d.magnitude
    ('e' :: ((toString d.exponent).toList ++ rest))
  rw [unsigned?_decimal _ _ _ hrest] at hsigned
  rw [toList_writeDecimal, List.append_assoc]
  exact hsigned

-- What a numeral begins with.
def Begins (cs : List Char) : Prop := ∃ c ds, cs = c :: ds ∧ (c.isDigit = true ∨ c = '-')

theorem begins_signed (negative : Bool) (n : Nat) (cs : List Char) :
    Begins ((if negative then ['-'] else []) ++ Nat.toDigits 10 n ++ cs) := by
  obtain ⟨d, ds, hcons, hd⟩ := exists_toDigits_eq_cons n
  rw [hcons]
  cases negative with
  | true => exact ⟨'-', _, rfl, .inr rfl⟩
  | false => exact ⟨d, _, rfl, .inl hd⟩

theorem begins_toString (n : Int) : Begins (toString n).toList := by
  have hsigned := begins_signed (n < 0) n.natAbs []
  rw [List.append_nil] at hsigned
  rw [toList_toString]
  simpa only [decide_eq_true_eq] using hsigned

theorem begins_writeDecimal (d : Decimal) : Begins (writeDecimal d).toList := by
  rw [toList_writeDecimal]
  exact begins_signed d.negative d.magnitude _

-- Strings

theorem hexValue?_digitChar : ∀ n < 16, hexValue? (Nat.digitChar n) = some n := by decide

theorem codeUnit?_hexDigits {n : Nat} (hn : n < 0x10000) (rest : List Char) :
    codeUnit? (Text.hexDigits 4 n ++ rest) = some (n, rest) := by
  have hdigit : ∀ m : Nat, hexValue? (Nat.digitChar (m % 16)) = some (m % 16) := fun m =>
    hexValue?_digitChar (m % 16) (Nat.mod_lt m (by decide))
  simp only [Text.hexDigits, List.nil_append, List.cons_append, codeUnit?, hdigit]
  simp only [bind, Option.bind_some, pure, Option.some.injEq, Prod.mk.injEq, and_true]
  omega

theorem unicodeEscape?_hexDigits {c : Char} (hc : c.toNat < 0x20) (rest : List Char) :
    unicodeEscape? (Text.hexDigits 4 c.toNat ++ rest) = some (c, rest) := by
  have hunit := codeUnit?_hexDigits (by omega : c.toNat < 0x10000) rest
  have hlow : isLowSurrogate c.toNat = false := by
    simp only [isLowSurrogate, Bool.and_eq_false_iff, decide_eq_false_iff_not]
    omega
  have hhigh : isHighSurrogate c.toNat = false := by
    simp only [isHighSurrogate, Bool.and_eq_false_iff, decide_eq_false_iff_not]
    omega
  simp [unicodeEscape?, hunit, hlow, hhigh]

-- A character is escaped by a letter or by its number, or it stands raw.
theorem escapeChar_cases (c : Char) :
    (∃ letter, escapeChar c = ['\\', letter] ∧ letterEscape? letter = some c) ∨
      c.toNat < 0x20 ∧ escapeChar c = '\\' :: 'u' :: Text.hexDigits 4 c.toNat ∨
      c ≠ '"' ∧ c ≠ '\\' ∧ 0x20 ≤ c.toNat ∧ escapeChar c = [c] := by
  unfold escapeChar
  split_ifs with hquote hslash hback hfeed hline hreturn htab hcontrol
  · exact .inl ⟨'"', rfl, by rw [hquote]; rfl⟩
  · exact .inl ⟨'\\', rfl, by rw [hslash]; rfl⟩
  · exact .inl ⟨'b', rfl, by rw [hback]; rfl⟩
  · exact .inl ⟨'f', rfl, by rw [hfeed]; rfl⟩
  · exact .inl ⟨'n', rfl, by rw [hline]; rfl⟩
  · exact .inl ⟨'r', rfl, by rw [hreturn]; rfl⟩
  · exact .inl ⟨'t', rfl, by rw [htab]; rfl⟩
  · exact .inr (.inl ⟨hcontrol, rfl⟩)
  · exact .inr (.inr ⟨hquote, hslash, Nat.le_of_not_lt hcontrol, rfl⟩)

theorem character?_escapeChar (c : Char) (rest : List Char) :
    character? (escapeChar c ++ rest) = some (c, rest) := by
  rcases escapeChar_cases c with ⟨letter, hescape, hletter⟩ | ⟨hc, hescape⟩ |
    ⟨-, hslash, hc, hescape⟩
  · have hu : letter ≠ 'u' := by
      intro hu
      rw [hu] at hletter
      exact nomatch hletter
    rw [hescape]
    simp [character?, hletter]
  · rw [hescape]
    exact unicodeEscape?_hexDigits hc rest
  · rw [hescape]
    simp [character?, hslash, hc]

theorem stringBody?_of_character? {cs rest : List Char} {c : Char}
    (hquote : cs.head? ≠ some '"') (h : character? cs = some (c, rest)) :
    stringBody? cs = (stringBody? rest).map fun (cs, last) => (c :: cs, last) := by
  fun_cases stringBody? cs with
  | case1 => exact nomatch h
  | case2 tail => exact absurd rfl hquote
  | case3 d ds hd hnone =>
      rw [h] at hnone
      exact nomatch hnone
  | case4 d ds hd x last hsome =>
      rw [h] at hsome
      cases hsome
      rfl

-- No escaped character ends the string.
theorem head?_escapeChar (c : Char) (rest : List Char) :
    (escapeChar c ++ rest).head? ≠ some '"' := by
  rcases escapeChar_cases c with ⟨letter, hescape, -⟩ | ⟨-, hescape⟩ | ⟨hquote, -, -, hescape⟩
  · simp [hescape]
  · simp [hescape]
  · simp [hescape, hquote]

theorem stringBody?_flatMap (cs rest : List Char) :
    stringBody? (cs.flatMap escapeChar ++ '"' :: rest) = some (cs, rest) := by
  induction cs with
  | nil => rw [List.flatMap_nil, List.nil_append, stringBody?, if_pos rfl]
  | cons c cs ih =>
      rw [List.flatMap_cons, List.append_assoc, stringBody?_of_character? (head?_escapeChar c _)
        (character?_escapeChar c _), ih]
      rfl

end FiniteAutomata.Json
