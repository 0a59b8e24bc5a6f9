import FiniteAutomata.Proofs.FragmentLanguage

/-!
What patterns denote (`Pattern.language`), and that their compilation accepts just this
(`Regex.accepts_toNFA_iff`). A repetition denotes powers, while it is compiled as a sequence of
copies.
-/

namespace FiniteAutomata

open scoped Computability

namespace Pattern

variable {φ : Type}

-- What is no expression denotes nothing. The number of times in a repetition lies between `least`
-- and, with a bound, `least + extra`.
def language : Pattern φ → Language Char
  | foreign _ => 0
  | epsilon => 1
  | literal c => {[c]}
  | charSet cs => {word | ∃ c ∈ cs, word = [c]}
  | concat left right => left.language * right.language
  | alternate left right => left.language + right.language
  | star inner => inner.language∗
  | plus inner => inner.language * inner.language∗
  | optional inner => inner.language + 1
  | repeated inner least extra =>
    {word | ∃ times, least ≤ times ∧ (∀ n ∈ extra, times ≤ least + n) ∧
      word ∈ inner.language ^ times}

theorem mem_language_repeated {inner : Pattern φ} {least : Nat} {extra : Option Nat}
    {word : List Char} :
    word ∈ (repeated inner least extra).language ↔
      ∃ times, least ≤ times ∧ (∀ n ∈ extra, times ≤ least + n) ∧
        word ∈ inner.language ^ times := Iff.rfl

end Pattern

section Powers

variable {l : Language Char} {word : List Char}

theorem mem_add_one_pow {n : Nat} :
    word ∈ (l + 1) ^ n ↔ ∃ times, times ≤ n ∧ word ∈ l ^ times := by
  induction n generalizing word with
  | zero => simp
  | succ n ih =>
      rw [pow_succ, mul_add, mul_one, Language.mem_add, Language.mem_mul]
      constructor
      · rintro (⟨u, hu, v, hv, rfl⟩ | hword)
        · obtain ⟨times, htimes, hu⟩ := ih.mp hu
          refine ⟨times + 1, Nat.succ_le_succ htimes, ?_⟩
          rw [pow_succ]
          exact Language.append_mem_mul hu hv
        · obtain ⟨times, htimes, hword⟩ := ih.mp hword
          exact ⟨times, Nat.le_succ_of_le htimes, hword⟩
      · rintro ⟨times, htimes, hword⟩
        cases times with
        | zero => exact .inr (ih.mpr ⟨0, Nat.zero_le n, hword⟩)
        | succ times =>
            rw [pow_succ] at hword
            obtain ⟨u, hu, v, hv, rfl⟩ := Language.mem_mul.mp hword
            exact .inl ⟨u, ih.mpr ⟨times, Nat.le_of_succ_le_succ htimes, hu⟩, v, hv, rfl⟩

-- A number of copies, and then some number of times more.
theorem mem_pow_mul {most : Nat → Prop} {rest : Language Char} {least : Nat}
    (hrest : ∀ v, v ∈ rest ↔ ∃ times, most times ∧ v ∈ l ^ times) :
    word ∈ l ^ least * rest ↔
      ∃ times, least ≤ times ∧ most (times - least) ∧ word ∈ l ^ times := by
  rw [Language.mem_mul]
  constructor
  · rintro ⟨u, hu, v, hv, rfl⟩
    obtain ⟨times, htimes, hv⟩ := (hrest v).mp hv
    refine ⟨least + times, Nat.le_add_right least times, ?_, ?_⟩
    · rwa [Nat.add_sub_cancel_left]
    · rw [pow_add]
      exact Language.append_mem_mul hu hv
  · rintro ⟨times, hleast, hmost, hword⟩
    rw [← Nat.add_sub_of_le hleast, pow_add] at hword
    obtain ⟨u, hu, v, hv, rfl⟩ := Language.mem_mul.mp hword
    exact ⟨u, hu, v, (hrest v).mpr ⟨_, hmost, hv⟩, rfl⟩

end Powers

namespace Regex

open Fragment (language_concat language_alternate language_star language_plus language_optional
  language_concatAll)

-- Copies of a fragment, and then the others.
theorem language_concatAll_copies {f : Fragment} {least : Nat} {others : List Fragment}
    (hf : f.WellFormed) (hothers : ∀ g ∈ others, g.WellFormed) :
    (Fragment.concatAll (List.replicate least f ++ others)).language =
      f.language ^ least * (others.map Fragment.language).prod := by
  have hall : ∀ g ∈ List.replicate least f ++ others, g.WellFormed := by
    intro g hg
    rcases List.mem_append.mp hg with hg | hg
    · rw [(List.mem_replicate.mp hg).2]
      exact hf
    · exact hothers g hg
  rw [language_concatAll hall, List.map_append, List.prod_append, List.map_replicate,
    List.prod_replicate]

theorem language_compile_repeated {inner : Regex} {least : Nat} {extra : Option Nat}
    (hinner : inner.compile.language = inner.language) :
    (compile (.repeated inner least extra)).language =
      (Pattern.repeated inner least extra).language := by
  have hwell := wellFormed_compile inner
  refine Language.ext fun word => ?_
  cases extra with
  | none =>
      have hothers : ∀ g ∈ [inner.compile.star], g.WellFormed := by
        intro g hg
        rw [List.mem_singleton.mp hg]
        exact hwell.wrap true true
      have hrest : ∀ v, v ∈ inner.language∗ ↔ ∃ times, True ∧ v ∈ inner.language ^ times := by
        intro v
        simp only [Language.kstar_eq_iSup_pow, Language.mem_iSup, true_and]
      simp only [compile, language_concatAll_copies hwell hothers, List.map_singleton,
        List.prod_singleton, language_star hwell, hinner, mem_pow_mul hrest]
      simp [Pattern.mem_language_repeated]
  | some n =>
      have hothers : ∀ g ∈ List.replicate n inner.compile.optional, g.WellFormed := by
        intro g hg
        rw [(List.mem_replicate.mp hg).2]
        exact hwell.wrap false true
      have hrest : ∀ v, v ∈ (inner.language + 1) ^ n ↔
          ∃ times, times ≤ n ∧ v ∈ inner.language ^ times := fun v => mem_add_one_pow
      simp only [compile, language_concatAll_copies hwell hothers, List.map_replicate,
        List.prod_replicate, language_optional hwell, hinner, mem_pow_mul hrest]
      simp [Pattern.mem_language_repeated, Nat.add_comm n least]

-- The fragment of a regular expression accepts what the expression denotes.
theorem language_compile (r : Regex) : r.compile.language = r.language := by
  induction r with
  | foreign value => exact nomatch value
  | epsilon => exact Fragment.language_epsilon
  | literal c => exact Fragment.language_char c
  | charSet cs => exact Language.ext fun word => Fragment.mem_language_chars
  | concat left right hleft hright =>
      rw [compile, language_concat (wellFormed_compile left) (wellFormed_compile right), hleft,
        hright, Pattern.language]
  | alternate left right hleft hright =>
      rw [compile, language_alternate (wellFormed_compile left) (wellFormed_compile right), hleft,
        hright, Pattern.language]
  | star inner hinner =>
      rw [compile, language_star (wellFormed_compile inner), hinner, Pattern.language]
  | plus inner hinner =>
      rw [compile, language_plus (wellFormed_compile inner), hinner, Pattern.language]
  | optional inner hinner =>
      rw [compile, language_optional (wellFormed_compile inner), hinner, Pattern.language]
  | repeated inner least extra hinner => exact language_compile_repeated hinner

theorem accepts_toNFA_iff (r : Regex) (word : List Char) :
    NFA.accepts r.toNFA word = true ↔ word ∈ r.language := by
  have hwell : r.toNFA.WellFormed := (wellFormed_compile r).toNFA
  rw [NFA.accepts_iff_mem_language hwell, ← language_compile r]
  rfl

end Regex

namespace Pattern

variable {φ : Type}

theorem descend_eq_ok {α : Type} {level levels : Nat} {go : Nat → Except (Obstacle φ) α} {x : α}
    (h : descend level levels go = .ok x) : ∃ below, go below = .ok x := by
  unfold descend at h
  split at h
  · exact ⟨_, h⟩
  · exact nomatch h

theorem eq_of_length? {n m : Nat} (h : length? n = .ok m) : m = n := by
  unfold length? count? at h
  split at h
  · simp only [Except.bind] at h
    split at h
    · cases h
      rfl
    · exact nomatch h
  · exact nomatch h

-- What is repeated no times does not matter.
theorem language_none (inner : Pattern φ) : (repeated inner 0 (some 0)).language = 1 := by
  refine Language.ext fun word => ?_
  simp [mem_language_repeated]

-- The expression that a pattern stands for denotes the same.
theorem language_of_ground? {p : Pattern φ} {level : Nat} {r : Regex}
    (h : p.ground? level = .ok r) : Pattern.language r = p.language := by
  induction p generalizing level r with
  | foreign value => exact nomatch h
  | epsilon | literal c | charSet cs => cases h; rfl
  | concat left right hleft hright | alternate left right hleft hright =>
      obtain ⟨s, hs, h⟩ := bind_eq_ok.mp h
      obtain ⟨t, ht, h⟩ := bind_eq_ok.mp h
      obtain ⟨_, hs⟩ := descend_eq_ok hs
      obtain ⟨_, ht⟩ := descend_eq_ok ht
      cases h
      rw [language, language, hleft hs, hright ht]
  | star inner hinner | plus inner hinner | optional inner hinner =>
      obtain ⟨s, hs, h⟩ := bind_eq_ok.mp h
      obtain ⟨_, hs⟩ := descend_eq_ok hs
      cases h
      rw [language, language, hinner hs]
  | repeated inner least extra hinner =>
      by_cases hnone : least = 0 ∧ extra = some 0
      · obtain ⟨rfl, rfl⟩ := hnone
        cases h
        rw [language_none, language_none]
      · rw [ground?] at h
        · obtain ⟨least', hleast, h⟩ := bind_eq_ok.mp h
          obtain ⟨s, hs, h⟩ := bind_eq_ok.mp h
          obtain ⟨_, hs⟩ := descend_eq_ok hs
          cases h
          rw [language, language, hinner hs, eq_of_length? (mapError_eq_ok.mp hleast)]
        · intro hleast hextra
          exact hnone ⟨hleast, hextra⟩

theorem language_of_compile? {p : Given} {f : Fragment} (h : compile? p = .ok f) :
    f.language = p.language := by
  unfold compile? at h
  split at h
  · rename_i r hr
    cases h
    rw [Regex.language_compile, language_of_ground? hr]
  all_goals exact nomatch h

end Pattern

end FiniteAutomata
