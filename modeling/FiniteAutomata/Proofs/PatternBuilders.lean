import FiniteAutomata.Proofs.PatternLanguage
import FiniteAutomata.Pattern.Build
import Mathlib.Data.List.Forall2

/-!
What lists of expressions are compiled to. A sequence denotes the product of what its members denote,
so its words are cut into a part for each member, in their order (`Regex.accepts_concatAll_iff`).
A choice denotes the union (`Regex.accepts_foldl_alternate_iff`), and a text by itself only that text
(`Regex.accepts_ofWord_iff`). As texts nest to the left, one that is given can be compiled unless it is
too long (`Pattern.compile?_ofWord`).
-/

namespace FiniteAutomata

namespace Pattern

variable {φ : Type}

theorem ofWord_append_singleton {t : List Char} (ht : t ≠ []) (c : Char) :
    (ofWord (t ++ [c]) : Pattern φ) = concat (ofWord t) (literal c) := by
  obtain ⟨d, t, rfl⟩ := List.exists_cons_of_ne_nil ht
  simp only [ofWord, List.cons_append, List.map_cons, List.map_append, concatAll, List.foldl_append]
  rfl

-- Every character but the first one is a level further up.
theorem ground?_ofWord (t : List Char) {level : Nat} (hlevel : level ≤ maxDepth) :
    (ofWord t : Pattern φ).ground? level =
      if level + t.length ≤ maxDepth + 1 then .ok (ofWord t) else .error .tooDeep := by
  induction t using List.reverseRecOn generalizing level with
  | nil =>
      have hshort : level + ([] : List Char).length ≤ maxDepth + 1 := Nat.le_succ_of_le hlevel
      rw [if_pos hshort]
      rfl
  | append_singleton t c ih =>
      rw [List.length_append, List.length_singleton]
      by_cases ht : t = []
      · subst ht
        have hshort : level + (([] : List Char).length + 1) ≤ maxDepth + 1 :=
          Nat.succ_le_succ hlevel
        rw [if_pos hshort]
        rfl
      · have hpos := List.length_pos_iff.mpr ht
        rw [ofWord_append_singleton ht, ofWord_append_singleton ht]
        by_cases hdeep : level + 1 ≤ maxDepth
        · have hleft := ih hdeep
          rw [Nat.add_right_comm] at hleft
          simp only [ground?, descend, if_pos hdeep, hleft, ← Nat.add_assoc]
          split
          · rfl
          · rfl
        · rw [if_neg (by omega)]
          simp only [ground?, descend, if_neg hdeep]
          rfl

-- A text can be compiled where it is given, unless it is too long.
theorem compile?_ofWord (t : List Char) : compile? (ofWord t) =
    if t.length ≤ maxDepth then .ok (Regex.compile (ofWord t)) else .error .tooDeep := by
  have hlevel : 1 ≤ maxDepth := by decide
  rw [compile?, ground?_ofWord t hlevel, Nat.add_comm]
  simp only [Nat.add_le_add_iff_right]
  by_cases h : t.length ≤ maxDepth
  · rw [if_pos h, if_pos h]
  · rw [if_neg h, if_neg h]

end Pattern

namespace Regex

-- One part of a word for each of the languages.
theorem mem_prod_iff {ls : List (Language Char)} {word : List Char} :
    word ∈ ls.prod ↔ ∃ parts : List (List Char), parts.flatten = word ∧
      List.Forall₂ (fun l part => part ∈ l) ls parts := by
  induction ls generalizing word with
  | nil =>
      rw [List.prod_nil, Language.mem_one]
      simp [List.forall₂_nil_left_iff, eq_comm]
  | cons l ls ih =>
      rw [List.prod_cons, Language.mem_mul]
      constructor
      · intro h
        obtain ⟨first, hfirst, rest, hrest, rfl⟩ := h
        obtain ⟨parts, rfl, hparts⟩ := ih.mp hrest
        exact ⟨first :: parts, rfl, .cons hfirst hparts⟩
      · intro h
        obtain ⟨parts, rfl, hparts⟩ := h
        cases hparts with
        | @cons l first ls parts hfirst hparts =>
            exact ⟨first, hfirst, parts.flatten, ih.mpr ⟨parts, rfl, hparts⟩, rfl⟩

theorem language_concatAll (rs : List Regex) :
    (Pattern.concatAll rs).language = (rs.map Pattern.language).prod := by
  have hwell : ∀ f ∈ rs.map compile, f.WellFormed := by
    intro f hf
    obtain ⟨r, _, rfl⟩ := List.mem_map.mp hf
    exact wellFormed_compile r
  rw [← language_compile, compile_concatAll, Fragment.language_concatAll hwell, List.map_map]
  exact congrArg List.prod (List.map_congr_left fun r _ => language_compile r)

theorem accepts_concatAll_iff (rs : List Regex) (word : List Char) :
    NFA.accepts (toNFA (Pattern.concatAll rs)) word = true ↔
      ∃ parts : List (List Char), parts.flatten = word ∧
        List.Forall₂ (fun r part => NFA.accepts (toNFA r) part = true) rs parts := by
  simp only [accepts_toNFA_iff, language_concatAll, mem_prod_iff, List.forall₂_map_left_iff]

theorem mem_language_foldl_alternate {r : Regex} {rs : List Regex} {word : List Char} :
    word ∈ (rs.foldl Pattern.alternate r).language ↔ ∃ s ∈ r :: rs, word ∈ s.language := by
  induction rs generalizing r with
  | nil => simp
  | cons s rs ih =>
      rw [List.foldl_cons, ih]
      simp only [List.exists_mem_cons_iff, Pattern.language, Language.mem_add, or_assoc]

theorem accepts_foldl_alternate_iff (r : Regex) (rs : List Regex) (word : List Char) :
    NFA.accepts (toNFA (rs.foldl Pattern.alternate r)) word = true ↔
      ∃ s ∈ r :: rs, NFA.accepts (toNFA s) word = true := by
  simp only [accepts_toNFA_iff, mem_language_foldl_alternate]

theorem language_ofWord (t : List Char) : (Pattern.ofWord t : Regex).language = {t} := by
  rw [Pattern.ofWord, language_concatAll]
  induction t with
  | nil => rfl
  | cons c t ih =>
      rw [List.map_cons, List.map_cons, List.prod_cons, ih]
      exact Set.image2_singleton

theorem accepts_ofWord_iff (t word : List Char) :
    NFA.accepts (toNFA (Pattern.ofWord t)) word = true ↔ word = t := by
  rw [accepts_toNFA_iff, language_ofWord]
  exact Set.mem_singleton_iff

end Regex

end FiniteAutomata
