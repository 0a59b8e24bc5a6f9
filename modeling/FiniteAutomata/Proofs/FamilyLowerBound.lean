import FiniteAutomata.Proofs.Deterministic
import FiniteAutomata.Proofs.FamilySubsets

/-!
Every deterministic automaton for the language of the family is large, not only the one that
determinization yields. Of two words of n characters that differ in a place, only one is accepted
once zeros have moved this place n characters from the end (`Family.accepts_marking_zeros`), so
the two lead to different states (`Family.two_pow_le_size`).
-/

namespace FiniteAutomata.Family

variable {n : Nat} {places : Finset Nat}

theorem binary_marking_append {word : List Char} (hword : ∀ c ∈ word, c = '0' ∨ c = '1') :
    ∀ c ∈ marking n places ++ word, c = '0' ∨ c = '1' :=
  List.forall_mem_append.mpr ⟨mem_marking, hword⟩

theorem binary_zeros (count : Nat) : ∀ c ∈ List.replicate count '0', c = '0' ∨ c = '1' :=
  fun _ hc => .inl (List.eq_of_mem_replicate hc)

theorem accepts_marking_zeros {i : Nat} (hi : i < n) :
    NFA.accepts (nth n) (marking n places ++ List.replicate (n - 1 - i) '0') = true ↔
      i ∈ places := by
  have hplace : n - 1 - (List.replicate (n - 1 - i) '0').length = i := by
    rw [List.length_replicate]
    omega
  rw [accepts_nth_iff (by omega) (binary_marking_append (binary_zeros _)), List.reverse_append,
    List.reverse_replicate, List.getElem?_append_right (by simp), hplace,
    getElem?_reverse_marking hi]

-- Whatever was read, a 1 and the right number of zeros follow.
theorem accepts_marking_one_zeros (hn : 1 ≤ n) :
    NFA.accepts (nth n) (marking n places ++ '1' :: List.replicate (n - 1) '0') = true := by
  have hword : ∀ c ∈ '1' :: List.replicate (n - 1) '0', c = '0' ∨ c = '1' :=
    List.forall_mem_cons.mpr ⟨.inr rfl, binary_zeros _⟩
  rw [accepts_nth_iff hn (binary_marking_append hword)]
  simp

theorem two_pow_le_size {d : DFA} (hd : Automaton.WellFormed d) (hn : 1 ≤ n)
    (haccepts : ∀ word, DFA.accepts d word = NFA.accepts (nth n) word) : 2 ^ n ≤ d.size := by
  have hcard : (Finset.range n).powerset.card ≤ d.size := by
    apply DFA.card_le_size hd (marking n)
    · intro places _
      refine ⟨'1' :: List.replicate (n - 1) '0', ?_⟩
      rw [haccepts]
      exact accepts_marking_one_zeros hn
    · intro left hleft right hright hsame
      ext i
      by_cases hi : i < n
      · have hrest := hsame (List.replicate (n - 1 - i) '0')
        rw [haccepts, haccepts, Bool.eq_iff_iff] at hrest
        rwa [accepts_marking_zeros hi, accepts_marking_zeros hi] at hrest
      · have hnone : ∀ places ∈ (Finset.range n).powerset, i ∉ places := by
          intro places hplaces hmem
          exact hi (Finset.mem_range.mp (Finset.mem_powerset.mp hplaces hmem))
        exact iff_of_false (hnone left hleft) (hnone right hright)
  rwa [Finset.card_powerset, Finset.card_range] at hcard

-- No deterministic automaton with the language is smaller than the one of the subsets.
theorem two_pow_le_size_of_accepts {n : Int} (hn : 1 ≤ n) : ∃ a, nth? n = .ok a ∧
    ∀ d : DFA, Reachable d → (∀ word, DFA.accepts d word = NFA.accepts a word) →
      2 ^ n.toNat ≤ d.size := by
  obtain ⟨n, rfl⟩ := Int.eq_ofNat_of_zero_le (by omega : 0 ≤ n)
  have hpos : 1 ≤ n := by omega
  refine ⟨nth n, nth?_natCast hpos, ?_⟩
  intro d hd haccepts
  exact two_pow_le_size hd.wellFormed hpos haccepts

-- The automaton that determinization yields is one of those that the bound is about.
theorem two_pow_le_size_of_accepts_determinized : ∃ (a : NFA) (d : DFA), nth? 2 = .ok a ∧
    Reachable d ∧ (∀ word, DFA.accepts d word = NFA.accepts a word) ∧ 4 ≤ d.size := by
  obtain ⟨a, ha, hsize⟩ := two_pow_le_size_of_accepts (by decide : (1 : Int) ≤ 2)
  have hreachable : Reachable (NFA.toDFA a) := by
    refine ⟨[.make (.determinized (.nth 2)) "d"], "d", ?_⟩
    cases ha
    rfl
  have haccepts : ∀ word, DFA.accepts (NFA.toDFA a) word = NFA.accepts a word := by
    intro word
    rw [NFA.accepts_toDFA_eq_hasFinal, NFA.accepts_eq_hasFinal]
  exact ⟨a, NFA.toDFA a, ha, hreachable, haccepts, hsize _ hreachable haccepts⟩

end FiniteAutomata.Family
