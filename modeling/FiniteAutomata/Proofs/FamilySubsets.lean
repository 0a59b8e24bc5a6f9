import FiniteAutomata.Family
import FiniteAutomata.Proofs.Document
import FiniteAutomata.Proofs.SubsetAutomaton
import Mathlib.Data.Finset.Interval
import Mathlib.Data.Int.Interval

/-!
The family of small automata with large deterministic ones, after a word over 0 and 1: state 0 is
never left, and state i is reached just if the i-th character from the right is 1
(`Family.mem_reached_nth`). So the accepted words are those with 1 at the n-th place from the right
(`Family.accepts_nth?_iff`). Every set of places is met with some word (`Family.marking`), and
determinization meets all sets that hold state 0 (`Family.size_toDFA_nth`).
-/

namespace FiniteAutomata.Family

variable {n : Nat} {word : List Char}

-- The automaton

theorem mem_nthMoves {p q : Int} {l : Label} : ⟨p, l, q⟩ ∈ nthMoves n ↔
    (l = some '0' ∨ l = some '1') ∧
      (p = 0 ∧ (q = 0 ∨ q = 1 ∧ l = some '1') ∨ 1 ≤ p ∧ p < (n : Int) ∧ q = p + 1) := by
  have hcount : ⟨p, l, q⟩ ∈ ((List.range' 1 (n - 1)).flatMap fun (i : Nat) =>
      [(⟨i, some '0', i + 1⟩ : Edge Char), ⟨i, some '1', i + 1⟩]) ↔
        (l = some '0' ∨ l = some '1') ∧ 1 ≤ p ∧ p < (n : Int) ∧ q = p + 1 := by
    simp only [List.mem_flatMap, List.mem_range'_1, List.mem_cons, List.not_mem_nil, or_false,
      Edge.mk.injEq]
    constructor
    · rintro ⟨i, hi, ⟨rfl, hl, rfl⟩ | ⟨rfl, hl, rfl⟩⟩
      · exact ⟨.inl hl, by omega, by omega, rfl⟩
      · exact ⟨.inr hl, by omega, by omega, rfl⟩
    · rintro ⟨hl, hlow, hhigh, rfl⟩
      have hp : p = (p.toNat : Int) := (Int.toNat_of_nonneg (by omega)).symm
      refine ⟨p.toNat, by omega, ?_⟩
      rw [← hp]
      exact hl.imp (⟨rfl, ·, rfl⟩) (⟨rfl, ·, rfl⟩)
  rw [nthMoves, List.mem_cons, List.mem_cons, List.mem_cons, hcount]
  simp only [Edge.mk.injEq]
  constructor
  · rintro (⟨rfl, rfl, rfl⟩ | ⟨rfl, rfl, rfl⟩ | ⟨rfl, rfl, rfl⟩ | ⟨hl, hcount⟩)
    · exact ⟨.inl rfl, .inl ⟨rfl, .inl rfl⟩⟩
    · exact ⟨.inr rfl, .inl ⟨rfl, .inl rfl⟩⟩
    · exact ⟨.inr rfl, .inl ⟨rfl, .inr ⟨rfl, rfl⟩⟩⟩
    · exact ⟨hl, .inr hcount⟩
  · rintro ⟨hl, ⟨rfl, rfl | ⟨rfl, rfl⟩⟩ | hcount⟩
    · rcases hl with rfl | rfl
      · exact .inl ⟨rfl, rfl, rfl⟩
      · exact .inr (.inl ⟨rfl, rfl, rfl⟩)
    · exact .inr (.inr (.inl ⟨rfl, rfl, rfl⟩))
    · exact .inr (.inr (.inr ⟨hl, hcount⟩))

-- All states and moves are what was asked for, because no move is refused.
theorem describes_nth (hn : 1 ≤ n) :
    (⟨.nfa, n + 1, [(n : Int)], nthMoves n⟩ : Document).Describes (nth n) := by
  have hrange : ∀ p : Int, 0 ≤ p → p ≤ n → Document.InRange (n + 1) p := by
    intro p hlow hhigh
    have hlt : p < ((n + 1 : Nat) : Int) := by omega
    exact ⟨hlow, hlt⟩
  have hvalid : (⟨.nfa, n + 1, [(n : Int)], nthMoves n⟩ : Document).Valid := by
    apply Document.valid_nfa
    · intro p hp
      rw [List.mem_singleton.mp hp]
      exact hrange n (by omega) (by omega)
    · rintro ⟨p, l, q⟩ he
      obtain ⟨-, hmove⟩ := mem_nthMoves.mp he
      exact ⟨hrange p (by omega) (by omega), hrange q (by omega) (by omega)⟩
  exact hvalid.describes

theorem isFinal_nth_iff (hn : 1 ≤ n) {p : Int} : (nth n).isFinal p = true ↔ p = n := by
  rw [← Automaton.mem_finals_iff_isFinal, (describes_nth hn).mem_finals, List.mem_singleton]

theorem mem_edges_nth (hn : 1 ≤ n) {e : Edge Char} : e ∈ (nth n).moves.edges ↔ e ∈ nthMoves n :=
  (describes_nth hn).mem_edges e

theorem nth?_natCast (hn : 1 ≤ n) : nth? n = .ok (nth n) := by
  rw [nth?, if_neg (by omega), Int.toNat_natCast]

theorem wellFormed_nth (hn : 1 ≤ n) : Automaton.WellFormed (nth n) :=
  wellFormed_of_nth? (nth?_natCast hn)

theorem not_silent_nth (hn : 1 ≤ n) : ∀ e ∈ (nth n).moves.edges, e.label ≠ none := by
  rintro ⟨p, l, q⟩ he
  rcases (mem_nthMoves.mp ((mem_edges_nth hn).mp he)).1 with rfl | rfl
  · exact Option.some_ne_none '0'
  · exact Option.some_ne_none '1'

theorem mem_alphabet_nth (hn : 1 ≤ n) {c : Char} :
    c ∈ Automaton.alphabet (nth n) ↔ c = '0' ∨ c = '1' := by
  rw [Automaton.alphabet, MoveRelation.mem_symbols]
  constructor
  · rintro ⟨⟨p, l, q⟩, he, hl⟩
    have hlabel := (mem_nthMoves.mp ((mem_edges_nth hn).mp he)).1
    cases hl
    simpa using hlabel
  · intro hc
    refine ⟨⟨0, some c, 0⟩, (mem_edges_nth hn).mpr ?_, rfl⟩
    exact mem_nthMoves.mpr ⟨hc.imp (congrArg some) (congrArg some), .inl ⟨rfl, .inl rfl⟩⟩

-- Words

theorem mem_step_nth (hn : 1 ≤ n) {s : Ascending State} {c : Char} (hc : c = '0' ∨ c = '1')
    {q : Int} : q ∈ Automaton.step (nth n) s c ↔
      0 ∈ s ∧ (q = 0 ∨ q = 1 ∧ c = '1') ∨ 1 < q ∧ q ≤ n ∧ q - 1 ∈ s := by
  have hlabel : some c = some '0' ∨ some c = some '1' := hc.imp (congrArg some) (congrArg some)
  have hmove : ∀ p q : Int, ⟨p, some c, q⟩ ∈ (nth n).moves.edges ↔
      p = 0 ∧ (q = 0 ∨ q = 1 ∧ c = '1') ∨ 1 ≤ p ∧ p < (n : Int) ∧ q = p + 1 := by
    intro p q
    rw [mem_edges_nth hn, mem_nthMoves, and_iff_right hlabel, Option.some_inj]
  rw [Automaton.mem_step_of_not_silent (wellFormed_nth hn) (not_silent_nth hn)]
  constructor
  · rintro ⟨p, hp, he⟩
    rcases (hmove p q).mp he with ⟨rfl, hq⟩ | ⟨hlow, hhigh, rfl⟩
    · exact .inl ⟨hp, hq⟩
    · right
      rw [Int.add_sub_cancel]
      exact ⟨by omega, by omega, hp⟩
  · rintro (⟨hzero, hq⟩ | ⟨hlow, hhigh, hp⟩)
    · exact ⟨0, hzero, (hmove 0 q).mpr (.inl ⟨rfl, hq⟩)⟩
    · exact ⟨q - 1, hp, (hmove (q - 1) q).mpr (.inr ⟨by omega, by omega, by omega⟩)⟩

-- The last character is the one at place 0.
theorem mem_reached_nth (hn : 1 ≤ n) (hword : ∀ c ∈ word, c = '0' ∨ c = '1') {q : Int} :
    q ∈ NFA.reached (nth n) word ↔
      q = 0 ∨ ∃ i : Nat, i < n ∧ q = i + 1 ∧ word.reverse[i]? = some '1' := by
  induction word using List.reverseRecOn generalizing q with
  | nil =>
      have hzero := (wellFormed_nth hn).valid_zero
      rw [NFA.reached, List.foldl_nil, NFA.start,
        Automaton.mem_closure_of_not_silent (not_silent_nth hn)]
      simp only [List.mem_singleton, List.reverse_nil, List.getElem?_nil, reduceCtorEq, and_false,
        exists_false, or_false]
      constructor
      · exact And.left
      · rintro rfl
        exact ⟨rfl, hzero⟩
  | append_singleton word c ih =>
      obtain ⟨hword, hc⟩ := List.forall_mem_append.mp hword
      have hzero : (0 : Int) ∈ NFA.reached (nth n) word := (ih hword).mpr (.inl rfl)
      rw [NFA.reached_append_singleton, mem_step_nth hn (hc c (List.mem_singleton_self c)),
        List.reverse_append]
      constructor
      · rintro (⟨-, rfl | ⟨rfl, rfl⟩⟩ | ⟨hlow, hhigh, hq⟩)
        · exact .inl rfl
        · exact .inr ⟨0, hn, rfl, rfl⟩
        · obtain hq | ⟨i, hi, hq, hplace⟩ := (ih hword).mp hq
          · omega
          · exact .inr ⟨i + 1, by omega, by omega, hplace⟩
      · rintro (rfl | ⟨i, hi, rfl, hplace⟩)
        · exact .inl ⟨hzero, .inl rfl⟩
        · cases i with
          | zero => exact .inl ⟨hzero, .inr ⟨rfl, Option.some.inj hplace⟩⟩
          | succ i =>
              have hbefore := (ih hword (q := i + 1)).mpr (.inr ⟨i, by omega, rfl, hplace⟩)
              exact .inr ⟨by omega, by omega, by simpa using hbefore⟩

theorem accepts_nth_iff (hn : 1 ≤ n) (hword : ∀ c ∈ word, c = '0' ∨ c = '1') :
    NFA.accepts (nth n) word = true ↔ word.reverse[n - 1]? = some '1' := by
  rw [NFA.accepts_eq_hasFinal, Automaton.hasFinal_iff]
  simp only [isFinal_nth_iff hn, exists_eq_right]
  rw [mem_reached_nth hn hword]
  constructor
  · rintro (hzero | ⟨i, hi, hlast, hplace⟩)
    · omega
    · rwa [show n - 1 = i by omega]
  · intro hplace
    exact .inr ⟨n - 1, by omega, by omega, hplace⟩

-- All characters are 0 or 1, and counted from the right the n-th is there and is 1.
structure OneFromRight (n : Int) (word : List Char) : Prop where
  binary : ∀ c ∈ word, c = '0' ∨ c = '1'
  length_le : n ≤ word.length
  one : word[word.length - n.toNat]? = some '1'

theorem oneFromRight_iff (hn : 1 ≤ n) : OneFromRight n word ↔
    (∀ c ∈ word, c = '0' ∨ c = '1') ∧ word.reverse[n - 1]? = some '1' := by
  have hplace : n ≤ word.length → word.reverse[n - 1]? = word[word.length - n]? := by
    intro hlength
    rw [List.getElem?_reverse (by omega)]
    congr 1
    omega
  constructor
  · intro h
    have hlength := Int.ofNat_le.mp h.length_le
    exact ⟨h.binary, (hplace hlength).trans h.one⟩
  · rintro ⟨hbinary, hone⟩
    obtain ⟨hlt, -⟩ := List.getElem?_eq_some_iff.mp hone
    rw [List.length_reverse] at hlt
    have hlength : n ≤ word.length := by omega
    exact ⟨hbinary, Int.ofNat_le.mpr hlength, (hplace hlength).symm.trans hone⟩

-- A character other than 0 and 1 labels no move, so that no state is left once it is read.
theorem accepts_nth_eq_false (hn : 1 ≤ n) (hword : ¬ ∀ c ∈ word, c = '0' ∨ c = '1') :
    NFA.accepts (nth n) word = false := by
  have hforeign : ∃ c ∈ word, c ∉ Automaton.alphabet (nth n) := by
    simpa only [mem_alphabet_nth hn, not_forall, exists_prop] using hword
  rw [NFA.accepts_eq_hasFinal, NFA.reached, NFA.foldl_step_eq_empty hforeign]
  rfl

theorem accepts_nth_iff_oneFromRight (hn : 1 ≤ n) :
    NFA.accepts (nth n) word = true ↔ OneFromRight n word := by
  rw [oneFromRight_iff hn]
  by_cases hword : ∀ c ∈ word, c = '0' ∨ c = '1'
  · rw [accepts_nth_iff hn hword]
    exact (and_iff_right hword).symm
  · rw [accepts_nth_eq_false hn hword]
    exact iff_of_false Bool.false_ne_true fun h => hword h.1

-- The family recognises what it is made for, over words of all characters and of any length, and
-- determinized it does so too.
theorem accepts_nth?_iff {n : Int} (hn : 1 ≤ n) : ∃ a, nth? n = .ok a ∧ ∀ word : List Char,
    (NFA.accepts a word = true ↔ OneFromRight n word) ∧
    (DFA.accepts (NFA.toDFA a) word = true ↔ OneFromRight n word) := by
  obtain ⟨n, rfl⟩ := Int.eq_ofNat_of_zero_le (by omega : 0 ≤ n)
  have hpos : 1 ≤ n := by omega
  refine ⟨nth n, nth?_natCast hpos, ?_⟩
  intro word
  have haccepts : NFA.accepts (nth n) word = true ↔ OneFromRight n word :=
    accepts_nth_iff_oneFromRight hpos
  refine ⟨haccepts, ?_⟩
  rw [NFA.accepts_toDFA_eq_hasFinal, ← NFA.accepts_eq_hasFinal]
  exact haccepts

-- Of these words the second is too short, and the third has another character.
theorem accepts_nth?_iff_three : ∃ a, nth? 3 = .ok a ∧ NFA.accepts a ['0', '1', '0', '0'] = true ∧
    ¬ NFA.accepts a ['1', '1'] = true ∧ ¬ NFA.accepts a ['x', '1', '0', '0'] = true := by
  obtain ⟨a, ha, haccepts⟩ := accepts_nth?_iff (by decide : (1 : Int) ≤ 3)
  refine ⟨a, ha, (haccepts _).1.mpr ⟨by simp, by decide, rfl⟩, ?_, ?_⟩
  · intro haccepted
    exact absurd ((haccepts _).1.mp haccepted).length_le (by decide)
  · intro haccepted
    have hbinary := ((haccepts _).1.mp haccepted).binary 'x' List.mem_cons_self
    exact absurd hbinary (by decide)

-- The word of n characters that has 1 at just these places, counted from the last.
def marking (n : Nat) (places : Finset Nat) : List Char :=
  ((List.range n).map fun i => if i ∈ places then '1' else '0').reverse

theorem mem_marking {places : Finset Nat} : ∀ c ∈ marking n places, c = '0' ∨ c = '1' := by
  intro c hc
  obtain ⟨i, -, rfl⟩ := List.mem_map.mp (List.mem_reverse.mp hc)
  split
  · exact .inr rfl
  · exact .inl rfl

theorem getElem?_reverse_marking {places : Finset Nat} {i : Nat} (hi : i < n) :
    (marking n places).reverse[i]? = some '1' ↔ i ∈ places := by
  rw [marking, List.reverse_reverse, List.getElem?_map, List.getElem?_range hi, Option.map_some,
    Option.some_inj]
  by_cases h : i ∈ places <;> simp [h]

theorem mem_reached_marking (hn : 1 ≤ n) {places : Finset Nat} {q : Int} :
    q ∈ NFA.reached (nth n) (marking n places) ↔
      q = 0 ∨ ∃ i : Nat, i < n ∧ q = i + 1 ∧ i ∈ places := by
  rw [mem_reached_nth hn mem_marking]
  apply or_congr_right
  apply exists_congr
  intro i
  apply and_congr_right
  intro hi
  rw [getElem?_reverse_marking hi]

-- Subsets

theorem mem_subsets_nth (hn : 1 ≤ n) {s : Ascending State} :
    s ∈ (NFA.determinize (nth n)).subsets ↔ 0 ∈ s ∧ ∀ p : Int, p ∈ s → 0 ≤ p ∧ p ≤ n := by
  rw [NFA.mem_subsets_iff_accessible]
  constructor
  · rintro ⟨word, hword, rfl⟩
    have hbits : ∀ c ∈ word, c = '0' ∨ c = '1' := by
      intro c hc
      exact (mem_alphabet_nth hn).mp (hword c hc)
    constructor
    · exact (mem_reached_nth hn hbits).mpr (.inl rfl)
    · intro p hp
      rcases (mem_reached_nth hn hbits).mp hp with rfl | ⟨i, hi, rfl, -⟩
      · omega
      · omega
  · rintro ⟨hzero, hrange⟩
    let places := (Finset.range n).filter fun (i : Nat) => (i : Int) + 1 ∈ s
    refine ⟨marking n places, fun c hc => (mem_alphabet_nth hn).mpr (mem_marking c hc), ?_⟩
    apply Ascending.ext
    intro (q : Int)
    rw [mem_reached_marking hn]
    constructor
    · rintro (rfl | ⟨i, -, rfl, hplace⟩)
      · exact hzero
      · exact (Finset.mem_filter.mp hplace).2
    · intro hq
      obtain ⟨hlow, hhigh⟩ := hrange q hq
      by_cases hq0 : q = 0
      · exact .inl hq0
      · obtain ⟨i, rfl⟩ : ∃ i : Nat, q = i + 1 := ⟨(q - 1).toNat, by omega⟩
        have hi : i < n := by omega
        exact .inr ⟨i, hi, rfl, Finset.mem_filter.mpr ⟨Finset.mem_range.mpr hi, hq⟩⟩

theorem size_toDFA_nth (hn : 1 ≤ n) : (NFA.toDFA (nth n)).size = 2 ^ n := by
  have hsets : ∀ s : Ascending State, s ∈ (NFA.determinize (nth n)).subsets ↔
      s.toList.toFinset ∈ Finset.Icc {0} (Finset.Icc (0 : State) (n : Int)) := by
    intro s
    rw [mem_subsets_nth hn, Finset.mem_Icc]
    simp [Finset.subset_iff]
  have hcard : (Finset.Icc (0 : State) (n : Int)).card = n + 1 := by
    simp
  rw [NFA.size_toDFA_eq_card hsets, Finset.card_Icc_finset (by simp), hcard]
  simp

-- Determinization meets all sets of states that hold state 0, and no others.
theorem determinize_nth_exact {n : Int} (hn : 1 ≤ n) : ∃ a, nth? n = .ok a ∧
    (NFA.determinize a).dfa.size = 2 ^ n.toNat ∧
    (∀ s : Ascending State,
      s ∈ (NFA.determinize a).subsets ↔ 0 ∈ s ∧ ∀ p : Int, p ∈ s → 0 ≤ p ∧ p ≤ n) ∧
    ∅ ∉ (NFA.determinize a).subsets := by
  obtain ⟨n, rfl⟩ := Int.eq_ofNat_of_zero_le (by omega : 0 ≤ n)
  have hpos : 1 ≤ n := by omega
  refine ⟨nth n, nth?_natCast hpos, size_toDFA_nth hpos, fun s => mem_subsets_nth hpos, ?_⟩
  intro hempty
  exact Ascending.not_mem_empty ((mem_subsets_nth hpos).mp hempty).1

-- States 1 and 3 are left out.
theorem determinize_nth_exact_three : ∃ a, nth? 3 = .ok a ∧ (NFA.determinize a).dfa.size = 8 ∧
    .ofList [0, 2] ∈ (NFA.determinize a).subsets ∧ ∅ ∉ (NFA.determinize a).subsets := by
  obtain ⟨a, ha, hsize, hsubsets, hempty⟩ := determinize_nth_exact (by decide : (1 : Int) ≤ 3)
  refine ⟨a, ha, hsize, (hsubsets _).mpr ⟨by decide, ?_⟩, hempty⟩
  intro p hp
  have hcases : p = 0 ∨ p = 2 := by simpa using hp
  omega

end FiniteAutomata.Family
