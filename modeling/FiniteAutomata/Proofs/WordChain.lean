import FiniteAutomata.Proofs.FragmentShape
import FiniteAutomata.Proofs.PatternBuilders
import FiniteAutomata.Proofs.SubsetAutomaton

/-!
How a word is compiled and determinized. Its automaton is a chain: two states and a move for each
character, with silent moves in between (`Regex.mem_edges_chain`). What is reached after some words
is known from how much of the word they have in front (`Regex.mem_reached_chain`): after `i`
characters the end of the `i`-th move and the start of the next one, and nothing once a character
differs. These sets are all different, whatever characters repeat, so there is one for each length
and one for all that is wrong (`Regex.size_toDFA_chain`).
-/

namespace FiniteAutomata.Regex

variable {t : List Char} {c : Char} {q : Int}

-- The automaton that a word is compiled to.
def chain (t : List Char) : Fragment := compile (Pattern.ofWord t)

theorem chain_append_singleton (ht : t ≠ []) (c : Char) :
    chain (t ++ [c]) = (chain t).concat (.char c) :=
  congrArg compile (Pattern.ofWord_append_singleton ht c)

theorem size_chain (ht : t ≠ []) : (chain t).size = 2 * t.length := by
  have hne : (t.map Pattern.literal).map compile ≠ [] := by simpa using ht
  have hsize : (Fragment.size ∘ compile) ∘ Pattern.literal = fun _ => 2 := rfl
  rw [chain, Pattern.ofWord, compile_concatAll, Fragment.size_concatAll hne, List.map_map,
    List.map_map, hsize, List.map_const', List.sum_replicate_nat, Nat.mul_comm]

theorem accept_chain (ht : t ≠ []) : (chain t).accept = (2 * t.length - 1 : Int) := by
  have hsize : ((chain t).size : Int) = (chain t).accept + 1 :=
    Fragment.size_eq_of_isThompson (isThompson_compile (Pattern.ofWord t))
  rw [size_chain ht, Nat.cast_mul] at hsize
  exact eq_sub_of_add_eq hsize.symm

theorem mem_edges_char {e : Edge Char} :
    e ∈ (Fragment.char c).moves.edges ↔ e = ⟨0, some c, 1⟩ := Ascending.mem_singleton

theorem mem_shifted_char {offset : Int} {e : Edge Char} :
    e ∈ (Fragment.char c).moves.shifted offset ↔ e = ⟨offset, some c, offset + 1⟩ := by
  rw [MoveRelation.mem_shifted, mem_edges_char]
  obtain ⟨p, l, q⟩ := e
  simp only [Edge.mk.injEq, sub_eq_iff_eq_add', add_zero]

-- The moves of a chain: one for each character, and silent ones from each to the next.
inductive Link (t : List Char) : Edge Char → Prop where
  | reading {i : Nat} {c : Char} (hc : t[i]? = some c) : Link t ⟨2 * i, some c, 2 * i + 1⟩
  | silent {i : Nat} (hpos : 0 < i) (hi : i < t.length) : Link t (Fragment.silent (2 * i - 1) (2 * i))

theorem not_link_nil {e : Edge Char} : ¬ Link [] e := by
  intro h
  cases h with
  | reading hc => simp at hc
  | silent hpos hi => simp at hi

-- One more character adds a move for it, and a silent one if it is not the first.
theorem link_append_singleton {e : Edge Char} : Link (t ++ [c]) e ↔
    Link t e ∨ e = ⟨2 * t.length, some c, 2 * t.length + 1⟩ ∨
      t ≠ [] ∧ e = Fragment.silent (2 * t.length - 1) (2 * t.length) := by
  constructor
  · intro h
    cases h with
    | @reading i d hd =>
        by_cases hi : i < t.length
        · rw [List.getElem?_append_left hi] at hd
          exact .inl (.reading hd)
        · obtain ⟨hlt, hget⟩ := List.getElem?_eq_some_iff.mp hd
          have hlast : i = t.length := by
            simp only [List.length_append, List.length_singleton] at hlt
            omega
          subst hlast
          rw [List.getElem_concat_length rfl] at hget
          rw [hget]
          exact .inr (.inl rfl)
    | @silent i hpos hi =>
        rw [List.length_append, List.length_singleton] at hi
        by_cases hlast : i = t.length
        · subst hlast
          exact .inr (.inr ⟨List.ne_nil_of_length_pos hpos, rfl⟩)
        · exact .inl (.silent hpos (by omega))
  · intro h
    rcases h with h | rfl | ⟨ht, rfl⟩
    · cases h with
      | reading hd =>
          obtain ⟨hi, -⟩ := List.getElem?_eq_some_iff.mp hd
          exact .reading ((List.getElem?_append_left hi).trans hd)
      | silent hpos hi => exact .silent hpos (by simp; omega)
    · exact .reading (List.getElem?_concat_length)
    · exact .silent (List.length_pos_iff.mpr ht) (by simp)

theorem mem_edges_chain (ht : t ≠ []) {e : Edge Char} :
    e ∈ (chain t).moves.edges ↔ Link t e := by
  induction t using List.reverseRecOn generalizing e with
  | nil => exact absurd rfl ht
  | append_singleton t c ih =>
      rw [link_append_singleton]
      by_cases hne : t = []
      · subst hne
        simp only [not_link_nil, false_or, ne_eq, not_true_eq_false, false_and, or_false]
        exact mem_edges_char
      · rw [chain_append_singleton hne, Fragment.mem_edges_concat, ih hne, mem_shifted_char,
          size_chain hne, accept_chain hne, Nat.cast_mul, and_iff_right hne]
        rfl

-- What is reached

-- Where a run over `n` characters can be after `i` of them: behind the `i`-th move or before the
-- next one. There is no such place after more than `n`.
def block (n i : Nat) : Finset State :=
  ({2 * (i : Int) - 1, 2 * (i : Int)} : Finset Int).filter fun q => 0 ≤ q ∧ q < 2 * n

theorem mem_block {n i : Nat} : q ∈ block n i ↔
    (q = 2 * i - 1 ∨ q = 2 * i) ∧ 0 ≤ q ∧ q < 2 * n := by
  rw [block, Finset.mem_filter, Finset.mem_insert, Finset.mem_singleton]

theorem valid_chain (ht : t ≠ []) : Automaton.Valid (chain t).toNFA q ↔ 0 ≤ q ∧ q < 2 * t.length := by
  rw [Fragment.valid_iff, size_chain ht, Nat.cast_mul]
  rfl

-- From the first place of a block, a silent move leads to the other one.
theorem mem_closure_chain (ht : t ≠ []) {i : Nat} {p : Int} (hp : p ∈ block t.length i)
    (hfirst : ∀ q ∈ block t.length i, p ≤ q) :
    q ∈ Automaton.closure (chain t).toNFA [p] ↔ q ∈ block t.length i := by
  constructor
  · intro hq
    apply Automaton.closure_induction _ _ hq
    · intro r hr _
      exact List.mem_singleton.mp hr ▸ hp
    · intro (r : Int) (s : Int) _ hr he
      rw [mem_block] at hr
      cases (mem_edges_chain ht).mp he with
      | silent hpos hi =>
          rw [mem_block]
          omega
  · intro hq
    rw [mem_block] at hp
    have hvalid : Automaton.Valid (chain t).toNFA p := (valid_chain ht).mpr hp.2
    have hstart := Automaton.mem_closure_start (List.mem_singleton_self p) hvalid
    have hle := hfirst q hq
    rw [mem_block] at hq
    by_cases hqp : q = p
    · exact hqp ▸ hstart
    · have hsilent : Fragment.silent p q = Fragment.silent (2 * i - 1) (2 * i) := by
        rw [show p = 2 * i - 1 by omega, show q = 2 * i by omega]
      have hlink : Link t (Fragment.silent p q) := hsilent ▸ .silent (by omega) (by omega)
      exact Automaton.mem_closure_follow hstart ((mem_edges_chain ht).mpr hlink)

-- How much of the word was read, or more than there is if something else was.
def progress (t word : List Char) : Nat := if word <+: t then word.length else t.length + 1

theorem progress_append_singleton (t word : List Char) (c : Char) : progress t (word ++ [c]) =
    if t[progress t word]? = some c then progress t word + 1 else t.length + 1 := by
  by_cases hword : word <+: t
  · obtain ⟨rest, rfl⟩ := hword
    have hnext : word ++ [c] <+: word ++ rest ↔ (word ++ rest)[word.length]? = some c := by
      rw [List.prefix_append_right_inj, List.getElem?_append_right (Nat.le_refl _), Nat.sub_self]
      cases rest with
      | nil => simp
      | cons d rest => simp [eq_comm]
    rw [progress, progress, if_pos (List.prefix_append word rest), List.length_append,
      List.length_singleton]
    simp only [hnext]
  · have hnext : ¬ word ++ [c] <+: t := fun h => hword ((List.prefix_append word [c]).trans h)
    rw [progress, progress, if_neg hword, if_neg hnext]
    simp

-- Only the move from the second place of a block reads.
theorem image_chain (ht : t ≠ []) {i : Nat} {s : Ascending State}
    (hs : ∀ q : Int, q ∈ s ↔ q ∈ block t.length i) (c : Char) :
    (chain t).moves.image s.toList (some c) =
      if t[i]? = some c then .singleton (2 * i + 1) else ∅ := by
  apply Ascending.ext
  intro (q : Int)
  rw [MoveRelation.mem_image]
  constructor
  · intro h
    obtain ⟨p, hp, he⟩ := h
    rw [Ascending.mem_toList, hs, mem_block] at hp
    cases (mem_edges_chain ht).mp he with
    | @reading j _ hc =>
        have hij : j = i := by omega
        subst hij
        rw [if_pos hc]
        exact Ascending.mem_singleton.mpr rfl
  · intro hq
    split at hq
    case isTrue hc =>
        obtain ⟨hi, -⟩ := List.getElem?_eq_some_iff.mp hc
        rw [Ascending.mem_singleton] at hq
        subst hq
        refine ⟨2 * i, ?_, (mem_edges_chain ht).mpr (.reading hc)⟩
        rw [Ascending.mem_toList, hs, mem_block]
        omega
    case isFalse => exact absurd hq Ascending.not_mem_empty

-- The places of a run depend on its progress only.
theorem mem_reached_chain (ht : t ≠ []) (word : List Char) :
    q ∈ NFA.reached (chain t).toNFA word ↔ q ∈ block t.length (progress t word) := by
  have hpos := List.length_pos_iff.mpr ht
  induction word using List.reverseRecOn generalizing q with
  | nil =>
      have hzero : progress t [] = 0 := if_pos List.nil_prefix
      rw [hzero]
      apply mem_closure_chain ht
      · rw [mem_block]
        omega
      · intro q hq
        exact (mem_block.mp hq).2.1
  | append_singleton word c ih =>
      have himage := image_chain ht (fun q => ih) c
      rw [NFA.reached_append_singleton, Automaton.step, progress_append_singleton]
      change q ∈ Automaton.closure _ ((chain t).moves.image _ (some c)).toList ↔ _
      rw [himage]
      split
      case isTrue hc =>
          obtain ⟨hi, -⟩ := List.getElem?_eq_some_iff.mp hc
          apply mem_closure_chain ht
          · rw [mem_block]
            omega
          · intro q hq
            rw [mem_block] at hq
            omega
      case isFalse =>
          have hnone : (∅ : Ascending State).toList = [] := rfl
          rw [hnone, Automaton.mem_closure, mem_block]
          apply iff_of_false
          · simp
          · omega

theorem toFinset_reached_chain (ht : t ≠ []) (word : List Char) :
    (NFA.reached (chain t).toNFA word).toList.toFinset = block t.length (progress t word) := by
  ext q
  rw [List.mem_toFinset, Ascending.mem_toList]
  exact mem_reached_chain ht word

-- Counting

theorem block_ne {n i j : Nat} (hn : 0 < n) (hij : i < j) (hj : j ≤ n + 1) :
    block n i ≠ block n j := by
  intro h
  by_cases hlast : j = n + 1
  · have hmem : (2 * i - 1 : Int) ∈ block n i ∨ (2 * i : Int) ∈ block n i := by
      rw [mem_block, mem_block]
      omega
    rw [h, mem_block, mem_block] at hmem
    omega
  · have hmem : (2 * j - 1 : Int) ∈ block n j := by
      rw [mem_block]
      omega
    rw [← h, mem_block] at hmem
    omega

theorem injOn_block {n : Nat} (hn : 0 < n) : Set.InjOn (block n) (Finset.range (n + 2)) := by
  intro i hi j hj h
  rw [Finset.mem_coe, Finset.mem_range] at hi hj
  rcases Nat.lt_trichotomy i j with hij | hij | hij
  · exact absurd h (block_ne hn hij (by omega))
  · exact hij
  · exact absurd h.symm (block_ne hn hij (by omega))

theorem mem_alphabet_chain (ht : t ≠ []) (hc : c ∈ t) : c ∈ Automaton.alphabet (chain t).toNFA := by
  obtain ⟨i, hi⟩ := List.mem_iff_getElem?.mp hc
  exact MoveRelation.mem_symbols.mpr ⟨_, (mem_edges_chain ht).mpr (.reading hi), rfl⟩

-- Every progress is made by some word.
theorem exists_progress_eq (ht : t ≠ []) {i : Nat} (hi : i < t.length + 2) :
    ∃ word, (∀ c ∈ word, c ∈ t) ∧ progress t word = i := by
  by_cases hle : i ≤ t.length
  · refine ⟨t.take i, fun c hc => List.mem_of_mem_take hc, ?_⟩
    rw [progress, if_pos (List.take_prefix i t), List.length_take, Nat.min_eq_left hle]
  · obtain ⟨c, hc⟩ := List.exists_mem_of_ne_nil t ht
    have hlong : ¬ t ++ [c] <+: t := by
      intro h
      have hlength := h.length_le
      simp at hlength
    refine ⟨t ++ [c], ?_, ?_⟩
    · intro d hd
      rcases List.mem_append.mp hd with hd | hd
      · exact hd
      · exact List.mem_singleton.mp hd ▸ hc
    · rw [progress, if_neg hlong]
      omega

theorem progress_lt (t word : List Char) : progress t word < t.length + 2 := by
  unfold progress
  split
  case isTrue h =>
      have hlength := h.length_le
      omega
  case isFalse => omega

theorem size_toDFA_chain (ht : t ≠ []) : (NFA.toDFA (chain t).toNFA).size = t.length + 2 := by
  have hpos := List.length_pos_iff.mpr ht
  have hsets : ∀ s : Ascending State, s ∈ (NFA.determinize (chain t).toNFA).subsets ↔
      s.toList.toFinset ∈ (Finset.range (t.length + 2)).image (block t.length) := by
    intro s
    rw [NFA.mem_subsets_iff_accessible, Finset.mem_image]
    constructor
    · intro h
      obtain ⟨word, _, rfl⟩ := h
      exact ⟨progress t word, Finset.mem_range.mpr (progress_lt t word),
        (toFinset_reached_chain ht word).symm⟩
    · intro h
      obtain ⟨i, hi, hblock⟩ := h
      obtain ⟨word, hword, hprogress⟩ := exists_progress_eq ht (Finset.mem_range.mp hi)
      refine ⟨word, fun c hc => mem_alphabet_chain ht (hword c hc), ?_⟩
      apply Ascending.toFinset_inj
      rw [toFinset_reached_chain ht, hprogress, hblock]
  rw [NFA.size_toDFA_eq_card hsets, Finset.card_image_of_injOn (injOn_block hpos), Finset.card_range]

-- Nothing can be read by the automaton of the empty word.
theorem size_toDFA_chain_nil : (NFA.toDFA (chain []).toNFA).size = 1 := by
  have halphabet : Automaton.alphabet (chain []).toNFA = ∅ := by decide +kernel
  apply NFA.size_toDFA_eq_one
  intro c
  rw [halphabet]
  exact Ascending.not_mem_empty

-- Sequences, choices and texts have the automata that their names promise. The words of a sequence
-- are cut into parts, those of a choice belong to one of its members, and a text stands for itself
-- alone, with two states a character and, once determinized, one a length and one besides.
theorem builders_denote :
    (∀ (rs : List Regex) (word : List Char),
      NFA.accepts (toNFA (Pattern.concatAll rs)) word = true ↔
        ∃ parts : List (List Char), parts.flatten = word ∧
          List.Forall₂ (fun r part => NFA.accepts (toNFA r) part = true) rs parts) ∧
    (∀ (r : Regex) (rs : List Regex), ∃ s : Regex, Pattern.alternateAll? (r :: rs) = .ok s ∧
      ∀ word : List Char, NFA.accepts (toNFA s) word = true ↔
        ∃ x ∈ r :: rs, NFA.accepts (toNFA x) word = true) ∧
    ∀ t : List Char,
      (∀ word : List Char, NFA.accepts (toNFA (Pattern.ofWord t)) word = true ↔ word = t) ∧
      (toNFA (Pattern.ofWord t)).size = max 2 (2 * t.length) ∧
      (NFA.toDFA (toNFA (Pattern.ofWord t))).size = if t = [] then 1 else t.length + 2 := by
  refine ⟨accepts_concatAll_iff, ?_, ?_⟩
  · intro r rs
    exact ⟨_, rfl, accepts_foldl_alternate_iff r rs⟩
  · intro t
    refine ⟨accepts_ofWord_iff t, ?_, ?_⟩
    · by_cases ht : t = []
      · subst ht
        rfl
      · have hpos := List.length_pos_iff.mpr ht
        have hsize : (toNFA (Pattern.ofWord t)).size = 2 * t.length := size_chain ht
        omega
    · by_cases ht : t = []
      · subst ht
        exact size_toDFA_chain_nil
      · rw [if_neg ht]
        exact size_toDFA_chain ht

end FiniteAutomata.Regex
