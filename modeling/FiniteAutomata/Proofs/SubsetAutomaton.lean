import FiniteAutomata.Proofs.Reachable
import Mathlib.Data.Finset.Powerset

/-!
What determinization yields. Words over the alphabet lead to the state that stands for the subset
they reach (`NFA.walk?_toDFA`), and other words lead nowhere. So the language stays
(`NFA.accepts_toDFA`), and the result is exactly the accessible part of the subset automaton
(`NFA.isSubsetAutomaton_determinize`). It has no more states than there are sets of states
(`NFA.size_toDFA_le`).
-/

namespace FiniteAutomata

theorem Ascending.toFinset_inj {s t : Ascending State}
    (h : s.toList.toFinset = t.toList.toFinset) : s = t := by
  apply Ascending.ext
  intro q
  have hq := Finset.ext_iff.mp h q
  rwa [List.mem_toFinset, List.mem_toFinset, mem_toList, mem_toList] at hq

namespace NFA

variable {a : NFA}

open Exploration (invariant_explored)

@[simp] theorem size_toDFA (a : NFA) : (toDFA a).size = (explored a).dfa.size :=
  Automaton.size_foldl_addFinal _ _

@[simp] theorem moves_toDFA (a : NFA) : (toDFA a).moves = (explored a).dfa.moves :=
  Automaton.moves_foldl_addFinal _ _

theorem isFinal_toDFA_iff {p : State} :
    (toDFA a).isFinal p = true ↔
      ∃ n : Nat, p = n ∧ n < (toDFA a).size ∧
        Automaton.hasFinal a ((explored a).subset n).toList = true := by
  have hnone : p ∉ (explored a).dfa.finals := by
    rw [(invariant_explored a).no_finals]
    exact Std.ExtTreeSet.not_mem_empty
  rw [← Automaton.mem_finals_iff_isFinal, size_toDFA]
  refine Automaton.mem_finals_foldl_addFinal.trans ?_
  rw [or_iff_left hnone, List.mem_filter, Automaton.states, List.mem_map]
  constructor
  · rintro ⟨⟨⟨n, hn, rfl⟩, hfinal⟩, -⟩
    exact ⟨n, rfl, List.mem_range.mp hn, hfinal⟩
  · rintro ⟨n, rfl, hn, hfinal⟩
    exact ⟨⟨⟨n, List.mem_range.mpr hn, rfl⟩, hfinal⟩,
      Int.natCast_nonneg n, Int.ofNat_lt.mpr hn⟩

-- What a state stands for, as a finite set.
def members (a : NFA) (p : Nat) : Finset State := ((explored a).subset p).toList.toFinset

-- Different states stand for different sets.
theorem injOn_members : Set.InjOn (members a) (Finset.range (toDFA a).size) := by
  have hinv := invariant_explored a
  intro p hp q hq heq
  rw [Finset.coe_range, Set.mem_Iio, size_toDFA] at hp hq
  have hsame : (explored a).subset p = (explored a).subset q := Ascending.toFinset_inj heq
  apply hinv.number_unique (hinv.getElem?_of_lt hp)
  rw [hsame]
  exact hinv.getElem?_of_lt hq

-- There are no more states than sets of states.
theorem size_toDFA_le (h : Automaton.WellFormed a) : (toDFA a).size ≤ 2 ^ a.size := by
  have hinv := invariant_explored a
  let all : Finset State := (Automaton.states a).toFinset
  have hall : all.card ≤ a.size := by
    have hlength : (Automaton.states a).length = a.size := by simp [Automaton.states]
    exact hlength ▸ List.toFinset_card_le (Automaton.states a)
  have hmembers : ∀ p ∈ Finset.range (toDFA a).size, members a p ∈ all.powerset := by
    intro p hp
    rw [Finset.mem_range, size_toDFA] at hp
    have haccessible := hinv.accessible p _ (hinv.getElem?_of_lt hp)
    apply Finset.mem_powerset.mpr
    intro q hq
    have hvalid := haccessible.valid h q (List.mem_toFinset.mp hq)
    exact List.mem_toFinset.mpr (Automaton.mem_states.mpr hvalid)
  calc (toDFA a).size
      = (Finset.range (toDFA a).size).card := (Finset.card_range _).symm
    _ ≤ all.powerset.card := Finset.card_le_card_of_injOn (members a) hmembers injOn_members
    _ = 2 ^ all.card := Finset.card_powerset all
    _ ≤ 2 ^ a.size := Nat.pow_le_pow_right (by omega) hall

-- Single moves

theorem move?_toDFA {p : Nat} {s : Ascending State} {c : Char}
    (hp : (explored a).subsets[p]? = some s) (hc : c ∈ Automaton.alphabet a) :
    ∃ q : Nat, DFA.move? (toDFA a) p c = some (q : Int) ∧
      (explored a).subsets[q]? = some (Automaton.step a s c) := by
  have hinv := invariant_explored a
  have hwired := And.intro (hinv.lt_of_getElem? hp) hc
  obtain ⟨q, hq⟩ := hinv.wired_target p c hwired
  have he := (hinv.mem_edges ⟨p, some c, q⟩).mpr ⟨p, c, q, hwired, hq, rfl⟩
  rw [Exploration.subset_of_getElem? hp] at hq
  refine ⟨q, (DFA.move?_eq_some_iff (wellFormed_toDFA a)).mpr ?_, hq⟩
  rw [moves_toDFA]
  exact he

theorem move?_toDFA_eq_none {p : State} {c : Char} (hc : c ∉ Automaton.alphabet a) :
    DFA.move? (toDFA a) p c = none := by
  refine DFA.move?_eq_none_iff.mpr fun q he => ?_
  rw [moves_toDFA, (invariant_explored a).mem_edges] at he
  obtain ⟨n, d, t, hwired, -, heq⟩ := he
  have hd : c = d := Option.some.inj (congrArg Edge.label heq)
  exact hc (hd ▸ hwired.2)

theorem step_eq_empty {s : Ascending State} {c : Char} (hc : c ∉ Automaton.alphabet a) :
    Automaton.step a s c = ∅ := by
  have himage : a.moves.image s.toList (some c) = ∅ := by
    refine Ascending.ext fun q => iff_of_false (fun hq => hc ?_) Ascending.not_mem_empty
    obtain ⟨p, -, he⟩ := MoveRelation.mem_image.mp hq
    exact MoveRelation.mem_symbols.mpr ⟨_, he, rfl⟩
  have hnone := Automaton.step_empty a c
  have hempty : a.moves.image (∅ : Ascending State).toList (some c) = ∅ := rfl
  rw [Automaton.step, hempty] at hnone
  rw [Automaton.step, himage, hnone]

-- Whole words

theorem walk?_toDFA {p : Nat} {s : Ascending State} {word : List Char}
    (hp : (explored a).subsets[p]? = some s) (hword : ∀ c ∈ word, c ∈ Automaton.alphabet a) :
    ∃ q : Nat, DFA.walk? (toDFA a) p word = some (q : Int) ∧
      (explored a).subsets[q]? = some (word.foldl (Automaton.step a) s) := by
  induction word generalizing p s with
  | nil => exact ⟨p, rfl, hp⟩
  | cons c word ih =>
      obtain ⟨hc, hword⟩ := List.forall_mem_cons.mp hword
      obtain ⟨q, hmove, hq⟩ := move?_toDFA hp hc
      obtain ⟨r, hwalk, hr⟩ := ih hq hword
      refine ⟨r, ?_, hr⟩
      rw [DFA.walk?, hmove]
      exact hwalk

theorem exists_number {s : Ascending State} (hs : Exploration.Accessible a s) :
    ∃ n : Nat, (explored a).subsets[n]? = some s := by
  obtain ⟨word, hword, rfl⟩ := hs
  obtain ⟨n, -, hn⟩ := walk?_toDFA (invariant_explored a).first hword
  exact ⟨n, hn⟩

theorem walk?_toDFA_eq_none {p : State} {word : List Char}
    (hword : ∃ c ∈ word, c ∉ Automaton.alphabet a) : DFA.walk? (toDFA a) p word = none := by
  induction word generalizing p with
  | nil => obtain ⟨c, hc, -⟩ := hword; exact absurd hc List.not_mem_nil
  | cons c word ih =>
      rw [DFA.walk?]
      split
      · rfl
      · rename_i q hmove
        obtain ⟨d, hd, hnot⟩ := hword
        rcases List.mem_cons.mp hd with rfl | hd
        · rw [move?_toDFA_eq_none hnot] at hmove
          exact nomatch hmove
        · exact ih ⟨d, hd, hnot⟩

theorem foldl_step_eq_empty {s : Ascending State} {word : List Char}
    (hword : ∃ c ∈ word, c ∉ Automaton.alphabet a) : word.foldl (Automaton.step a) s = ∅ := by
  induction word generalizing s with
  | nil => obtain ⟨c, hc, -⟩ := hword; exact absurd hc List.not_mem_nil
  | cons c word ih =>
      obtain ⟨d, hd, hnot⟩ := hword
      rcases List.mem_cons.mp hd with rfl | hd
      · rw [List.foldl_cons, step_eq_empty hnot, foldl_step_empty]
      · exact ih ⟨d, hd, hnot⟩

-- The subset that a word leads to tells whether it is accepted, and a word with a character that
-- labels no move leads to none.
theorem accepts_toDFA_eq_hasFinal (a : NFA) (word : List Char) :
    DFA.accepts (toDFA a) word = Automaton.hasFinal a (reached a word).toList := by
  rw [DFA.accepts]
  by_cases hword : ∀ c ∈ word, c ∈ Automaton.alphabet a
  · have hinv := invariant_explored a
    obtain ⟨q, hwalk, hq⟩ := walk?_toDFA hinv.first hword
    have hsubset : (explored a).subset q = reached a word := Exploration.subset_of_getElem? hq
    have hwalk : DFA.walk? (toDFA a) 0 word = some (q : Int) := hwalk
    rw [hwalk, Bool.eq_iff_iff, isFinal_toDFA_iff]
    constructor
    · rintro ⟨n, hn, -, hfinal⟩
      rw [← hsubset, Int.ofNat_inj.mp hn]
      exact hfinal
    · intro hfinal
      have hlt : q < (toDFA a).size := by
        rw [size_toDFA]
        exact hinv.lt_of_getElem? hq
      exact ⟨q, rfl, hlt, hsubset ▸ hfinal⟩
  · have hword : ∃ c ∈ word, c ∉ Automaton.alphabet a := by
      simpa only [not_forall, exists_prop] using hword
    rw [walk?_toDFA_eq_none hword, reached, foldl_step_eq_empty hword]
    rfl

-- Determinization keeps the language.
theorem accepts_toDFA (a : NFA) (word : List Char) :
    DFA.accepts (toDFA a) word = NFA.accepts a word := by
  rw [accepts_toDFA_eq_hasFinal, accepts_eq_hasFinal]

end NFA

-- The accessible part of the subset automaton, every state with the subset that it stands for.
structure Determinization.IsSubsetAutomaton (a : NFA) (d : Determinization) : Prop where
  -- the states and only they have subsets, each a different one
  length_subsets : d.subsets.length = d.dfa.size
  nodup_subsets : d.subsets.Nodup
  index?_iff : ∀ (s : Ascending State) (p : Nat), d.index? s = some p ↔ d.subsets[p]? = some s
  -- the subsets are those that words over the alphabet lead to
  mem_subsets : ∀ s : Ascending State, s ∈ d.subsets ↔
    ∃ word, (∀ c ∈ word, c ∈ Automaton.alphabet a) ∧
      ∀ q, q ∈ s ↔ q ∈ (Automaton.machine a).eval word
  first : d.subsets[0]? = some (Automaton.closure a [0])
  -- every state has one move under each character of the alphabet, and no other moves exist
  move? : ∀ p, p < d.dfa.size → ∀ c ∈ Automaton.alphabet a,
    ∃ q : Nat, DFA.move? d.dfa p c = some (q : Int) ∧
      d.subsets[q]? =
        some (Automaton.closure a (a.moves.image (d.subset p).toList (some c)).toList)
  mem_edges : ∀ e ∈ d.dfa.moves.edges, ∃ (p : Nat) (c : Char), p < d.dfa.size ∧
    c ∈ Automaton.alphabet a ∧ e.source = p ∧ e.label = some c ∧
      DFA.move? d.dfa p c = some e.target
  isFinal_iff : ∀ p, d.dfa.isFinal p = true ↔
    ∃ n : Nat, p = n ∧ n < d.dfa.size ∧ ∃ q ∈ d.subset n, a.isFinal q = true
  -- words over the alphabet lead to the state of the subset they reach, other words nowhere
  walk?_of_mem : ∀ word, (∀ c ∈ word, c ∈ Automaton.alphabet a) →
    ∃ p : Nat, p < d.dfa.size ∧ DFA.walk? d.dfa 0 word = some (p : Int) ∧
      ∀ q, q ∈ d.subset p ↔ q ∈ (Automaton.machine a).eval word
  walk?_of_not_mem : ∀ word, (∃ c ∈ word, c ∉ Automaton.alphabet a) →
    DFA.walk? d.dfa 0 word = none

namespace NFA

variable {a : NFA}

open Exploration (invariant_explored)

theorem getElem?_subsets_determinize (p : Nat) :
    (determinize a).subsets[p]? = (explored a).subsets[p]? := Array.getElem?_toList

theorem subset_determinize (p : Nat) : (determinize a).subset p = (explored a).subset p := by
  rw [Determinization.subset, List.getD_eq_getElem?_getD, getElem?_subsets_determinize]
  rfl

theorem mem_subsets_iff_accessible {s : Ascending State} :
    s ∈ (determinize a).subsets ↔ Exploration.Accessible a s := by
  constructor
  · intro hs
    obtain ⟨p, hp⟩ := List.mem_iff_getElem?.mp hs
    rw [getElem?_subsets_determinize] at hp
    exact (invariant_explored a).accessible p s hp
  · intro hs
    obtain ⟨p, hp⟩ := exists_number hs
    exact List.mem_iff_getElem?.mpr ⟨p, (getElem?_subsets_determinize p).trans hp⟩

theorem mem_subsets_determinize (h : Automaton.WellFormed a) {s : Ascending State} :
    s ∈ (determinize a).subsets ↔
      ∃ word, (∀ c ∈ word, c ∈ Automaton.alphabet a) ∧
        ∀ q, q ∈ s ↔ q ∈ (Automaton.machine a).eval word := by
  rw [mem_subsets_iff_accessible]
  refine exists_congr fun word => and_congr_right fun _ => ?_
  constructor
  · rintro rfl q
    exact mem_reached h
  · intro hs
    exact Ascending.ext fun q => (mem_reached h).trans (hs q).symm

-- The states are as many as the sets that they stand for.
theorem size_toDFA_eq_card {sets : Finset (Finset State)}
    (h : ∀ s : Ascending State, s ∈ (determinize a).subsets ↔ s.toList.toFinset ∈ sets) :
    (toDFA a).size = sets.card := by
  have hinv := invariant_explored a
  have himage : (Finset.range (toDFA a).size).image (members a) = sets := by
    ext set
    rw [Finset.mem_image]
    constructor
    · rintro ⟨p, hp, rfl⟩
      rw [Finset.mem_range, size_toDFA] at hp
      apply (h _).mp
      exact mem_subsets_iff_accessible.mpr (hinv.accessible p _ (hinv.getElem?_of_lt hp))
    · intro hset
      have hlisted : (Ascending.ofList set.toList).toList.toFinset = set := by
        ext q
        simp
      have hmem := (h (.ofList set.toList)).mpr (hlisted.symm ▸ hset)
      obtain ⟨p, hp⟩ := List.mem_iff_getElem?.mp hmem
      rw [getElem?_subsets_determinize] at hp
      refine ⟨p, ?_, ?_⟩
      · rw [Finset.mem_range, size_toDFA]
        exact hinv.lt_of_getElem? hp
      · rw [members, Exploration.subset_of_getElem? hp, hlisted]
  rw [← himage, Finset.card_image_of_injOn injOn_members, Finset.card_range]

-- Where nothing can be read, only the first set is met.
theorem size_toDFA_eq_one (h : ∀ c, c ∉ Automaton.alphabet a) : (toDFA a).size = 1 := by
  have hsets : ∀ s : Ascending State, s ∈ (determinize a).subsets ↔
      s.toList.toFinset ∈ ({(start a).toList.toFinset} : Finset (Finset State)) := by
    intro s
    rw [mem_subsets_iff_accessible, Finset.mem_singleton]
    constructor
    · intro hs
      obtain ⟨word, hword, rfl⟩ := hs
      cases word with
      | nil => rfl
      | cons c word => exact absurd (hword c List.mem_cons_self) (h c)
    · intro hs
      exact Ascending.toFinset_inj hs ▸ Exploration.accessible_start a
  rw [size_toDFA_eq_card hsets, Finset.card_singleton]

-- Every accessible subset is numbered once, and its state moves as the subset does.
theorem isSubsetAutomaton_determinize (a : NFA) (h : Reachable a) :
    (determinize a).IsSubsetAutomaton a := by
  have hinv := invariant_explored a
  have hsize : (determinize a).dfa.size = (explored a).dfa.size := size_toDFA a
  exact {
    length_subsets := by
      rw [hsize, ← hinv.size_subsets]
      exact Array.length_toList
    nodup_subsets := by
      refine List.nodup_iff_getElem?_ne_getElem?.mpr fun p q hpq hq heq => ?_
      rw [getElem?_subsets_determinize, getElem?_subsets_determinize] at heq
      have hlt : q < (explored a).subsets.size := by
        rw [← Array.length_toList]
        exact hq
      rw [Array.getElem?_eq_getElem hlt] at heq
      exact absurd (hinv.number_unique heq (Array.getElem?_eq_getElem hlt)) (Nat.ne_of_lt hpq)
    index?_iff := fun s p => by
      rw [getElem?_subsets_determinize]
      exact hinv.numbers_iff s p
    mem_subsets := fun s => mem_subsets_determinize h.wellFormed
    first := by
      rw [getElem?_subsets_determinize]
      exact hinv.first
    move? := fun p hp c hc => by
      obtain ⟨q, hmove, hq⟩ := move?_toDFA (hinv.getElem?_of_lt (hsize ▸ hp)) hc
      refine ⟨q, hmove, ?_⟩
      rw [getElem?_subsets_determinize, subset_determinize]
      exact hq
    mem_edges := fun e he => by
      have hmoves : (determinize a).dfa.moves = (explored a).dfa.moves := moves_toDFA a
      have hexplored := he
      rw [hmoves] at hexplored
      obtain ⟨p, c, q, ⟨hp, hc⟩, -, rfl⟩ := (hinv.mem_edges e).mp hexplored
      exact ⟨p, c, hsize ▸ hp, hc, rfl, rfl, (DFA.move?_eq_some_iff (wellFormed_toDFA a)).mpr he⟩
    isFinal_iff := fun p => by
      refine isFinal_toDFA_iff.trans ?_
      simp only [subset_determinize, Automaton.hasFinal_iff]
      rfl
    walk?_of_mem := fun word hword => by
      obtain ⟨p, hwalk, hp⟩ := walk?_toDFA hinv.first hword
      refine ⟨p, hsize ▸ hinv.lt_of_getElem? hp, hwalk, fun q => ?_⟩
      rw [subset_determinize, Exploration.subset_of_getElem? hp]
      exact mem_reached h.wellFormed
    walk?_of_not_mem := fun word hword => walk?_toDFA_eq_none hword }

-- The silent moves of nested stars run in circles.
theorem isSubsetAutomaton_determinize_star :
    (determinize (Regex.toNFA (.star (.star (.literal 'a'))))).IsSubsetAutomaton
      (Regex.toNFA (.star (.star (.literal 'a')))) :=
  isSubsetAutomaton_determinize _
    ⟨[.make (.pattern (.star (.star (.literal 'a')))) "a"], "a", rfl⟩

end NFA

end FiniteAutomata
