import FiniteAutomata.Proofs.SubsetAutomaton

/-!
The states that wait to be expanded. An exploration goes from stage to stage
(`Exploration.stage?`), and each time the latest pending state is taken (`Exploration.taken?`). At
every stage those states are pending that were not taken (`Exploration.expanded_iff_of_stage?`), and
together with the stages passed they count all states (`Exploration.length_pending_of_stage?`). Hence
each state is taken once, and the exploration ends when as many stages are passed as there are
states (`NFA.expandsOnce`).
-/

namespace FiniteAutomata

namespace Exploration

variable {a : NFA} {x y : Exploration} {s : Ascending State} {n p : Nat} {rest : List Nat} {c : Char}

-- One expansion

theorem AtHead.extends_expand? (h : AtHead a x) (hpending : x.pending = p :: rest)
    (hy : Exploration.expand? a (Automaton.alphabet a).toList x = some y) :
    Extends { x with pending := rest } y := by
  obtain ⟨q, others, hother, rfl⟩ := expand?_eq_some_iff.mp hy
  rw [hpending] at hother
  cases hother
  have hp := h.getElem?_of_lt (h.lt_of_pending hpending)
  exact ((h.taken hpending).foldl_wire hp _ fun c hc => hc).2

-- A state leaves the list and the new ones come to it.
theorem AtHead.length_pending_expand? (h : AtHead a x) (hpending : x.pending = p :: rest)
    (hy : Exploration.expand? a (Automaton.alphabet a).toList x = some y) :
    y.pending.length + x.dfa.size = rest.length + y.dfa.size := by
  have hext := h.extends_expand? hpending hy
  have hsize : x.dfa.size ≤ y.dfa.size := hext.size_le
  have hnodup : (rest ++ List.range' x.dfa.size (y.dfa.size - x.dfa.size)).Nodup := by
    refine List.nodup_append'.mpr ⟨(h.taken hpending).nodup_pending, List.nodup_range', ?_⟩
    intro q hq hnew
    have hold : q < x.dfa.size := (h.taken hpending).pending_lt q hq
    have hge := (List.mem_range'_1.mp hnew).1
    omega
  have hperm : y.pending.Perm (rest ++ List.range' x.dfa.size (y.dfa.size - x.dfa.size)) := by
    refine (List.perm_ext_iff_of_nodup (h.expand? hy).nodup_pending hnodup).mpr fun q => ?_
    rw [hext.mem_pending, List.mem_append, List.mem_range'_1]
    refine or_congr_right ?_
    simp only
    omega
  have hlength := hperm.length_eq
  rw [List.length_append, List.length_range'] at hlength
  omega

-- Moves between two expansions

theorem AtHead.exists_move? (h : AtHead a x) (hp : p < x.dfa.size) (hdone : p ∉ x.pending)
    (hc : c ∈ Automaton.alphabet a) :
    ∃ q : Nat, q < x.dfa.size ∧ DFA.move? x.dfa p c = some (q : Int) := by
  have hwired := And.intro hp (And.intro hdone hc)
  obtain ⟨q, hq⟩ := h.wired_target p c hwired
  refine ⟨q, h.lt_of_getElem? hq, (DFA.move?_eq_some_iff h.wellFormed).mpr ?_⟩
  exact (h.mem_edges _).mpr ⟨p, c, q, hwired, hq, rfl⟩

theorem AtHead.move?_eq_none (h : AtHead a x) (hp : ¬ (p < x.dfa.size ∧ p ∉ x.pending)) :
    DFA.move? x.dfa p c = none := by
  refine DFA.move?_eq_none_iff.mpr fun q he => ?_
  obtain ⟨r, d, t, ⟨hr, hdone, -⟩, -, heq⟩ := (h.mem_edges _).mp he
  have hpr : p = r := Int.ofNat_inj.mp (congrArg Edge.source heq)
  subst hpr
  exact hp ⟨hr, hdone⟩

-- The move of `p` under `c` is not refused.
def Grants (a : NFA) (x : Exploration) (p : Nat) (s : Ascending State) (c : Char) : Prop :=
  let (y, q) := x.number (Automaton.step a s c)
  ∃ d, y.dfa.setMove? p c q = some d

-- The characters before `c` have their moves already.
theorem AtHead.grants (h : AtHead a x) (hpending : x.pending = p :: rest) {front back : List Char}
    (halphabet : (Automaton.alphabet a).toList = front ++ c :: back) :
    Grants a (front.foldl (Exploration.wire a p (x.subset p)) { x with pending := rest }) p
      (x.subset p) c := by
  have hlt := h.lt_of_pending hpending
  have hp := h.getElem?_of_lt hlt
  have hmem : ∀ d ∈ front ++ c :: back, d ∈ Automaton.alphabet a := fun d hd =>
    Ascending.mem_toList.mp (halphabet ▸ hd)
  obtain ⟨hfront, hback⟩ := List.forall_mem_append.mp hmem
  obtain ⟨hc, -⟩ := List.forall_mem_cons.mp hback
  obtain ⟨hinv, hext⟩ := (h.taken hpending).foldl_wire hp front hfront
  have hstep := (h.accessible p _ hp).step hc
  exact ⟨_, hinv.setMove?_number (Nat.lt_of_lt_of_le hlt hext.size_le) hstep⟩

-- Only lists of sets are numbered.
def Listed (x : Exploration) : Prop := ∀ l ∈ x.numbers, l.Pairwise (compare · · = .lt)

theorem Listed.number (h : Listed x) (s : Ascending State) : Listed (x.number s).1 := by
  cases hs : x.numbers[s.toList]? with
  | some q =>
      rw [number_of_some hs]
      exact h
  | none =>
      rw [number_of_none hs]
      intro l hl
      rcases Std.TreeMap.mem_insert.mp hl with heq | hl
      · exact Std.compare_eq_iff_eq.mp heq ▸ s.ascending
      · exact h l hl

theorem Listed.expand? (h : Listed x) {cs : List Char} (hy : Exploration.expand? a cs x = some y) :
    Listed y := by
  obtain ⟨p, rest, -, rfl⟩ := expand?_eq_some_iff.mp hy
  exact List.foldlRecOn cs _ h fun z hz c _ => hz.number (Automaton.step a (x.subset p) c)

theorem Listed.getElem?_numbers_iff (h : Listed x) (hx : AtHead a x) {l : List State} :
    x.numbers[l]? = some p ↔ ∃ s : Ascending State, x.subsets[p]? = some s ∧ s.toList = l := by
  constructor
  · intro hl
    have hmem : l ∈ x.numbers := Std.TreeMap.mem_iff_isSome_getElem?.mpr (hl ▸ rfl)
    exact ⟨⟨l, h l hmem⟩, (hx.numbers_iff ⟨l, h l hmem⟩ p).mp hl, rfl⟩
  · rintro ⟨s, hs, rfl⟩
    exact (hx.numbers_iff s p).mpr hs

-- Stages

-- The exploration after `n` expansions, if it goes on for as many.
def stage? (a : NFA) : Nat → Option Exploration
  | 0 => some (begin a)
  | n + 1 => (stage? a n).bind (Exploration.expand? a (Automaton.alphabet a).toList)

-- The state that is taken at the stage.
def taken? (a : NFA) (n : Nat) : Option Nat := (stage? a n).bind fun x => x.pending.head?

-- One of the first `n` expansions is that of `p`.
def Expanded (a : NFA) (n p : Nat) : Prop := ∃ m < n, taken? a m = some p

theorem stage?_succ_eq_some_iff : stage? a (n + 1) = some y ↔
    ∃ x, stage? a n = some x ∧ expand? a (Automaton.alphabet a).toList x = some y :=
  Option.bind_eq_some_iff

theorem taken?_eq_some_iff : taken? a n = some p ↔
    ∃ x rest, stage? a n = some x ∧ x.pending = p :: rest := by
  simp only [taken?, Option.bind_eq_some_iff, List.head?_eq_some_iff, exists_and_left]

-- There is a next stage just when there is a state to be taken.
theorem isSome_stage?_succ : (stage? a (n + 1)).isSome = (taken? a n).isSome := by
  cases hx : stage? a n with
  | none =>
      simp only [stage?, taken?, hx, Option.bind_none]
      rfl
  | some x =>
      simp only [stage?, taken?, hx, Option.bind_some, Exploration.expand?]
      cases x.pending <;> rfl

theorem atHead_of_stage? (hx : stage? a n = some x) : AtHead a x ∧ Listed x := by
  induction n generalizing x with
  | zero =>
      cases hx
      refine ⟨atHead_begin a, fun l hl => ?_⟩
      rcases Std.TreeMap.mem_insert.mp hl with heq | hl
      · exact Std.compare_eq_iff_eq.mp heq ▸ (NFA.start a).ascending
      · exact absurd hl Std.TreeMap.not_mem_emptyc
  | succ n ih =>
      obtain ⟨w, hw, hx⟩ := stage?_succ_eq_some_iff.mp hx
      exact ⟨(ih hw).1.expand? hx, (ih hw).2.expand? hx⟩

theorem expanded_succ_iff {q : Nat} (hp : taken? a n = some p) :
    Expanded a (n + 1) q ↔ Expanded a n q ∨ q = p := by
  constructor
  · rintro ⟨m, hm, hq⟩
    rcases Nat.lt_succ_iff_lt_or_eq.mp hm with hm | rfl
    · exact .inl ⟨m, hm, hq⟩
    · rw [hp] at hq
      exact .inr (Option.some.inj hq).symm
  · rintro (⟨m, hm, hq⟩ | rfl)
    · exact ⟨m, Nat.lt_succ_of_lt hm, hq⟩
    · exact ⟨n, Nat.lt_succ_self n, hp⟩

-- The states that are not pending are those that were expanded.
theorem expanded_iff_of_stage? (hx : stage? a n = some x) {q : Nat} :
    Expanded a n q ↔ q < x.dfa.size ∧ q ∉ x.pending := by
  induction n generalizing x with
  | zero =>
      cases hx
      refine iff_of_false ?_ ?_
      · rintro ⟨m, hm, -⟩
        exact Nat.not_lt_zero m hm
      · rintro ⟨hq, hpending⟩
        exact hpending (List.mem_singleton.mpr (Nat.lt_one_iff.mp hq))
  | succ n ih =>
      obtain ⟨w, hw, hx⟩ := stage?_succ_eq_some_iff.mp hx
      obtain ⟨p, rest, hpending, -⟩ := expand?_eq_some_iff.mp hx
      have hhead := (atHead_of_stage? hw).1
      have htaken : taken? a n = some p := taken?_eq_some_iff.mpr ⟨w, rest, hw, hpending⟩
      rw [expanded_succ_iff htaken, ih hw,
        hhead.done_iff hpending (hhead.extends_expand? hpending hx)]

-- Every state is either pending or was taken at one of the stages passed.
theorem length_pending_of_stage? (hx : stage? a n = some x) :
    n + x.pending.length = x.dfa.size := by
  induction n generalizing x with
  | zero =>
      cases hx
      rfl
  | succ n ih =>
      obtain ⟨w, hw, hx⟩ := stage?_succ_eq_some_iff.mp hx
      obtain ⟨p, rest, hpending, -⟩ := expand?_eq_some_iff.mp hx
      have hbefore := ih hw
      have hlength := (atHead_of_stage? hw).1.length_pending_expand? hpending hx
      rw [hpending, List.length_cons] at hbefore
      omega

-- The end

theorem exists_stage?_run (hx : stage? a n = some x) :
    ∃ m, stage? a m = some (run a (Automaton.alphabet a).toList x) := by
  fun_induction Exploration.run a (Automaton.alphabet a).toList x generalizing n with
  | case1 x hnone => exact ⟨n, hx⟩
  | case2 x y hy ih => exact ih (stage?_succ_eq_some_iff.mpr ⟨x, hx, hy⟩)

theorem pending_explored (a : NFA) : (NFA.explored a).pending = [] := (atHead_begin a).run.2

theorem stage?_size (a : NFA) : stage? a (NFA.explored a).dfa.size = some (NFA.explored a) := by
  have hbegin : stage? a 0 = some (begin a) := rfl
  obtain ⟨m, hm⟩ := exists_stage?_run hbegin
  have hm : stage? a m = some (NFA.explored a) := hm
  have hsize := length_pending_of_stage? hm
  rw [pending_explored, List.length_nil, Nat.add_zero] at hsize
  exact hsize ▸ hm

theorem isSome_stage?_iff : (stage? a n).isSome = true ↔ n ≤ (NFA.explored a).dfa.size := by
  have hback : ∀ m k, (stage? a (m + k)).isSome = true → (stage? a m).isSome = true := by
    intro m k
    induction k with
    | zero => exact id
    | succ k ih =>
        intro hsome
        obtain ⟨y, hy⟩ := Option.isSome_iff_exists.mp hsome
        obtain ⟨x, hx, -⟩ := stage?_succ_eq_some_iff.mp hy
        exact ih (hx ▸ rfl)
  constructor
  · intro hsome
    by_contra hlt
    obtain ⟨k, rfl⟩ := Nat.exists_eq_add_of_lt (Nat.lt_of_not_le hlt)
    rw [Nat.add_right_comm] at hsome
    have hnext := hback _ k hsome
    rw [isSome_stage?_succ, taken?, stage?_size, Option.bind_some, pending_explored] at hnext
    exact nomatch hnext
  · intro hle
    obtain ⟨k, hk⟩ := Nat.exists_eq_add_of_le hle
    apply hback n k
    rw [← hk, stage?_size]
    rfl

theorem isSome_taken?_iff : (taken? a n).isSome = true ↔ n < (NFA.explored a).dfa.size := by
  rw [← isSome_stage?_succ, isSome_stage?_iff]
  exact Nat.succ_le_iff

-- What is taken was pending, so it was not taken before.
theorem taken?_inj {m : Nat} (hm : taken? a m = some p) (hn : taken? a n = some p) : m = n := by
  have hnot : ∀ {i j : Nat}, taken? a i = some p → taken? a j = some p → ¬ i < j := by
    intro i j hi hj hlt
    obtain ⟨x, rest, hx, hpending⟩ := taken?_eq_some_iff.mp hj
    have hp : p ∈ x.pending := hpending ▸ List.mem_cons_self
    exact ((expanded_iff_of_stage? hx).mp ⟨i, hlt, hi⟩).2 hp
  exact Nat.le_antisymm (Nat.le_of_not_lt (hnot hn hm)) (Nat.le_of_not_lt (hnot hm hn))

theorem exists_taken?_iff : (∃ n, taken? a n = some p) ↔ p < (NFA.explored a).dfa.size := by
  have hexpanded : Expanded a (NFA.explored a).dfa.size p ↔ p < (NFA.explored a).dfa.size := by
    rw [expanded_iff_of_stage? (stage?_size a), pending_explored]
    exact and_iff_left List.not_mem_nil
  rw [← hexpanded]
  constructor
  · rintro ⟨n, hn⟩
    exact ⟨n, isSome_taken?_iff.mp (hn ▸ rfl), hn⟩
  · rintro ⟨n, -, hn⟩
    exact ⟨n, hn⟩

-- What holds of an exploration after `n` expansions.
structure Disciplined (a : NFA) (n : Nat) (x : Exploration) : Prop where
  -- the two numberings are inverse to each other, and just the states have subsets
  numbers_iff : ∀ (l : List State) (p : Nat), x.numbers[l]? = some p ↔
    ∃ s : Ascending State, x.subsets[p]? = some s ∧ s.toList = l
  numbered_iff : ∀ p : Nat, (∃ s, x.subsets[p]? = some s) ↔ p < x.dfa.size
  nodup_pending : x.pending.Nodup
  mem_pending : ∀ p, p ∈ x.pending ↔ p < x.dfa.size ∧ ¬ Expanded a n p
  expanded_lt : ∀ p, Expanded a n p → p < x.dfa.size
  move?_of_expanded : ∀ p, Expanded a n p → ∀ c ∈ Automaton.alphabet a,
    ∃ q : Nat, q < x.dfa.size ∧ DFA.move? x.dfa p c = some (q : Int)
  move?_of_not_expanded : ∀ p : Nat, ¬ Expanded a n p → ∀ c, DFA.move? x.dfa p c = none
  -- the expansion that follows sets all its moves
  grants : ∀ p rest, x.pending = p :: rest → ∀ front c back,
    (Automaton.alphabet a).toList = front ++ c :: back →
      Grants a (front.foldl (wire a p (x.subset p)) { x with pending := rest }) p (x.subset p) c

theorem disciplined_of_stage? (hx : stage? a n = some x) : Disciplined a n x := by
  obtain ⟨hhead, hlisted⟩ := atHead_of_stage? hx
  have hexpanded : ∀ p, Expanded a n p ↔ p < x.dfa.size ∧ p ∉ x.pending :=
    fun p => expanded_iff_of_stage? hx
  exact {
    numbers_iff := fun l p => hlisted.getElem?_numbers_iff hhead
    numbered_iff := fun p =>
      ⟨fun ⟨_, hs⟩ => hhead.lt_of_getElem? hs, fun hp => ⟨_, hhead.getElem?_of_lt hp⟩⟩
    nodup_pending := hhead.nodup_pending
    mem_pending := fun p => by
      have hlt := hhead.pending_lt p
      rw [hexpanded, not_and, not_not]
      exact ⟨fun hp => ⟨hlt hp, fun _ => hp⟩, fun hp => hp.2 hp.1⟩
    expanded_lt := fun p hp => ((hexpanded p).mp hp).1
    move?_of_expanded := fun p hp c hc => by
      obtain ⟨hlt, hpending⟩ := (hexpanded p).mp hp
      exact hhead.exists_move? hlt hpending hc
    move?_of_not_expanded := fun p hp c => hhead.move?_eq_none fun h => hp ((hexpanded p).mpr h)
    grants := fun p rest hpending front c back halphabet => hhead.grants hpending halphabet }

end Exploration

namespace NFA

open Exploration (stage? taken? Disciplined)

-- The exploration passes as many stages as there are states in the end, keeps its books at each of
-- them, and takes each state once.
structure ExpandsOnce (a : NFA) : Prop where
  disciplined : ∀ n x, stage? a n = some x → Disciplined a n x
  stage?_iff : ∀ n, (∃ x, stage? a n = some x) ↔ n ≤ (toDFA a).size
  taken?_iff : ∀ n, (∃ p, taken? a n = some p) ↔ n < (toDFA a).size
  taken_once : ∀ p, p < (toDFA a).size → ∃! n, taken? a n = some p
  taken_lt : ∀ n p, taken? a n = some p → p < (toDFA a).size
  last : stage? a (toDFA a).size = some (explored a) ∧ (explored a).pending = []
  size_le : (toDFA a).size ≤ 2 ^ a.size

theorem expandsOnce {a : NFA} (h : Reachable a) : ExpandsOnce a where
  disciplined _ _ hx := Exploration.disciplined_of_stage? hx
  stage?_iff n := by
    rw [← Option.isSome_iff_exists, Exploration.isSome_stage?_iff, size_toDFA]
  taken?_iff n := by
    rw [← Option.isSome_iff_exists, Exploration.isSome_taken?_iff, size_toDFA]
  taken_once p hp := by
    rw [size_toDFA] at hp
    obtain ⟨n, hn⟩ := Exploration.exists_taken?_iff.mpr hp
    exact ⟨n, hn, fun m hm => Exploration.taken?_inj hm hn⟩
  taken_lt n p hn := by
    rw [size_toDFA]
    exact Exploration.exists_taken?_iff.mp ⟨n, hn⟩
  last := by
    rw [size_toDFA]
    exact ⟨Exploration.stage?_size a, Exploration.pending_explored a⟩
  size_le := size_toDFA_le h.wellFormed

-- A word leads on, and every other way into the empty set, which loops.
theorem expandsOnce_word :
    ExpandsOnce (Regex.toNFA (.concat (.literal 'a') (.literal 'b'))) :=
  expandsOnce ⟨[.make (.pattern (.concat (.literal 'a') (.literal 'b'))) "ab"], "ab", rfl⟩

end NFA

end FiniteAutomata
