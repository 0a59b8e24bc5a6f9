import FiniteAutomata.Determinize
import FiniteAutomata.Proofs.Machine

/-!
What the exploration of subsets keeps up. One invariant ties the automaton under construction to
the numbering of the subsets (`Exploration.Invariant`). Numbering a subset and wiring a move keep
it, so that it holds whenever a pending state is taken (`Exploration.AtHead`) and at the end, where
all states are expanded (`Exploration.invariant_explored`).
-/

namespace FiniteAutomata

namespace DFA

theorem move?_eq_some_iff {a : DFA} (h : Automaton.WellFormed a) {p q : State} {c : Char} :
    move? a p c = some q ↔ ⟨p, some c, q⟩ ∈ a.moves.edges := by
  rw [← MoveRelation.mem_targets, ← Ascending.mem_toList, move?]
  constructor
  · exact List.mem_of_mem_head?
  · intro hq
    cases htargets : (a.moves.targets p (some c)).toList with
    | nil => rw [htargets] at hq; exact absurd hq List.not_mem_nil
    | cons r rest =>
        have hr : r ∈ a.moves.targets p (some c) :=
          Ascending.mem_toList.mp (htargets ▸ List.mem_cons_self)
        have huniq := h.target_unique rfl _ (MoveRelation.mem_targets.mp hr) _
          (MoveRelation.mem_targets.mp (Ascending.mem_toList.mp hq)) rfl
        exact congrArg (fun e => some e.target) huniq

theorem move?_eq_none_iff {a : DFA} {p : State} {c : Char} :
    move? a p c = none ↔ ∀ q, ⟨p, some c, q⟩ ∉ a.moves.edges := by
  rw [move?, List.head?_eq_none_iff, List.eq_nil_iff_forall_not_mem]
  exact forall_congr' fun q => not_congr MoveRelation.mem_targets

end DFA

namespace Exploration

variable {a : NFA} {x y z : Exploration} {s : Ascending State} {p : Nat} {c : Char}

-- Some word over the alphabet leads to the subset.
def Accessible (a : NFA) (s : Ascending State) : Prop :=
  ∃ word, (∀ c ∈ word, c ∈ Automaton.alphabet a) ∧ NFA.reached a word = s

theorem accessible_start (a : NFA) : Accessible a (NFA.start a) :=
  ⟨[], fun _ hc => absurd hc List.not_mem_nil, rfl⟩

theorem Accessible.step (h : Accessible a s) (hc : c ∈ Automaton.alphabet a) :
    Accessible a (Automaton.step a s c) := by
  obtain ⟨word, hword, rfl⟩ := h
  refine ⟨word ++ [c], fun d hd => ?_, NFA.reached_append_singleton a word c⟩
  rcases List.mem_append.mp hd with hd | hd
  · exact hword d hd
  · exact List.mem_singleton.mp hd ▸ hc

theorem Accessible.valid (hs : Accessible a s) (ha : Automaton.WellFormed a) :
    ∀ p ∈ s, Automaton.Valid a p := by
  obtain ⟨word, -, rfl⟩ := hs
  intro p hp
  cases List.eq_nil_or_concat word with
  | inl hnil =>
      rw [hnil] at hp
      exact ha.valid_of_mem_closure hp
  | inr hconcat =>
      obtain ⟨front, c, rfl⟩ := hconcat
      rw [List.concat_eq_append, NFA.reached_append_singleton] at hp
      exact ha.valid_of_mem_closure hp

-- The two numberings are inverse to each other, all numbered subsets are accessible, and the moves
-- are those of the `wired` states and characters, each to the number of the subset it leads to.
structure Invariant (a : NFA) (wired : Nat → Char → Prop) (x : Exploration) : Prop where
  wellFormed : Automaton.WellFormed x.dfa
  no_finals : x.dfa.finals = ∅
  size_subsets : x.subsets.size = x.dfa.size
  first : x.subsets[0]? = some (NFA.start a)
  numbers_iff : ∀ (s : Ascending State) (p : Nat), x.numbers[s.toList]? = some p ↔ x.subsets[p]? = some s
  accessible : ∀ (p : Nat) s, x.subsets[p]? = some s → Accessible a s
  nodup_pending : x.pending.Nodup
  pending_lt : ∀ p ∈ x.pending, p < x.dfa.size
  wired_lt : ∀ p c, wired p c → p < x.dfa.size
  wired_target : ∀ p c, wired p c → ∃ q : Nat, x.subsets[q]? = some (Automaton.step a (x.subset p) c)
  mem_edges : ∀ e, e ∈ x.dfa.moves.edges ↔ ∃ (p : Nat) (c : Char) (q : Nat), wired p c ∧
    x.subsets[q]? = some (Automaton.step a (x.subset p) c) ∧ e = ⟨p, some c, q⟩

variable {wired : Nat → Char → Prop}

theorem subset_of_getElem? (hp : x.subsets[p]? = some s) : x.subset p = s := by
  rw [subset, hp]
  rfl

theorem Invariant.getElem?_of_lt (h : Invariant a wired x) (hp : p < x.dfa.size) :
    x.subsets[p]? = some (x.subset p) := by
  rw [← h.size_subsets] at hp
  rw [subset, Array.getElem?_eq_getElem hp]
  rfl

theorem Invariant.lt_of_getElem? (h : Invariant a wired x) (hp : x.subsets[p]? = some s) :
    p < x.dfa.size := by
  rw [← h.size_subsets]
  exact (Array.getElem?_eq_some_iff.mp hp).1

-- No subset has two numbers.
theorem Invariant.number_unique (h : Invariant a wired x) {q : Nat}
    (hp : x.subsets[p]? = some s) (hq : x.subsets[q]? = some s) : p = q := by
  have hnumber := (h.numbers_iff s p).mpr hp
  rw [(h.numbers_iff s q).mpr hq] at hnumber
  exact (Option.some.inj hnumber).symm

-- Later states of an exploration

-- Numbers stay, and the new ones are pending.
structure Extends (x y : Exploration) : Prop where
  size_le : x.dfa.size ≤ y.dfa.size
  subsets : ∀ (p : Nat) s, x.subsets[p]? = some s → y.subsets[p]? = some s
  mem_pending : ∀ p, p ∈ y.pending ↔ p ∈ x.pending ∨ x.dfa.size ≤ p ∧ p < y.dfa.size

theorem Extends.refl (x : Exploration) : Extends x x where
  size_le := Nat.le_refl _
  subsets _ _ h := h
  mem_pending p := by
    constructor
    · exact Or.inl
    · rintro (hp | ⟨hle, hlt⟩)
      · exact hp
      · exact absurd hlt (Nat.not_lt.mpr hle)

theorem Extends.trans (hxy : Extends x y) (hyz : Extends y z) : Extends x z where
  size_le := Nat.le_trans hxy.size_le hyz.size_le
  subsets p s h := hyz.subsets p s (hxy.subsets p s h)
  mem_pending p := by
    have hx := hxy.size_le
    have hy := hyz.size_le
    rw [hyz.mem_pending, hxy.mem_pending, or_assoc]
    refine or_congr_right ?_
    omega

-- Numbering

-- Subsets are looked up by their lists, which tell them apart.
theorem getElem?_insert_toList {numbers : Std.TreeMap (List State) Nat} {s t : Ascending State} :
    (numbers.insert s.toList p)[t.toList]? = if s = t then some p else numbers[t.toList]? := by
  rw [Std.TreeMap.getElem?_insert]
  by_cases hst : s = t
  · subst hst
    rw [if_pos Std.ReflCmp.compare_self, if_pos rfl]
  · have hne : compare s.toList t.toList ≠ .eq := by
      intro heq
      have hlist := Std.compare_eq_iff_eq.mp heq
      refine hst ?_
      cases s; cases t
      simpa using hlist
    rw [if_neg hne, if_neg hst]

theorem number_of_some {q : Nat} (hq : x.numbers[s.toList]? = some q) : x.number s = (x, q) := by
  simp only [number, hq]

theorem number_of_none (hs : x.numbers[s.toList]? = none) :
    x.number s = (⟨x.dfa.addState, x.subsets.push s, x.numbers.insert s.toList x.dfa.size,
      x.dfa.size :: x.pending⟩, x.dfa.size) := by
  simp only [number, hs]

theorem Invariant.getElem?_push (h : Invariant a wired x) {t : Ascending State} :
    (x.subsets.push s)[p]? = some t ↔ x.subsets[p]? = some t ∨ p = x.dfa.size ∧ s = t := by
  rw [Array.getElem?_push, h.size_subsets]
  by_cases hp : p = x.dfa.size
  · have hnone : x.subsets[x.dfa.size]? = none :=
      Array.getElem?_eq_none (Nat.le_of_eq h.size_subsets)
    simp [hp, hnone]
  · simp [hp]

theorem Invariant.extends_number (h : Invariant a wired x) (s : Ascending State) :
    Extends x (x.number s).1 := by
  cases hs : x.numbers[s.toList]? with
  | some q => rw [number_of_some hs]; exact Extends.refl x
  | none =>
      rw [number_of_none hs]
      refine ⟨Nat.le_succ _, fun p t hp => h.getElem?_push.mpr (Or.inl hp), fun p => ?_⟩
      simp only [List.mem_cons, Automaton.addState]
      rw [or_comm]
      refine or_congr_right ?_
      omega

theorem Invariant.getElem?_number (h : Invariant a wired x) (s : Ascending State) :
    (x.number s).1.subsets[(x.number s).2]? = some s := by
  cases hs : x.numbers[s.toList]? with
  | some q => rw [number_of_some hs]; exact (h.numbers_iff s q).mp hs
  | none => rw [number_of_none hs]; exact h.getElem?_push.mpr (Or.inr ⟨rfl, rfl⟩)

theorem Invariant.number (h : Invariant a wired x) (hs : Accessible a s) :
    Invariant a wired (x.number s).1 := by
  cases hnumber : x.numbers[s.toList]? with
  | some q => rw [number_of_some hnumber]; exact h
  | none =>
      have hext := h.extends_number s
      rw [number_of_none hnumber] at hext ⊢
      -- what is wired was numbered before, and so was the subset that it leads to
      have hsubset : ∀ p, p < x.dfa.size →
          subset ⟨x.dfa.addState, x.subsets.push s, x.numbers.insert s.toList x.dfa.size,
            x.dfa.size :: x.pending⟩ p = x.subset p := fun p hp =>
        subset_of_getElem? (hext.subsets p _ (h.getElem?_of_lt hp))
      have hold : ∀ (p : Nat) c (q : Nat), wired p c →
          ((x.subsets.push s)[q]? = some (Automaton.step a (x.subset p) c) ↔
            x.subsets[q]? = some (Automaton.step a (x.subset p) c)) := by
        intro p c q hp
        rw [h.getElem?_push]
        refine or_iff_left ?_
        rintro ⟨-, rfl⟩
        obtain ⟨r, hr⟩ := h.wired_target p c hp
        rw [(h.numbers_iff _ r).mpr hr] at hnumber
        exact nomatch hnumber
      exact {
        wellFormed := h.wellFormed.addState
        no_finals := h.no_finals
        size_subsets := by simp [h.size_subsets, Automaton.addState]
        first := hext.subsets _ _ h.first
        numbers_iff := fun t p => by
          rw [h.getElem?_push, getElem?_insert_toList]
          by_cases ht : s = t
          · subst ht
            rw [if_pos rfl, Option.some.injEq, ← h.numbers_iff, hnumber]
            simp [eq_comm]
          · simp [h.numbers_iff, ht]
        accessible := fun p t hp => by
          rcases h.getElem?_push.mp hp with hp | ⟨-, rfl⟩
          · exact h.accessible p t hp
          · exact hs
        nodup_pending := List.nodup_cons.mpr
          ⟨fun hp => Nat.lt_irrefl _ (h.pending_lt _ hp), h.nodup_pending⟩
        pending_lt := fun p hp => by
          rcases List.mem_cons.mp hp with rfl | hp
          · exact Nat.lt_succ_self _
          · exact Nat.lt_succ_of_lt (h.pending_lt p hp)
        wired_lt := fun p c hp => Nat.lt_succ_of_lt (h.wired_lt p c hp)
        wired_target := fun p c hp => by
          obtain ⟨q, hq⟩ := h.wired_target p c hp
          rw [hsubset p (h.wired_lt p c hp)]
          exact ⟨q, hext.subsets _ _ hq⟩
        mem_edges := fun e => by
          refine (h.mem_edges e).trans ?_
          refine exists_congr fun p => exists_congr fun c => exists_congr fun q => ?_
          refine and_congr_right fun hp => and_congr_left fun _ => ?_
          rw [hsubset p (h.wired_lt p c hp)]
          exact (hold p c q hp).symm }

-- Wiring

-- The state that is expanded and the one that its move leads to both exist, so the move is granted.
theorem Invariant.setMove?_number (h : Invariant a wired x) (hp : p < x.dfa.size)
    (hs : Accessible a s) :
    (x.number s).1.dfa.setMove? p c (x.number s).2 =
      some { (x.number s).1.dfa with
        moves := (x.number s).1.dfa.moves.replace ⟨p, some c, (x.number s).2⟩ } := by
  have hnumber := h.number hs
  have hq := hnumber.lt_of_getElem? (h.getElem?_number _)
  have hp := Nat.lt_of_lt_of_le hp (h.extends_number s).size_le
  have hvalid {r : Nat} (hr : r < (x.number s).1.dfa.size) :
      Automaton.Valid (x.number s).1.dfa r :=
    ⟨Int.natCast_nonneg r, Int.ofNat_lt.mpr hr⟩
  simp only [Automaton.setMove?, hvalid hp, hvalid hq, and_self, if_true]

-- The move that `wire` sets.
theorem Invariant.wire_eq (h : Invariant a wired x) (hp : p < x.dfa.size)
    (hs : Accessible a (Automaton.step a s c)) :
    wire a p s x c =
      let y := (x.number (Automaton.step a s c)).1
      let q := (x.number (Automaton.step a s c)).2
      { y with dfa := { y.dfa with moves := y.dfa.moves.replace ⟨p, some c, q⟩ } } := by
  simp only [wire, Automaton.setMove, h.setMove?_number hp hs, Option.getD_some]

theorem Invariant.extends_wire (h : Invariant a wired x) (hp : p < x.dfa.size)
    (hs : Accessible a (Automaton.step a s c)) : Extends x (wire a p s x c) := by
  have hext := h.extends_number (Automaton.step a s c)
  rw [h.wire_eq hp hs]
  exact ⟨hext.size_le, hext.subsets, hext.mem_pending⟩

theorem Invariant.wire (h : Invariant a wired x) (hp : x.subsets[p]? = some s)
    (hc : c ∈ Automaton.alphabet a) :
    Invariant a (fun r d => wired r d ∨ r = p ∧ d = c) (wire a p s x c) := by
  have hs := (h.accessible p s hp).step hc
  have hlt := h.lt_of_getElem? hp
  have hwell : Automaton.WellFormed (Exploration.wire a p s x c).dfa :=
    (h.number hs).wellFormed.setMove _ _ _
  rw [h.wire_eq hlt hs] at hwell ⊢
  have hext := h.extends_number (Automaton.step a s c)
  have hq := h.getElem?_number (Automaton.step a s c)
  have h := h.number hs
  generalize x.number (Automaton.step a s c) = numbered at *
  obtain ⟨y, q⟩ := numbered
  dsimp only at *
  have hsubset : y.subset p = s := subset_of_getElem? (hext.subsets p s hp)
  exact {
    wellFormed := hwell
    no_finals := h.no_finals
    size_subsets := h.size_subsets
    first := h.first
    numbers_iff := h.numbers_iff
    accessible := h.accessible
    nodup_pending := h.nodup_pending
    pending_lt := h.pending_lt
    wired_lt := fun r d hr => by
      rcases hr with hr | ⟨rfl, -⟩
      · exact h.wired_lt r d hr
      · exact h.lt_of_getElem? (hext.subsets r s hp)
    wired_target := fun r d hr => by
      rcases hr with hr | ⟨rfl, rfl⟩
      · exact h.wired_target r d hr
      · exact ⟨q, hsubset ▸ hq⟩
    mem_edges := fun e => by
      have htarget : y.subsets[q]? = some (Automaton.step a (y.subset p) c) := hsubset ▸ hq
      rw [MoveRelation.mem_edges_replace, h.mem_edges]
      constructor
      · rintro (rfl | ⟨⟨r, d, t, hr, ht, rfl⟩, -⟩)
        · exact ⟨p, c, q, Or.inr ⟨rfl, rfl⟩, htarget, rfl⟩
        · exact ⟨r, d, t, Or.inl hr, ht, rfl⟩
      · rintro ⟨r, d, t, hr, ht, rfl⟩
        -- a move set twice has the same target both times
        by_cases hkey : r = p ∧ d = c
        · obtain ⟨rfl, rfl⟩ := hkey
          rw [h.number_unique ht htarget]
          exact Or.inl rfl
        · refine Or.inr ⟨⟨r, d, t, hr.resolve_right hkey, ht, rfl⟩, fun heq => hkey ?_⟩
          simpa [Edge.key] using heq }

theorem Invariant.foldl_wire (h : Invariant a wired x) (hp : x.subsets[p]? = some s)
    (cs : List Char) (hcs : ∀ c ∈ cs, c ∈ Automaton.alphabet a) :
    Invariant a (fun r d => wired r d ∨ r = p ∧ d ∈ cs) (cs.foldl (Exploration.wire a p s) x) ∧
      Extends x (cs.foldl (Exploration.wire a p s) x) := by
  induction cs generalizing x wired with
  | nil => simpa using And.intro h (Extends.refl x)
  | cons c cs ih =>
      obtain ⟨hc, hcs⟩ := List.forall_mem_cons.mp hcs
      have hext := h.extends_wire (h.lt_of_getElem? hp) ((h.accessible p s hp).step hc)
      obtain ⟨hinv, hrest⟩ := ih (h.wire hp hc) (hext.subsets p s hp) hcs
      refine ⟨?_, hext.trans hrest⟩
      have hwired : (fun r d => wired r d ∨ r = p ∧ d ∈ c :: cs) =
          fun r d => (wired r d ∨ r = p ∧ d = c) ∨ r = p ∧ d ∈ cs := by
        funext r d
        rw [List.mem_cons, and_or_left, or_assoc]
      rw [hwired]
      exact hinv

-- Whole steps

-- Between two steps exactly the states that are not pending are expanded.
def AtHead (a : NFA) (x : Exploration) : Prop :=
  Invariant a (fun p c => p < x.dfa.size ∧ p ∉ x.pending ∧ c ∈ Automaton.alphabet a) x

theorem atHead_begin (a : NFA) : AtHead a (begin a) := by
  have hnone : ∀ p c, ¬ (p < (begin a).dfa.size ∧ p ∉ (begin a).pending ∧
      c ∈ Automaton.alphabet a) := by
    rintro p c ⟨hlt, hpending, -⟩
    exact hpending (List.mem_singleton.mpr (Nat.lt_one_iff.mp hlt))
  have hfirst : ∀ (p : Nat) s, #[NFA.start a][p]? = some s ↔ p = 0 ∧ NFA.start a = s := by
    intro p s
    cases p <;> simp
  exact {
    wellFormed := Automaton.wellFormed_blank Nat.one_pos
    no_finals := rfl
    size_subsets := rfl
    first := rfl
    numbers_iff := fun s p => by
      simp only [begin]
      rw [hfirst, getElem?_insert_toList]
      by_cases hs : NFA.start a = s
      · simp [hs, eq_comm]
      · simp [hs]
    accessible := fun p s hp => ((hfirst p s).mp hp).2 ▸ accessible_start a
    nodup_pending := List.nodup_singleton 0
    pending_lt := fun p hp => List.mem_singleton.mp hp ▸ Nat.one_pos
    wired_lt := fun p c hp => absurd hp (hnone p c)
    wired_target := fun p c hp => absurd hp (hnone p c)
    mem_edges := fun e => by
      refine iff_of_false MoveRelation.mem_edges_empty ?_
      rintro ⟨p, c, q, hp, -⟩
      exact hnone p c hp }

-- Taking a state off the list does not touch the numbering.
theorem AtHead.taken (h : AtHead a x) {rest : List Nat} (hpending : x.pending = p :: rest) :
    Invariant a (fun q c => q < x.dfa.size ∧ q ∉ x.pending ∧ c ∈ Automaton.alphabet a)
      { x with pending := rest } := by
  have hnodup := h.nodup_pending
  have hlt := h.pending_lt
  rw [hpending] at hnodup hlt
  exact { h with
    nodup_pending := hnodup.of_cons
    pending_lt := fun q hq => hlt q (List.mem_cons_of_mem p hq) }

theorem AtHead.lt_of_pending (h : AtHead a x) {rest : List Nat} (hpending : x.pending = p :: rest) :
    p < x.dfa.size := h.pending_lt p (hpending ▸ List.mem_cons_self)

theorem expand?_eq_some_iff {cs : List Char} : expand? a cs x = some y ↔
    ∃ p rest, x.pending = p :: rest ∧
      y = cs.foldl (Exploration.wire a p (x.subset p)) { x with pending := rest } := by
  unfold Exploration.expand?
  cases x.pending with
  | nil => simp
  | cons p rest => simp [eq_comm]

-- Once the next state is expanded, it is the only one that is not pending any more.
theorem AtHead.done_iff (h : AtHead a x) {rest : List Nat} (hpending : x.pending = p :: rest)
    (hext : Extends { x with pending := rest } y) {q : Nat} :
    q < y.dfa.size ∧ q ∉ y.pending ↔ q < x.dfa.size ∧ q ∉ x.pending ∨ q = p := by
  have hp := h.lt_of_pending hpending
  have hsize : x.dfa.size ≤ y.dfa.size := hext.size_le
  have hnodup := h.nodup_pending
  rw [hpending] at hnodup
  rw [hext.mem_pending, hpending, List.mem_cons]
  by_cases hqp : q = p
  · subst hqp
    have hlt : q < y.dfa.size := Nat.lt_of_lt_of_le hp hsize
    simp [(List.nodup_cons.mp hnodup).1, hlt, hp]
  · by_cases hq : q < x.dfa.size
    · have hlt : q < y.dfa.size := Nat.lt_of_lt_of_le hq hsize
      simp [hqp, hq, hlt]
    · refine iff_of_false ?_ (by simp [hqp, hq])
      rintro ⟨hlt, hnot⟩
      exact hnot (.inr ⟨Nat.le_of_not_lt hq, hlt⟩)

theorem AtHead.expand? (h : AtHead a x)
    (hy : expand? a (Automaton.alphabet a).toList x = some y) : AtHead a y := by
  obtain ⟨p, rest, hpending, rfl⟩ := expand?_eq_some_iff.mp hy
  obtain ⟨hinv, hext⟩ := (h.taken hpending).foldl_wire
    (h.getElem?_of_lt (h.lt_of_pending hpending)) (Automaton.alphabet a).toList fun c hc => hc
  unfold AtHead
  convert hinv using 3 with q c
  rw [← and_assoc, h.done_iff hpending hext, or_and_right, and_assoc]
  rfl

theorem AtHead.run (h : AtHead a x) :
    AtHead a (run a (Automaton.alphabet a).toList x) ∧
      (run a (Automaton.alphabet a).toList x).pending = [] := by
  fun_induction Exploration.run a (Automaton.alphabet a).toList x with
  | case1 x hnone =>
      refine ⟨h, ?_⟩
      unfold Exploration.expand? at hnone
      split at hnone
      · assumption
      · exact nomatch hnone
  | case2 x y hy ih => exact ih (h.expand? hy)

-- At the end every state has its moves under the whole alphabet.
theorem invariant_explored (a : NFA) :
    Invariant a (fun p c => p < (NFA.explored a).dfa.size ∧ c ∈ Automaton.alphabet a)
      (NFA.explored a) := by
  obtain ⟨hinv, hpending⟩ := (atHead_begin a).run
  unfold AtHead at hinv
  rw [hpending] at hinv
  simp only [List.not_mem_nil, not_false_eq_true, true_and] at hinv
  exact hinv

end Exploration

theorem NFA.wellFormed_toDFA (a : NFA) : Automaton.WellFormed (NFA.toDFA a) :=
  (Exploration.invariant_explored a).wellFormed.foldl_addFinal _

end FiniteAutomata
