import FiniteAutomata.Proofs.Embedding
import FiniteAutomata.Proofs.Lockstep
import Mathlib.Data.Set.Function

/-!
Other numbers for the states. Where the states of an automaton are renumbered and state 0 keeps its
number (`NFA.Renumbers`), everything that a run meets is renumbered with them: closures, targets and
subsets. So both explorations run in lock step, and the determinized automaton is the same
(`NFA.determinize_renumbered`): its numbers come from the order in which subsets are met, never from
what a subset holds.
-/

namespace FiniteAutomata

namespace Ascending

variable {α : Type} [Ord α] [Std.TransOrd α] [Std.LawfulEqOrd α] {f : α → α} {s t : Ascending α}

-- The image of a set.
def map (f : α → α) (s : Ascending α) : Ascending α := .ofList (s.toList.map f)

@[simp] theorem mem_map {y : α} : y ∈ s.map f ↔ ∃ x ∈ s, f x = y := by
  rw [map, mem_ofList, List.mem_map]
  rfl

-- Sets of elements that `f` tells apart are told apart by their images.
theorem map_inj {u : Set α} (hf : Set.InjOn f u) (hs : ∀ x ∈ s, x ∈ u) (ht : ∀ x ∈ t, x ∈ u)
    (h : s.map f = t.map f) : s = t := by
  have himage : f '' {x | x ∈ s} = f '' {x | x ∈ t} := by
    ext y
    have hy : y ∈ s.map f ↔ y ∈ t.map f := by rw [h]
    rwa [mem_map, mem_map] at hy
  have hset : {x | x ∈ s} = {x | x ∈ t} := (hf.image_eq_image_iff hs ht).mp himage
  apply ext
  intro x
  exact Set.ext_iff.mp hset x

end Ascending

def Edge.renumber {σ : Type} (π : State → State) (e : Edge σ) : Edge σ :=
  ⟨π e.source, e.label, π e.target⟩

namespace NFA

open Exploration (Accessible)

variable {a b : NFA} {π : State → State} {ps qs : List State} {s t : Ascending State}

-- `b` is `a` with state `p` renamed to `π p`. State 0 keeps its name. The moves and final states of
-- `b` may have been written in any order.
structure Renumbers (π : State → State) (a b : NFA) : Prop where
  bijOn : Set.BijOn π {p | Automaton.Valid a p} {p | Automaton.Valid a p}
  zero : π 0 = 0
  size : b.size = a.size
  mem_edges : ∀ e, e ∈ b.moves.edges ↔ ∃ d ∈ a.moves.edges, d.renumber π = e
  mem_finals : ∀ q, q ∈ b.finals ↔ ∃ p ∈ a.finals, π p = q

namespace Renumbers

theorem eq_of_map_eq (h : Renumbers π a b) {p q : State} (hp : Automaton.Valid a p)
    (hq : Automaton.Valid a q) (heq : π p = π q) : p = q :=
  h.bijOn.injOn hp hq heq

theorem valid_map (h : Renumbers π a b) {p : State} (hp : Automaton.Valid a p) :
    Automaton.Valid b (π p) := by
  have hvalid : Automaton.Valid a (π p) := h.bijOn.mapsTo hp
  rw [Automaton.Valid, h.size]
  exact hvalid

theorem alphabet_eq (h : Renumbers π a b) : Automaton.alphabet b = Automaton.alphabet a := by
  apply Ascending.ext
  intro c
  rw [Automaton.alphabet, Automaton.alphabet, MoveRelation.mem_symbols, MoveRelation.mem_symbols]
  constructor
  · intro hc
    obtain ⟨e, he, hlabel⟩ := hc
    obtain ⟨d, hd, rfl⟩ := (h.mem_edges e).mp he
    exact ⟨d, hd, hlabel⟩
  · intro hc
    obtain ⟨d, hd, hlabel⟩ := hc
    exact ⟨d.renumber π, (h.mem_edges _).mpr ⟨d, hd, rfl⟩, hlabel⟩

-- The moves of a renamed state are those of the state.
theorem mem_edges_map (h : Renumbers π a b) (ha : Automaton.WellFormed a) {p r : State} {l : Label}
    (hp : Automaton.Valid a p) :
    ⟨π p, l, r⟩ ∈ b.moves.edges ↔ ∃ q, ⟨p, l, q⟩ ∈ a.moves.edges ∧ π q = r := by
  rw [h.mem_edges]
  constructor
  · intro he
    obtain ⟨⟨p', l', q⟩, hd, heq⟩ := he
    obtain ⟨hsource, rfl, htarget⟩ := Edge.mk.inj heq
    have hp' : p' = p := h.eq_of_map_eq (ha.moves_valid _ hd).1 hp hsource
    rw [hp'] at hd
    exact ⟨q, hd, htarget⟩
  · intro he
    obtain ⟨q, hd, rfl⟩ := he
    exact ⟨⟨p, l, q⟩, hd, rfl⟩

theorem isFinal_map (h : Renumbers π a b) (ha : Automaton.WellFormed a) {p : State}
    (hp : Automaton.Valid a p) : Automaton.isFinal b (π p) = Automaton.isFinal a p := by
  apply Bool.eq_iff_iff.mpr
  constructor
  · intro hfinal
    obtain ⟨q, hq, heq⟩ := (h.mem_finals _).mp hfinal
    exact h.eq_of_map_eq (ha.finals_valid q hq) hp heq ▸ hq
  · intro hfinal
    exact (h.mem_finals _).mpr ⟨p, hfinal, rfl⟩

theorem embeds (h : Renumbers π a b) (ha : Automaton.WellFormed a) : Automaton.Embeds π a b where
  valid_map _ hp := h.valid_map hp
  mem_edges_map _ _ _ hp := h.mem_edges_map ha hp

-- The walk along silent moves reaches the renamed states, whatever lists it starts from.
theorem closure_map (h : Renumbers π a b) (ha : Automaton.WellFormed a)
    (hps : ∀ p ∈ ps, Automaton.Valid a p) (hqs : ∀ q, q ∈ qs ↔ ∃ p ∈ ps, π p = q) :
    Automaton.closure b qs = (Automaton.closure a ps).map π := by
  apply Ascending.ext
  intro r
  rw [Ascending.mem_map]
  exact (h.embeds ha).mem_closure ha hps hqs

theorem step_map (h : Renumbers π a b) (ha : Automaton.WellFormed a)
    (hs : ∀ p ∈ s, Automaton.Valid a p) (c : Char) :
    Automaton.step b (s.map π) c = (Automaton.step a s c).map π := by
  apply Ascending.ext
  intro r
  rw [Ascending.mem_map]
  apply (h.embeds ha).mem_step ha hs
  intro q
  exact Ascending.mem_map

theorem hasFinal_map (h : Renumbers π a b) (ha : Automaton.WellFormed a)
    (hs : ∀ p ∈ s, Automaton.Valid a p) :
    Automaton.hasFinal b (s.map π).toList = Automaton.hasFinal a s.toList := by
  apply Bool.eq_iff_iff.mpr
  rw [Automaton.hasFinal_iff, Automaton.hasFinal_iff]
  constructor
  · intro hfinal
    obtain ⟨q, hq, hfinal⟩ := hfinal
    obtain ⟨p, hp, rfl⟩ := Ascending.mem_map.mp hq
    exact ⟨p, hp, h.isFinal_map ha (hs p hp) ▸ hfinal⟩
  · intro hfinal
    obtain ⟨p, hp, hfinal⟩ := hfinal
    exact ⟨π p, Ascending.mem_map.mpr ⟨p, hp, rfl⟩, (h.isFinal_map ha (hs p hp)).trans hfinal⟩

theorem start_map (h : Renumbers π a b) (ha : Automaton.WellFormed a) :
    start b = (start a).map π := by
  apply h.closure_map ha
  · exact List.forall_mem_singleton.mpr ha.valid_zero
  · intro q
    simp [h.zero, eq_comm]

theorem corresponds (h : Renumbers π a b) (ha : Automaton.WellFormed a) :
    Corresponds a b (Ascending.map π) where
  alphabet := h.alphabet_eq
  start := h.start_map ha
  step _ hs c _ := h.step_map ha (hs.valid ha) c
  inj _ _ hs ht :=
    Ascending.map_inj h.bijOn.injOn (hs.valid ha) (ht.valid ha)
  hasFinal _ hs := h.hasFinal_map ha (hs.valid ha)

end Renumbers

-- Renamed moves and final states added one by one, in any order and any number of times.
theorem renumbers_foldl (ha : Automaton.WellFormed a)
    (hπ : Set.BijOn π {p | Automaton.Valid a p} {p | Automaton.Valid a p}) (hzero : π 0 = 0)
    {es : List (Edge Char)} (hes : ∀ e, e ∈ es ↔ ∃ d ∈ a.moves.edges, d.renumber π = e)
    (hps : ∀ q, q ∈ ps ↔ ∃ p ∈ a.finals, π p = q) :
    Renumbers π a (ps.foldl Automaton.addFinal (es.foldl Automaton.addMove (.blank a.size))) := by
  have hvalid : Document.Valid ⟨.nfa, a.size, ps, es⟩ := by
    apply Document.valid_nfa
    · intro q hq
      obtain ⟨p, hp, rfl⟩ := (hps q).mp hq
      exact hπ.mapsTo (ha.finals_valid p hp)
    · intro e he
      obtain ⟨d, hd, rfl⟩ := (hes e).mp he
      obtain ⟨hsource, htarget⟩ := ha.moves_valid d hd
      exact ⟨hπ.mapsTo hsource, hπ.mapsTo htarget⟩
  have hdescribes := hvalid.describes
  exact {
    bijOn := hπ
    zero := hzero
    size := hdescribes.size
    mem_edges := fun e => (hdescribes.mem_edges e).trans (hes e)
    mem_finals := fun q => (hdescribes.mem_finals q).trans (hps q) }

-- Renaming states does not change the determinized automaton. Its states stand for the same subsets,
-- with the states in them renamed.
theorem determinize_renumbered (ha : Reachable a) (h : Renumbers π a b) :
    (determinize b).dfa = (determinize a).dfa ∧
      (determinize b).subsets = (determinize a).subsets.map (Ascending.map π) :=
  have hcorresponds := h.corresponds ha.wellFormed
  ⟨hcorresponds.dfa_determinize, hcorresponds.subsets_determinize⟩

-- The states behind the two characters change places, and the moves are written from the back.
theorem determinize_renumbered_swap :
    let a := Regex.toNFA (.alternate (.literal 'a') (.star (.literal 'b')))
    let π : State → State := Equiv.swap 2 5
    let b : NFA := (a.finals.toList.map π).foldl Automaton.addFinal
      ((a.moves.edges.toList.map (Edge.renumber π)).reverse.foldl Automaton.addMove (.blank a.size))
    (determinize b).dfa = (determinize a).dfa ∧
      (determinize b).subsets = (determinize a).subsets.map (Ascending.map π) := by
  intro a π b
  have ha : Reachable a :=
    ⟨[.make (.pattern (.alternate (.literal 'a') (.star (.literal 'b')))) "a"], "a", rfl⟩
  have hsize : a.size = 8 := rfl
  have htwo : Automaton.Valid a 2 := by simp [Automaton.Valid, hsize]
  have hfive : Automaton.Valid a 5 := by simp [Automaton.Valid, hsize]
  have hπ : Set.BijOn π {p | Automaton.Valid a p} {p | Automaton.Valid a p} :=
    Equiv.bijOn_swap htwo hfive
  have hzero : π 0 = 0 := by decide
  apply determinize_renumbered ha
  apply renumbers_foldl ha.wellFormed hπ hzero
  · intro e
    rw [List.mem_reverse, List.mem_map]
    rfl
  · intro q
    simp

end NFA

end FiniteAutomata
