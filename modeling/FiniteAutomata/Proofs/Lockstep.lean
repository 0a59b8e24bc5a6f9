import FiniteAutomata.Proofs.Exploration

/-!
Explorations in lock step. Where the accessible subsets of one automaton correspond to subsets of
another (`NFA.Corresponds`), both explorations number, wire and finish at the same time: one step
keeps them alike (`Exploration.Mirrors.expand?`), and so does the whole run. They build the same
deterministic automaton, numbers included (`NFA.Corresponds.dfa_determinize`), and its states stand
for corresponding subsets (`NFA.Corresponds.subsets_determinize`).
-/

namespace FiniteAutomata

open Exploration (Accessible)

-- `g` tells the accessible subsets of `a` apart, and what happens to them in `a` happens to their
-- images in `b`.
structure NFA.Corresponds (a b : NFA) (g : Ascending State → Ascending State) : Prop where
  alphabet : Automaton.alphabet b = Automaton.alphabet a
  start : NFA.start b = g (NFA.start a)
  step : ∀ s, Accessible a s → ∀ c ∈ Automaton.alphabet a,
    Automaton.step b (g s) c = g (Automaton.step a s c)
  inj : ∀ s t, Accessible a s → Accessible a t → g s = g t → s = t
  hasFinal : ∀ s, Accessible a s →
    Automaton.hasFinal b (g s).toList = Automaton.hasFinal a s.toList

namespace Exploration

variable {a b : NFA} {g : Ascending State → Ascending State} {x y : Exploration}
  {s : Ascending State} {p : Nat} {c : Char}

-- The second exploration has done what the first has, with other subsets.
structure Mirrors (a : NFA) (g : Ascending State → Ascending State) (x y : Exploration) :
    Prop where
  dfa : y.dfa = x.dfa
  subsets : y.subsets = x.subsets.map g
  numbers : ∀ s, Accessible a s → y.numbers[(g s).toList]? = x.numbers[s.toList]?
  pending : y.pending = x.pending

theorem mirrors_begin (h : NFA.Corresponds a b g) : Mirrors a g (begin a) (begin b) where
  dfa := rfl
  subsets := by simp only [begin, h.start, List.map_toArray, List.map_cons, List.map_nil]
  numbers s hs := by
    simp only [begin, h.start]
    rw [getElem?_insert_toList, getElem?_insert_toList]
    have hsame : g (NFA.start a) = g s ↔ NFA.start a = s :=
      ⟨h.inj _ s (accessible_start a) hs, congrArg g⟩
    simp [hsame]
  pending := rfl

-- A subset is new to both or to neither, and gets the same number.
theorem Mirrors.number (hxy : Mirrors a g x y) (h : NFA.Corresponds a b g) (hs : Accessible a s) :
    Mirrors a g (x.number s).1 (y.number (g s)).1 ∧ (y.number (g s)).2 = (x.number s).2 := by
  have hnumber := hxy.numbers s hs
  cases hx : x.numbers[s.toList]? with
  | some q =>
      rw [hx] at hnumber
      rw [number_of_some hx, number_of_some hnumber]
      exact ⟨hxy, rfl⟩
  | none =>
      rw [hx] at hnumber
      rw [number_of_none hx, number_of_none hnumber, hxy.dfa]
      refine ⟨⟨rfl, ?_, fun t ht => ?_, ?_⟩, rfl⟩
      · simp only [hxy.subsets, Array.map_push]
      · have hsame : g s = g t ↔ s = t := ⟨h.inj s t hs ht, congrArg g⟩
        rw [getElem?_insert_toList, getElem?_insert_toList, hxy.numbers t ht]
        simp only [hsame]
      · simp only [hxy.pending]

theorem Mirrors.wire (hxy : Mirrors a g x y) (h : NFA.Corresponds a b g) (hs : Accessible a s)
    (hc : c ∈ Automaton.alphabet a) :
    Mirrors a g (wire a p s x c) (wire b p (g s) y c) := by
  obtain ⟨hnumbered, hnumber⟩ := hxy.number h (hs.step hc)
  unfold Exploration.wire
  rw [h.step s hs c hc]
  exact {
    dfa := by simp only [hnumbered.dfa, hnumber]
    subsets := hnumbered.subsets
    numbers := hnumbered.numbers
    pending := hnumbered.pending }

theorem Mirrors.foldl_wire (hxy : Mirrors a g x y) (h : NFA.Corresponds a b g)
    (hs : Accessible a s) (cs : List Char) (hcs : ∀ c ∈ cs, c ∈ Automaton.alphabet a) :
    Mirrors a g (cs.foldl (Exploration.wire a p s) x)
      (cs.foldl (Exploration.wire b p (g s)) y) := by
  induction cs generalizing x y with
  | nil => exact hxy
  | cons c cs ih =>
      obtain ⟨hc, hcs⟩ := List.forall_mem_cons.mp hcs
      exact ih (hxy.wire h hs hc) hcs

theorem Mirrors.subset_eq (hxy : Mirrors a g x y) (hp : x.subsets[p]? = some s) :
    y.subset p = g s := by
  rw [subset, hxy.subsets, Array.getElem?_map, hp]
  rfl

-- One step: both take the same state, or both are at the end.
theorem Mirrors.expand? (hxy : Mirrors a g x y) (h : NFA.Corresponds a b g) (hx : AtHead a x) :
    Option.Rel (Mirrors a g) (expand? a (Automaton.alphabet a).toList x)
      (expand? b (Automaton.alphabet a).toList y) := by
  unfold Exploration.expand?
  rw [hxy.pending]
  cases hpending : x.pending with
  | nil => exact .none
  | cons p rest =>
      have hp : p ∈ x.pending := hpending ▸ List.mem_cons_self
      have hsubset := hx.getElem?_of_lt (hx.pending_lt p hp)
      have htaken : Mirrors a g { x with pending := rest } { y with pending := rest } :=
        ⟨hxy.dfa, hxy.subsets, hxy.numbers, rfl⟩
      simp only [hxy.subset_eq hsubset]
      exact .some (htaken.foldl_wire h (hx.accessible p _ hsubset) _ fun c hc => hc)

theorem run_of_none {cs : List Char} (hx : Exploration.expand? a cs x = none) :
    run a cs x = x := by
  rw [run]
  split
  · rfl
  · rename_i y hy
    rw [hx] at hy
    cases hy

theorem run_of_some {cs : List Char} (hx : Exploration.expand? a cs x = some y) :
    run a cs x = run a cs y := by
  rw [run]
  split
  · rename_i hnone
    rw [hx] at hnone
    cases hnone
  · rename_i z hz
    rw [hx] at hz
    cases hz
    rfl

theorem Mirrors.run (hxy : Mirrors a g x y) (h : NFA.Corresponds a b g) (hx : AtHead a x) :
    Mirrors a g (run a (Automaton.alphabet a).toList x)
      (run b (Automaton.alphabet a).toList y) := by
  fun_induction Exploration.run a (Automaton.alphabet a).toList x generalizing y with
  | case1 x hnone =>
      have hstep := hxy.expand? h hx
      rw [hnone] at hstep
      cases hy : Exploration.expand? b (Automaton.alphabet a).toList y with
      | none => rw [run_of_none hy]; exact hxy
      | some z => rw [hy] at hstep; cases hstep
  | case2 x x' hx' ih =>
      have hstep := hxy.expand? h hx
      rw [hx'] at hstep
      cases hy : Exploration.expand? b (Automaton.alphabet a).toList y with
      | none => rw [hy] at hstep; cases hstep
      | some y' =>
          rw [hy] at hstep
          cases hstep with
          | some hxy' => rw [run_of_some hy]; exact ih hxy' (hx.expand? hx')

theorem mirrors_explored (h : NFA.Corresponds a b g) :
    Mirrors a g (NFA.explored a) (NFA.explored b) := by
  unfold NFA.explored
  rw [h.alphabet]
  exact (mirrors_begin h).run h (atHead_begin a)

end Exploration

namespace NFA.Corresponds

variable {a b : NFA} {g : Ascending State → Ascending State}

theorem subsets_determinize (h : Corresponds a b g) :
    (determinize b).subsets = (determinize a).subsets.map g := by
  have hsubsets := (Exploration.mirrors_explored h).subsets
  simp only [determinize, hsubsets, Array.toList_map]

-- The states of both are the same, and so are those whose subsets hold a final state.
theorem dfa_determinize (h : Corresponds a b g) : (determinize b).dfa = (determinize a).dfa := by
  have hmirrors := Exploration.mirrors_explored h
  have hinv := Exploration.invariant_explored a
  have hfinal : ∀ p ∈ (explored a).dfa.states,
      Automaton.hasFinal b ((explored b).subset p.toNat).toList =
        Automaton.hasFinal a ((explored a).subset p.toNat).toList := by
    intro p hp
    obtain ⟨n, hn, rfl⟩ := List.mem_map.mp hp
    have hsubset := hinv.getElem?_of_lt (List.mem_range.mp hn)
    have haccessible := hinv.accessible n _ hsubset
    rw [Int.ofNat_eq_natCast, Int.toNat_natCast, hmirrors.subset_eq hsubset]
    exact h.hasFinal _ haccessible
  simp only [determinize, hmirrors.dfa]
  rw [List.filter_congr hfinal]

end NFA.Corresponds

end FiniteAutomata
