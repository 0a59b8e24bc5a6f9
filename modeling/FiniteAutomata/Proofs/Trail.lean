import FiniteAutomata.Proofs.Machine
import FiniteAutomata.Proofs.Reachable

/-!
Acceptance by paths. A trail is a chain of moves, of which the silent ones read nothing, however
many stand before, between and behind the others. The engine that keeps sets of states accepts
exactly the words that some trail from state 0 to a final state spells
(`NFA.accepts_iff_exists_trail`). The closure of some states is what silent trails from them lead to
(`NFA.mem_closure_iff_exists_silent_trail`).
-/

namespace FiniteAutomata

variable {k : Kind}

namespace Automaton

-- A chain of moves, each from where the one before it leads to.
inductive Trail (a : Automaton k) : State → List (Edge Char) → State → Prop where
  | nil (p : State) : Trail a p [] p
  | cons {e : Edge Char} {es : List (Edge Char)} {q : State} (he : e ∈ a.moves.edges)
      (hes : Trail a e.target es q) : Trail a e.source (e :: es) q

-- The characters that are read along a chain of moves.
def spelled (es : List (Edge Char)) : List Char := es.filterMap Edge.label

theorem reduceOption_map_label (es : List (Edge Char)) :
    (es.map Edge.label).reduceOption = spelled es := by
  rw [List.reduceOption, List.filterMap_map]
  rfl

theorem Trail.isPath {a : Automaton k} {p q : State} {es : List (Edge Char)}
    (h : a.Trail p es q) : a.machine.IsPath p q (es.map Edge.label) := by
  induction h with
  | nil p => exact .nil p
  | cons he _ ih => exact .cons _ _ _ _ _ (mem_step_machine.mpr he) ih

theorem exists_trail_of_isPath {a : Automaton k} {p q : State} {ls : List Label}
    (h : a.machine.IsPath p q ls) : ∃ es, a.Trail p es q ∧ es.map Edge.label = ls := by
  induction h with
  | nil p => exact ⟨[], .nil p, rfl⟩
  | cons r p q l ls he _ ih =>
      obtain ⟨es, hes, rfl⟩ := ih
      exact ⟨⟨p, l, r⟩ :: es, .cons (mem_step_machine.mp he) hes, rfl⟩

-- What a closure holds lies behind a chain of silent moves, which may be empty, from a state that
-- was given.
theorem mem_closure_iff_exists_trail {a : Automaton k} {ps : List State} {q : State} :
    q ∈ a.closure ps ↔
      ∃ p ∈ ps, a.Valid p ∧ ∃ es, a.Trail p es q ∧ ∀ e ∈ es, e.label = none := by
  rw [mem_closure, εNFA.mem_εClosure_iff_exists]
  constructor
  · rintro ⟨p, ⟨hp, hvalid⟩, hq⟩
    obtain ⟨n, hpath⟩ := (εNFA.mem_εClosure_iff_exists_path _).mp hq
    obtain ⟨es, hes, hlabels⟩ := exists_trail_of_isPath hpath
    refine ⟨p, hp, hvalid, es, hes, ?_⟩
    intro e he
    have hlabel : e.label ∈ List.replicate n none := hlabels ▸ List.mem_map_of_mem he
    exact List.eq_of_mem_replicate hlabel
  · rintro ⟨p, hp, hvalid, es, hes, hsilent⟩
    have hpath := hes.isPath
    rw [List.map_eq_replicate_iff.mpr hsilent] at hpath
    exact ⟨p, ⟨hp, hvalid⟩, (εNFA.mem_εClosure_iff_exists_path _).mpr ⟨es.length, hpath⟩⟩

theorem mem_language_iff_exists_trail {a : Automaton k} {word : List Char} :
    word ∈ a.language ↔
      ∃ es q, a.Trail 0 es q ∧ a.isFinal q = true ∧ spelled es = word := by
  rw [mem_language]
  constructor
  · rintro ⟨q, ls, hq, hpath, rfl⟩
    obtain ⟨es, hes, rfl⟩ := exists_trail_of_isPath hpath
    exact ⟨es, q, hes, hq, (reduceOption_map_label es).symm⟩
  · rintro ⟨es, q, hes, hq, rfl⟩
    exact ⟨q, es.map Edge.label, hq, hes.isPath, reduceOption_map_label es⟩

end Automaton

namespace NFA

-- The engine stops where no state is left, and this never changes its answer.
theorem accepts_iff_exists_trail {a : NFA} (h : Reachable a) (word : List Char) :
    (accepts a word = true ↔
      ∃ es q, Automaton.Trail a 0 es q ∧ Automaton.isFinal a q = true ∧
        Automaton.spelled es = word) ∧
    accepts a word =
      Automaton.hasFinal a (word.foldl (Automaton.step a) (start a)).toList := by
  constructor
  · rw [accepts_iff_mem_language h.wellFormed]
    exact Automaton.mem_language_iff_exists_trail
  · exact accepts_eq_hasFinal a word

-- Nested stars have silent moves in circles.
theorem accepts_iff_exists_trail_star :
    let a := Regex.toNFA (.star (.star (.literal 'a')))
    (accepts a ['a', 'a'] = true ↔
      ∃ es q, Automaton.Trail a 0 es q ∧ Automaton.isFinal a q = true ∧
        Automaton.spelled es = ['a', 'a']) ∧
    accepts a ['a', 'a'] =
      Automaton.hasFinal a (['a', 'a'].foldl (Automaton.step a) (start a)).toList :=
  accepts_iff_exists_trail ⟨[.make (.pattern (.star (.star (.literal 'a')))) "a"], "a", rfl⟩ _

-- The given states may repeat and need not exist. Those that exist, and only they, are followed
-- along silent moves, and every state found exists.
theorem mem_closure_iff_exists_silent_trail {a : NFA} (h : Reachable a) (ps : List State)
    (q : State) :
    (q ∈ Automaton.closure a ps ↔
      ∃ p ∈ ps, Automaton.Valid a p ∧
        ∃ es, Automaton.Trail a p es q ∧ ∀ e ∈ es, e.label = none) ∧
    (q ∈ Automaton.closure a ps → Automaton.Valid a q) := by
  constructor
  · exact Automaton.mem_closure_iff_exists_trail
  · exact h.wellFormed.valid_of_mem_closure

-- States 1 and 4 lie on a circle of silent moves.
theorem mem_closure_iff_exists_silent_trail_star :
    let a := Regex.toNFA (.star (.star (.literal 'a')))
    2 ∈ Automaton.closure a [-1, 4, 4, 9] ∧ Automaton.Valid a 2 := by
  intro a
  have ha : Reachable a := ⟨[.make (.pattern (.star (.star (.literal 'a')))) "a"], "a", rfl⟩
  have hback : (⟨4, none, 1⟩ : Edge Char) ∈ a.moves.edges := by decide
  have hinto : (⟨1, none, 2⟩ : Edge Char) ∈ a.moves.edges := by decide
  have hclosure := mem_closure_iff_exists_silent_trail ha [-1, 4, 4, 9] 2
  have hmem : 2 ∈ Automaton.closure a [-1, 4, 4, 9] := by
    apply hclosure.1.mpr
    refine ⟨4, by simp, by decide, [⟨4, none, 1⟩, ⟨1, none, 2⟩], ?_, by simp⟩
    exact .cons hback (.cons hinto (.nil 2))
  exact ⟨hmem, hclosure.2 hmem⟩

end NFA

end FiniteAutomata
