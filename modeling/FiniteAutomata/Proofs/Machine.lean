import FiniteAutomata.Proofs.WellFormed
import FiniteAutomata.Run
import Mathlib.Computability.EpsilonNFA

/-!
What automata mean: the states that a machine with silent moves can reach over a word
(`Automaton.machine`), and the words it accepts. The engine of nondeterministic automata, which
keeps sets of states and stops when none is left, decides just these
(`NFA.accepts_iff_mem_language`).
-/

namespace FiniteAutomata

variable {k : Kind}

namespace Automaton

-- The moves as a machine over all integers. It does not know which of them are states.
def machine (a : Automaton k) : εNFA Char State where
  step p l := {q | ⟨p, l, q⟩ ∈ a.moves.edges}
  start := {0}
  accept := {p | a.isFinal p = true}

-- The words that lead from state 0 to a final state.
def language (a : Automaton k) : Language Char := a.machine.accepts

theorem mem_step_machine {a : Automaton k} {p q : State} {l : Label} :
    q ∈ a.machine.step p l ↔ ⟨p, l, q⟩ ∈ a.moves.edges := Iff.rfl

theorem mem_language {a : Automaton k} {word : List Char} :
    word ∈ a.language ↔
      ∃ q ls, a.isFinal q = true ∧ a.machine.IsPath 0 q ls ∧ ls.reduceOption = word := by
  rw [language, εNFA.mem_accepts_iff_exists_path]
  constructor
  · rintro ⟨p, q, ls, hp, hq, hword, hpath⟩
    cases Set.mem_singleton_iff.mp hp
    exact ⟨q, ls, hq, hpath, hword⟩
  · rintro ⟨q, ls, hq, hpath, hword⟩
    exact ⟨0, q, ls, rfl, hq, hword, hpath⟩

-- One step of the engine

theorem mem_closure {a : Automaton k} {ps : List State} {q : State} :
    q ∈ a.closure ps ↔ q ∈ a.machine.εClosure {p | p ∈ ps ∧ a.Valid p} := by
  rw [closure, MoveRelation.mem_reach]
  constructor
  · intro h
    induction h with
    | start hp => exact εNFA.εClosure.base _ (by simpa using hp)
    | follow _ hq ih => exact εNFA.εClosure.step _ _ (MoveRelation.mem_targets.mp hq) ih
  · intro h
    induction h with
    | base p hp => exact .start (by simpa using hp)
    | step p q hq _ ih => exact .follow ih (MoveRelation.mem_targets.mpr hq)

theorem mem_closure_of_valid {a : Automaton k} {ps : List State} (hps : ∀ p ∈ ps, a.Valid p)
    {q : State} : q ∈ a.closure ps ↔ q ∈ a.machine.εClosure {p | p ∈ ps} := by
  have hset : {p | p ∈ ps ∧ a.Valid p} = {p | p ∈ ps} :=
    Set.ext fun p => and_iff_left_of_imp (hps p)
  rw [mem_closure, hset]

-- Without silent moves a set of states is its own closure.
theorem mem_closure_of_not_silent {a : Automaton k} (h : ∀ e ∈ a.moves.edges, e.label ≠ none)
    {ps : List State} {q : State} : q ∈ a.closure ps ↔ q ∈ ps ∧ a.Valid q := by
  rw [closure, MoveRelation.mem_reach]
  constructor
  · intro hq
    cases hq with
    | start hq => simpa using hq
    | follow _ hq => exact absurd rfl (h _ (MoveRelation.mem_targets.mp hq))
  · intro hq
    apply Reaches.start
    simpa using hq

-- What a closure holds is given or behind a silent move.
theorem closure_induction {a : Automaton k} {ps : List State} {P : State → Prop}
    (hstart : ∀ p ∈ ps, a.Valid p → P p)
    (hfollow : ∀ p q, p ∈ a.closure ps → P p → ⟨p, none, q⟩ ∈ a.moves.edges → P q) {q : State}
    (hq : q ∈ a.closure ps) : P q := by
  have hreach := MoveRelation.mem_reach.mp hq
  clear hq
  induction hreach with
  | start hq =>
      have hmem := List.mem_filter.mp hq
      exact hstart _ hmem.1 (by simpa using hmem.2)
  | follow hp hq ih =>
      exact hfollow _ _ (MoveRelation.mem_reach.mpr hp) ih (MoveRelation.mem_targets.mp hq)

theorem mem_closure_start {a : Automaton k} {ps : List State} {p : State} (hp : p ∈ ps)
    (hvalid : a.Valid p) : p ∈ a.closure ps := by
  apply MoveRelation.mem_reach.mpr
  apply Reaches.start
  simp [hp, hvalid]

theorem mem_closure_follow {a : Automaton k} {ps : List State} {p q : State} (hp : p ∈ a.closure ps)
    (he : ⟨p, none, q⟩ ∈ a.moves.edges) : q ∈ a.closure ps := by
  have hreach := MoveRelation.mem_reach.mp hp
  exact MoveRelation.mem_reach.mpr (hreach.follow (MoveRelation.mem_targets.mpr he))

-- Runs stay among the states.
theorem WellFormed.valid_of_mem_closure {a : Automaton k} (h : a.WellFormed) {ps : List State}
    {q : State} (hq : q ∈ a.closure ps) : a.Valid q := by
  apply closure_induction _ _ hq
  · intro p _ hp
    exact hp
  · intro p q _ _ he
    exact (h.moves_valid _ he).2

-- The engine closes all targets at once, the machine those of each state by itself.
theorem mem_step {a : Automaton k} (h : a.WellFormed) {s : Ascending State} {c : Char}
    {q : State} : q ∈ a.step s c ↔ q ∈ a.machine.stepSet {p | p ∈ s} c := by
  have hvalid : ∀ p ∈ (a.moves.image s.toList (some c)).toList, a.Valid p := by
    intro p hp
    obtain ⟨r, -, he⟩ := MoveRelation.mem_image.mp hp
    exact (h.moves_valid _ he).2
  rw [step, mem_closure_of_valid hvalid, εNFA.mem_stepSet_iff, εNFA.mem_εClosure_iff_exists]
  constructor
  · rintro ⟨p, hp, hq⟩
    obtain ⟨r, hr, he⟩ := MoveRelation.mem_image.mp hp
    exact ⟨r, hr, a.machine.mem_εClosure_iff_exists.mpr ⟨p, he, hq⟩⟩
  · rintro ⟨r, hr, hq⟩
    obtain ⟨p, he, hq⟩ := a.machine.mem_εClosure_iff_exists.mp hq
    exact ⟨p, MoveRelation.mem_image.mpr ⟨r, hr, he⟩, hq⟩

theorem mem_step_of_not_silent {a : Automaton k} (h : a.WellFormed)
    (hsilent : ∀ e ∈ a.moves.edges, e.label ≠ none) {s : Ascending State} {c : Char} {q : State} :
    q ∈ a.step s c ↔ ∃ p ∈ s, ⟨p, some c, q⟩ ∈ a.moves.edges := by
  rw [step, mem_closure_of_not_silent hsilent]
  simp only [Ascending.mem_toList, MoveRelation.mem_image]
  apply and_iff_left_of_imp
  intro hq
  obtain ⟨p, -, he⟩ := hq
  exact (h.moves_valid _ he).2

theorem step_empty (a : Automaton k) (c : Char) : a.step ∅ c = ∅ := by
  refine Ascending.ext fun q => iff_of_false (fun hq => ?_) Ascending.not_mem_empty
  have himage : (a.moves.image (∅ : Ascending State).toList (some c)).toList = [] := rfl
  rw [step, himage, mem_closure] at hq
  simp at hq

theorem hasFinal_iff {a : Automaton k} {s : Ascending State} :
    a.hasFinal s.toList = true ↔ ∃ q ∈ s, a.isFinal q = true := by
  simp [hasFinal]

end Automaton

namespace NFA

-- The states that a run over a word can be in.
def reached (a : NFA) (word : List Char) : Ascending State :=
  word.foldl (Automaton.step a) (start a)

theorem reached_append_singleton (a : NFA) (word : List Char) (c : Char) :
    reached a (word ++ [c]) = Automaton.step a (reached a word) c := by
  rw [reached, List.foldl_append]
  rfl

theorem mem_reached {a : NFA} (h : a.WellFormed) {word : List Char} {q : State} :
    q ∈ reached a word ↔ q ∈ (Automaton.machine a).eval word := by
  induction word using List.reverseRecOn generalizing q with
  | nil =>
      have hstart : ∀ p ∈ [(0 : State)], Automaton.Valid a p :=
        List.forall_mem_singleton.mpr h.valid_zero
      have hset : {p | p ∈ [(0 : State)]} = {(0 : State)} := Set.ext fun p => List.mem_singleton
      rw [εNFA.eval_nil, reached, List.foldl_nil, start, Automaton.mem_closure_of_valid hstart, hset]
      rfl
  | append_singleton word c ih =>
      have hset : {p | p ∈ reached a word} = (Automaton.machine a).eval word :=
        Set.ext fun p => ih
      rw [reached_append_singleton, Automaton.mem_step h, hset, εNFA.eval_append_singleton]

theorem foldl_step_empty (a : NFA) (word : List Char) :
    word.foldl (Automaton.step a) ∅ = ∅ := by
  induction word with
  | nil => rfl
  | cons c word ih => rw [List.foldl_cons, Automaton.step_empty, ih]

-- Stopping early makes no difference, because nothing is reached from no state.
theorem acceptsFrom_eq_hasFinal (a : NFA) (s : Ascending State) (word : List Char) :
    acceptsFrom a s word = Automaton.hasFinal a (word.foldl (Automaton.step a) s).toList := by
  induction word generalizing s with
  | nil => rfl
  | cons c word ih =>
      simp only [acceptsFrom, List.foldl_cons]
      split
      · rename_i hempty
        have hnone : Automaton.step a s c = ∅ := by
          refine Ascending.ext fun q => iff_of_false (fun hq => ?_) Ascending.not_mem_empty
          have hmem := Ascending.mem_toList.mpr hq
          rw [List.isEmpty_iff.mp hempty] at hmem
          exact List.not_mem_nil hmem
        rw [hnone, foldl_step_empty]
        rfl
      · exact ih _

theorem accepts_eq_hasFinal (a : NFA) (word : List Char) :
    accepts a word = Automaton.hasFinal a (reached a word).toList :=
  acceptsFrom_eq_hasFinal a (start a) word

theorem accepts_iff_mem_language {a : NFA} (h : a.WellFormed) {word : List Char} :
    accepts a word = true ↔ word ∈ Automaton.language a := by
  rw [accepts_eq_hasFinal, Automaton.hasFinal_iff]
  constructor
  · rintro ⟨q, hq, hfinal⟩
    exact ⟨q, hfinal, (mem_reached h).mp hq⟩
  · rintro ⟨q, hfinal, hq⟩
    exact ⟨q, (mem_reached h).mpr hq, hfinal⟩

end NFA

end FiniteAutomata
