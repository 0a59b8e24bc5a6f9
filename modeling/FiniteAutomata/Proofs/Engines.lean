import FiniteAutomata.Proofs.DeterminizeTwice
import FiniteAutomata.Proofs.Embedding
import FiniteAutomata.Proofs.RoundTrip

/-!
One set of moves under both engines. A deterministic automaton walks from state to state and stops
where a character has no move. The other engine, given the same states, final states and moves,
keeps a set of states. It holds the state that the walk has come to, and it is empty once there is
none (`Automaton.SameParts.reachedFrom_eq`). The document of a deterministic automaton describes
such a copy once it says that it is of the other kind (`Document.ofJson?_asNFA`), and the copy gives
the same answers (`DFA.readAlike_of_reachable`).
-/

namespace FiniteAutomata

namespace Automaton.SameParts

variable {d : DFA} {m : NFA} {s : Ascending State} {p q : State} {word : List Char}

theorem mem_foldl_step (h : m.SameParts d) (hd : d.WellFormed) :
    q ∈ word.foldl m.step s ↔ ∃ p ∈ s, DFA.walk? d p word = some q := by
  have hstep : m.step = d.step := funext fun s => funext fun c => h.step_eq s c
  rw [hstep, DFA.mem_foldl_step hd]

-- From one state the set engine is in one state at most, the one where the walk ends.
theorem reachedFrom_eq (h : m.SameParts d) (hd : d.WellFormed) (hp : d.Valid p) :
    m.reachedFrom [p] word = (DFA.walk? d p word).elim ∅ Ascending.singleton := by
  have hstart : ∀ r, r ∈ m.closure [p] ↔ r = p := by
    intro r
    rw [h.mem_closure hd, List.mem_singleton]
    apply and_iff_left_of_imp
    rintro rfl
    exact h.valid_iff.mpr hp
  apply Ascending.ext
  intro q
  have hreached : q ∈ m.reachedFrom [p] word ↔ DFA.walk? d p word = some q := by
    refine (h.mem_foldl_step hd).trans ?_
    simp only [hstart, exists_eq_left]
  rw [hreached]
  cases DFA.walk? d p word with
  | none => simp
  | some r => simp [eq_comm]

theorem accepts_eq_accepts (h : m.SameParts d) (hd : d.WellFormed) (word : List Char) :
    NFA.accepts m word = DFA.accepts d word := by
  have hreached : NFA.reached m word = (DFA.walk? d 0 word).elim ∅ Ascending.singleton :=
    h.reachedFrom_eq hd hd.valid_zero
  rw [NFA.accepts_eq_hasFinal, hreached, DFA.accepts]
  cases DFA.walk? d 0 word with
  | none => rfl
  | some q =>
      have hsingle : m.hasFinal [q] = m.isFinal q := Bool.or_false _
      exact hsingle.trans (h.isFinal_eq q)

end Automaton.SameParts

namespace Document

variable {d : DFA}

-- What is written down of a deterministic automaton, as if it were of the other kind.
def asNFA (d : DFA) : Document := { ofAutomaton d with kind := .nfa }

-- Nothing else is written differently.
theorem toJson_asNFA (d : DFA) : ∃ members,
    (ofAutomaton d).toJson = .object (("kind", .string "dfa") :: members) ∧
      (asNFA d).toJson = .object (("kind", .string "nfa") :: members) :=
  ⟨_, rfl, rfl⟩

-- Less is asked of a document of this kind.
theorem valid_asNFA (h : Automaton.WellFormed d) : (asNFA d).Valid := by
  have hvalid := valid_ofAutomaton h
  apply valid_nfa hvalid.finals_inRange
  intro e he
  exact ⟨hvalid.source_inRange e he, hvalid.target_inRange e he⟩

theorem sameParts_asNFA (h : Automaton.WellFormed d) :
    Automaton.SameParts (asNFA d).toNFA d := by
  have hdescribes : (asNFA d).Describes (asNFA d).toNFA := (valid_asNFA h).describes
  exact {
    size := hdescribes.size
    mem_finals := fun p => (hdescribes.mem_finals p).trans Std.ExtTreeSet.mem_toList
    mem_edges := fun e => (hdescribes.mem_edges e).trans Ascending.mem_toList }

theorem ofJson?_asNFA (h : Automaton.WellFormed d) :
    (ofJson? (some (asNFA d).toJson)).map toAutomaton = .ok ⟨.nfa, (asNFA d).toNFA⟩ := by
  have hcheck : (asNFA d).check = .ok (asNFA d) := check_eq_ok.mpr ⟨valid_asNFA h, rfl⟩
  have hread : ofJson? (some (asNFA d).toJson) = .ok (asNFA d) := by
    rw [ofJson?, ofJson_toJson h.size_pos]
    exact congrArg (Except.mapError LoadError.invalid) hcheck
  rw [hread]
  rfl

end Document

namespace DFA

-- The answers that a nondeterministic automaton gives in the place of `d`.
structure ReadAlike (d : DFA) (m : NFA) : Prop where
  accepts : ∀ word, accepts d word = NFA.accepts m word
  reachedFrom_of_some : ∀ p, Automaton.Valid d p → ∀ word q, walk? d p word = some q →
    Automaton.reachedFrom m [p] word = .singleton q
  reachedFrom_of_none : ∀ p, Automaton.Valid d p → ∀ word, walk? d p word = none →
    Automaton.reachedFrom m [p] word = ∅

theorem readAlike_of_sameParts {d : DFA} {m : NFA} (hd : Automaton.WellFormed d)
    (h : Automaton.SameParts m d) : ReadAlike d m where
  accepts word := (h.accepts_eq_accepts hd word).symm
  reachedFrom_of_some p hp word q hwalk := by
    rw [h.reachedFrom_eq hd hp, hwalk]
    rfl
  reachedFrom_of_none p hp word hwalk := by
    rw [h.reachedFrom_eq hd hp, hwalk]
    rfl

-- Whoever changes the kind in the document of a deterministic automaton gets a nondeterministic one
-- with the same parts, and all automata with the same parts answer as the first one does.
theorem readAlike_of_reachable {d : DFA} (h : Reachable d) :
    (∃ members, (Document.ofAutomaton d).toJson = .object (("kind", .string "dfa") :: members) ∧
      ∃ m : NFA, (Document.ofJson? (some (.object (("kind", .string "nfa") :: members)))).map
        Document.toAutomaton = .ok ⟨.nfa, m⟩ ∧ Automaton.SameParts m d) ∧
    ∀ m : NFA, Automaton.SameParts m d → ReadAlike d m := by
  have hd := h.wellFormed
  constructor
  · obtain ⟨members, hwritten, hchanged⟩ := Document.toJson_asNFA d
    refine ⟨members, hwritten, (Document.asNFA d).toNFA, ?_, Document.sameParts_asNFA hd⟩
    rw [← hchanged]
    exact Document.ofJson?_asNFA hd
  · intro m hm
    exact readAlike_of_sameParts hd hm

-- The move of state 0 under 'a' was overwritten, and state 1 has no move.
theorem readAlike_of_reachable_partial :
    let d : DFA := (((Automaton.blank 3).setMove 0 'a' 1).setMove 0 'a' 2).addFinal 2
    ∃ m : NFA, Automaton.SameParts m d ∧ NFA.accepts m ['a'] = true ∧
      Automaton.reachedFrom m [0] ['a'] = .singleton 2 ∧ Automaton.reachedFrom m [1] ['a'] = ∅ := by
  intro d
  have hd : Reachable d :=
    ⟨[.make (.listed .dfa 3 [(0, .text "a", 1), (0, .text "a", 2)] [2]) "d"], "d", rfl⟩
  obtain ⟨⟨_, _, m, _, hm⟩, halike⟩ := readAlike_of_reachable hd
  have hanswers := halike m hm
  refine ⟨m, hm, ?_, ?_, ?_⟩
  · rw [← hanswers.accepts]
    decide
  · exact hanswers.reachedFrom_of_some 0 (by decide) ['a'] 2 (by decide)
  · exact hanswers.reachedFrom_of_none 1 (by decide) ['a'] (by decide)

end DFA

end FiniteAutomata
