import FiniteAutomata.Proofs.Deterministic
import FiniteAutomata.Proofs.Lockstep
import FiniteAutomata.Proofs.SameParts
import FiniteAutomata.Proofs.SubsetAutomaton

/-!
What is deterministic already is determinized to itself. Read by the nondeterministic engine, a
deterministic automaton is in one state at a time (`Automaton.SameParts.step_singleton`). So the
exploration of a determinized automaton runs in lock step with the one that made it, and gives
every state its old number (`NFA.determinize_of_sameParts`).
-/

namespace FiniteAutomata

namespace Automaton

namespace SameParts

variable {m : NFA} {d : DFA}

theorem mem_closure (h : m.SameParts d) (hd : d.WellFormed) {ps : List State} {q : State} :
    q ∈ m.closure ps ↔ q ∈ ps ∧ m.Valid q := by
  rw [h.closure_eq, DFA.mem_closure hd, h.valid_iff]

theorem start_eq (h : m.SameParts d) (hd : d.WellFormed) : NFA.start m = .singleton 0 := by
  have hzero : m.Valid 0 := h.valid_iff.mpr hd.valid_zero
  refine Ascending.ext fun q => ?_
  rw [NFA.start, h.mem_closure hd, List.mem_singleton, Ascending.mem_singleton]
  exact and_iff_left_of_imp fun hq => hq ▸ hzero

-- The move of the deterministic engine, made by the other one.
theorem step_singleton (h : m.SameParts d) (hd : d.WellFormed) {p q : State} {c : Char}
    (he : ⟨p, some c, q⟩ ∈ d.moves.edges) : m.step (.singleton p) c = .singleton q := by
  have hmove : DFA.move? d p c = some q := (DFA.move?_eq_some_iff hd).mpr he
  apply Ascending.ext
  intro r
  rw [h.step_eq, DFA.mem_step hd]
  simp [hmove, eq_comm]

end SameParts

end Automaton

namespace NFA

variable {a m : NFA} {s : Ascending State} {n : Nat}

open Exploration (Accessible invariant_explored)

-- The state that stands for a subset, as a set of its own.
def own (a : NFA) (s : Ascending State) : Ascending State :=
  .singleton ((((determinize a).index? s).getD 0 : Nat) : Int)

theorem own_eq (hn : (explored a).subsets[n]? = some s) : own a s = .singleton (n : Int) := by
  have hindex : (determinize a).index? s = some n := ((invariant_explored a).numbers_iff s n).mpr hn
  rw [own, hindex]
  rfl

theorem alphabet_of_sameParts (h : Automaton.SameParts m (toDFA a)) :
    Automaton.alphabet m = Automaton.alphabet a := by
  have hinv := invariant_explored a
  refine Ascending.ext fun c => MoveRelation.mem_symbols.trans ?_
  simp only [h.mem_edges, moves_toDFA, hinv.mem_edges]
  constructor
  · rintro ⟨_, ⟨p, d, q, ⟨-, hd⟩, -, rfl⟩, hc⟩
    exact Option.some.inj hc ▸ hd
  · -- state 0 always exists and has a move under each character
    intro hc
    have hwired := And.intro (hinv.lt_of_getElem? hinv.first) hc
    obtain ⟨q, hq⟩ := hinv.wired_target 0 c hwired
    exact ⟨_, ⟨0, c, q, hwired, hq, rfl⟩, rfl⟩

theorem corresponds_own (h : Automaton.SameParts m (toDFA a)) : Corresponds a m (own a) := by
  have hinv := invariant_explored a
  have hd := wellFormed_toDFA a
  exact {
    alphabet := alphabet_of_sameParts h
    start := by
      rw [h.start_eq hd, own_eq hinv.first]
      rfl
    step := fun s hs c hc => by
      obtain ⟨n, hn⟩ := exists_number hs
      obtain ⟨q, hmove, hq⟩ := move?_toDFA hn hc
      rw [own_eq hn, own_eq hq]
      exact h.step_singleton hd ((DFA.move?_eq_some_iff hd).mp hmove)
    inj := fun s t hs ht heq => by
      obtain ⟨n, hn⟩ := exists_number hs
      obtain ⟨q, hq⟩ := exists_number ht
      rw [own_eq hn, own_eq hq] at heq
      have hnq : (n : Int) ∈ Ascending.singleton (q : Int) := heq ▸ Ascending.mem_singleton.mpr rfl
      have hnq : n = q := Int.ofNat_inj.mp (Ascending.mem_singleton.mp hnq)
      rw [hnq, hq] at hn
      exact (Option.some.inj hn).symm
    hasFinal := fun s hs => by
      obtain ⟨n, hn⟩ := exists_number hs
      have hlt : n < (toDFA a).size := by
        rw [size_toDFA]
        exact hinv.lt_of_getElem? hn
      have hsingle : Automaton.hasFinal m (own a s).toList = (toDFA a).isFinal (n : Int) := by
        rw [own_eq hn, ← h.isFinal_eq]
        exact Bool.or_false _
      rw [hsingle, Bool.eq_iff_iff, isFinal_toDFA_iff]
      constructor
      · rintro ⟨p, hp, -, hfinal⟩
        rw [← Int.ofNat_inj.mp hp, Exploration.subset_of_getElem? hn] at hfinal
        exact hfinal
      · intro hfinal
        exact ⟨n, rfl, hlt, (Exploration.subset_of_getElem? hn).symm ▸ hfinal⟩ }

-- Each state of the second automaton is the state of the first that it stands for.
theorem determinize_of_sameParts (h : Automaton.SameParts m (toDFA a)) :
    (determinize m).dfa = toDFA a ∧
      (determinize m).subsets = (toDFA a).states.map Ascending.singleton := by
  have hcorresponds := corresponds_own h
  refine ⟨hcorresponds.dfa_determinize, ?_⟩
  rw [hcorresponds.subsets_determinize, Automaton.states, List.map_map]
  refine List.ext_getElem? fun n => ?_
  rw [List.getElem?_map, List.getElem?_map, getElem?_subsets_determinize]
  by_cases hn : n < (explored a).dfa.size
  · have hsubset := (invariant_explored a).getElem?_of_lt hn
    rw [hsubset, Option.map_some, own_eq hsubset, size_toDFA, List.getElem?_range hn]
    rfl
  · have hle : (explored a).subsets.size ≤ n :=
      (invariant_explored a).size_subsets ▸ Nat.le_of_not_lt hn
    rw [Array.getElem?_eq_none hle, size_toDFA, List.getElem?_eq_none]
    · rfl
    · simpa using hn

-- Moves and final states added one by one, in any order and any number of times.
theorem sameParts_foldl {d : DFA} (hd : Automaton.WellFormed d) {es : List (Edge Char)}
    {ps : List State} (hes : ∀ e, e ∈ es ↔ e ∈ d.moves.edges) (hps : ∀ p, p ∈ ps ↔ p ∈ d.finals) :
    Automaton.SameParts
      (ps.foldl Automaton.addFinal (es.foldl Automaton.addMove (.blank d.size)) : NFA) d := by
  have hvalid : Document.Valid ⟨.nfa, d.size, ps, es⟩ :=
    Document.valid_nfa (fun p hp => hd.finals_valid p ((hps p).mp hp))
      fun e he => hd.moves_valid e ((hes e).mp he)
  have hdescribes := hvalid.describes
  exact {
    size := hdescribes.size
    mem_finals := fun p => (hdescribes.mem_finals p).trans (hps p)
    mem_edges := fun e => (hdescribes.mem_edges e).trans (hes e) }

-- Whoever takes down the states and moves of a determinized automaton and determinizes what is
-- read back gets the automaton as it was, also in the order in which the moves were written.
theorem determinize_rebuilt (a : NFA) {es : List (Edge Char)} {ps : List State}
    (hes : ∀ e, e ∈ es ↔ e ∈ (determinize a).dfa.moves.edges)
    (hps : ∀ p, p ∈ ps ↔ p ∈ (determinize a).dfa.finals) :
    let d := (determinize a).dfa
    let m : NFA := ps.foldl Automaton.addFinal (es.foldl Automaton.addMove (.blank d.size))
    (determinize m).dfa = d ∧ (determinize m).subsets = d.states.map Ascending.singleton :=
  determinize_of_sameParts (sameParts_foldl (wellFormed_toDFA a) hes hps)

-- All moves of the nested stars' automaton, last first.
theorem determinize_rebuilt_star :
    let d := (determinize (Regex.toNFA (.star (.star (.literal 'a'))))).dfa
    let m : NFA := d.finals.toList.foldl Automaton.addFinal
      (d.moves.edges.toList.reverse.foldl Automaton.addMove (.blank d.size))
    (determinize m).dfa = d ∧ (determinize m).subsets = d.states.map Ascending.singleton :=
  determinize_rebuilt _ (fun _ => List.mem_reverse) (fun _ => Std.ExtTreeSet.mem_toList)

end NFA

end FiniteAutomata
