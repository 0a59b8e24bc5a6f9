import FiniteAutomata.Proofs.Exploration
import Mathlib.Data.Finset.Card

/-!
Deterministic automata under both engines. The engine that keeps sets of states is, on a
deterministic automaton, in the states that walks from the given ones end in
(`DFA.mem_foldl_step`). So walking decides the language of the machine too, and either engine
decides the language of the automata it is made for (`Automaton.accepts_iff_mem_language`). Words
that are told apart by what follows them end in different states, so that there are at least as
many states as such words (`DFA.card_le_size`).
-/

namespace FiniteAutomata

theorem Automaton.WellFormed.toNFA {k : Kind} {a : Automaton k} (h : a.WellFormed) :
    a.toNFA.WellFormed where
  size_pos := h.size_pos
  finals_valid := h.finals_valid
  moves_valid := h.moves_valid
  not_silent := nofun
  target_unique := nofun

namespace DFA

variable {a : DFA} {ps : List State} {s : Ascending State} {p q : State} {c : Char}
  {word : List Char}

-- There are no silent moves.
theorem mem_closure (h : Automaton.WellFormed a) :
    q ∈ Automaton.closure a ps ↔ q ∈ ps ∧ Automaton.Valid a q :=
  Automaton.mem_closure_of_not_silent (h.not_silent rfl)

theorem mem_step (h : Automaton.WellFormed a) :
    q ∈ Automaton.step a s c ↔ ∃ p ∈ s, move? a p c = some q := by
  simp only [Automaton.mem_step_of_not_silent h (h.not_silent rfl), move?_eq_some_iff h]

theorem walk?_cons_eq_some :
    walk? a p (c :: word) = some q ↔ ∃ r, move? a p c = some r ∧ walk? a r word = some q := by
  rw [walk?]
  cases move? a p c <;> simp

theorem walk?_append {front : List Char} :
    walk? a p (front ++ word) = (walk? a p front).bind fun q => walk? a q word := by
  induction front generalizing p with
  | nil => rfl
  | cons c front ih =>
      simp only [List.cons_append, walk?]
      cases move? a p c with
      | none => rfl
      | some r => exact ih

theorem valid_of_walk? (h : Automaton.WellFormed a) (hp : Automaton.Valid a p)
    (hwalk : walk? a p word = some q) : Automaton.Valid a q := by
  induction word generalizing p with
  | nil => exact Option.some.inj hwalk ▸ hp
  | cons c word ih =>
      obtain ⟨r, hmove, hwalk⟩ := walk?_cons_eq_some.mp hwalk
      exact ih (h.moves_valid _ ((move?_eq_some_iff h).mp hmove)).2 hwalk

-- A state is reached over a word where a walk from one of the given states ends.
theorem mem_foldl_step (h : Automaton.WellFormed a) :
    q ∈ word.foldl (Automaton.step a) s ↔ ∃ p ∈ s, walk? a p word = some q := by
  induction word generalizing s with
  | nil => simp [walk?]
  | cons c word ih =>
      simp only [List.foldl_cons, ih, mem_step h, walk?_cons_eq_some]
      constructor
      · intro hq
        obtain ⟨r, ⟨p, hp, hr⟩, hwalk⟩ := hq
        exact ⟨p, hp, r, hr, hwalk⟩
      · intro hq
        obtain ⟨p, hp, r, hr, hwalk⟩ := hq
        exact ⟨r, ⟨p, hp, hr⟩, hwalk⟩

theorem accepts_iff_exists_walk? :
    accepts a word = true ↔ ∃ q, walk? a 0 word = some q ∧ Automaton.isFinal a q = true := by
  rw [accepts]
  cases walk? a 0 word <;> simp

theorem accepts_iff_mem_language (h : Automaton.WellFormed a) :
    accepts a word = true ↔ word ∈ Automaton.language a := by
  have hzero := h.valid_zero
  have hlanguage : Automaton.language (Automaton.toNFA a) = Automaton.language a := rfl
  have hreached : NFA.reached (Automaton.toNFA a) word =
      word.foldl (Automaton.step a) (Automaton.closure a [0]) := rfl
  rw [← hlanguage, ← NFA.accepts_iff_mem_language h.toNFA, NFA.accepts_eq_hasFinal,
    Automaton.hasFinal_iff, hreached, accepts_iff_exists_walk?]
  apply exists_congr
  intro q
  have hfinal : Automaton.isFinal (Automaton.toNFA a) q = Automaton.isFinal a q := rfl
  rw [hfinal, mem_foldl_step h]
  simp [mem_closure h, hzero]

-- Every word can be continued to one that is accepted, and no two words have the same such
-- continuations. Then no two of them end in the same state.
theorem card_le_size {ι : Type} {ts : Finset ι} (h : Automaton.WellFormed a)
    (start : ι → List Char) (haccepted : ∀ t ∈ ts, ∃ rest, accepts a (start t ++ rest) = true)
    (hdistinct : ∀ t ∈ ts, ∀ u ∈ ts,
      (∀ rest, accepts a (start t ++ rest) = accepts a (start u ++ rest)) → t = u) :
    ts.card ≤ a.size := by
  have hwalk : ∀ t ∈ ts, ∃ q, walk? a 0 (start t) = some q := by
    intro t ht
    obtain ⟨rest, hrest⟩ := haccepted t ht
    obtain ⟨r, hr, -⟩ := accepts_iff_exists_walk?.mp hrest
    rw [walk?_append] at hr
    obtain ⟨q, hq, -⟩ := Option.bind_eq_some_iff.mp hr
    exact ⟨q, hq⟩
  let stop (t : ι) : State := (walk? a 0 (start t)).getD 0
  have hstop : ∀ t ∈ ts, walk? a 0 (start t) = some (stop t) := by
    intro t ht
    obtain ⟨q, hq⟩ := hwalk t ht
    simp only [stop, hq, Option.getD_some]
  have hmaps : ∀ t ∈ ts, stop t ∈ (Automaton.states a).toFinset := by
    intro t ht
    have hvalid := valid_of_walk? h h.valid_zero (hstop t ht)
    exact List.mem_toFinset.mpr (Automaton.mem_states.mpr hvalid)
  have hinj : Set.InjOn stop ts := by
    intro t ht u hu heq
    apply hdistinct t ht u hu
    intro rest
    simp only [accepts, walk?_append, hstop t ht, hstop u hu, heq]
  calc ts.card
      ≤ (Automaton.states a).toFinset.card := Finset.card_le_card_of_injOn stop hmaps hinj
    _ ≤ (Automaton.states a).length := List.toFinset_card_le _
    _ = a.size := by simp [Automaton.states]

end DFA

theorem Automaton.accepts_iff_mem_language {k : Kind} {a : Automaton k} (h : a.WellFormed)
    {word : List Char} : a.accepts word = true ↔ word ∈ a.language := by
  cases k with
  | nfa => exact NFA.accepts_iff_mem_language h
  | dfa => exact DFA.accepts_iff_mem_language h

end FiniteAutomata
