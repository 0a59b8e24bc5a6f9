import FiniteAutomata.Proofs.SameParts
import FiniteAutomata.Proofs.WellFormed

/-!
The order of building. An automaton is built by calls that add a move or a final state; a call that
names a state which does not exist adds nothing. What the calls add is known from which calls there
are (`NFA.Builds`), one step at a time (`NFA.Call.builds`) and for whole lists
(`NFA.exists_builds`). So two lists with the same calls build automata that look alike however they
are shown; only the order of their keys can differ (`NFA.looksLike_of_same_calls`).
-/

namespace FiniteAutomata

namespace MoveRelation

variable {σ : Type} [Ord σ] [Std.TransOrd σ] [Std.LawfulEqOrd σ]

-- A new key stands behind all others.
theorem keys_add_of_not_mem {r : MoveRelation σ} {e : Edge σ} (h : e.key ∉ r.keys) :
    (r.add e).keys = r.keys ++ [e.key] := by
  rw [keys_add, if_neg (mt mem_keys_iff_mem_table.mpr h)]

theorem keys_add_add {d e : Edge σ} (h : d.key ≠ e.key) :
    (((∅ : MoveRelation σ).add d).add e).keys = [d.key, e.key] := by
  have hempty : (∅ : MoveRelation σ).keys = [] := rfl
  have hfirst : ((∅ : MoveRelation σ).add d).keys = [d.key] := by
    rw [keys_add_of_not_mem (by simp [hempty]), hempty, List.nil_append]
  have hnew : e.key ∉ ((∅ : MoveRelation σ).add d).keys := by
    rw [hfirst, List.mem_singleton]
    exact h.symm
  rw [keys_add_of_not_mem hnew, hfirst]
  rfl

end MoveRelation

namespace Automaton

variable {k : Kind}

-- Two automata that are equal and cannot be told apart by any text that shows them.
structure LooksLike (a b : Automaton k) : Prop where
  finals : a.finals = b.finals
  sameMoves : a.moves.sameMoves b.moves = true
  edges : a.moves.edges.toList = b.moves.edges.toList
  summary : a.summary = b.summary
  moves_summary : a.moves.summary = b.moves.summary
  toText? : ∀ indent,
    (Document.ofAutomaton a).toText? indent = (Document.ofAutomaton b).toText? indent
  drawing : ∀ name o, Drawing.render? a name o = Drawing.render? b name o
  table : ∀ silentLabel, Table.render a silentLabel = Table.render b silentLabel

theorem SameParts.looksLike {a b : Automaton k} (h : a.SameParts b) : a.LooksLike b where
  finals := h.finals_eq
  sameMoves := by simp [MoveRelation.sameMoves, h.edges_eq]
  edges := congrArg Ascending.toList h.edges_eq
  summary := h.summary_eq
  moves_summary := MoveRelation.summary_eq_of_edges_eq h.edges_eq
  toText? indent := by rw [h.ofAutomaton_eq]
  drawing name o := by simp only [Drawing.render?, h.drawing_eq]
  table := h.table_eq

@[simp] theorem size_addMove (a : NFA) (e : Edge Char) : (a.addMove e).size = a.size := by
  unfold addMove addMove?
  split <;> rfl

@[simp] theorem finals_addMove (a : NFA) (e : Edge Char) : (a.addMove e).finals = a.finals := by
  unfold addMove addMove?
  split <;> rfl

theorem moves_addMove {a : NFA} {e : Edge Char} (hsource : a.Valid e.source)
    (htarget : a.Valid e.target) : (a.addMove e).moves = a.moves.add e := by
  simp [addMove, addMove?, hsource, htarget]

theorem mem_edges_addMove {a : NFA} {d e : Edge Char} :
    d ∈ (a.addMove e).moves.edges ↔
      d = e ∧ a.Valid e.source ∧ a.Valid e.target ∨ d ∈ a.moves.edges := by
  unfold addMove addMove?
  by_cases he : a.Valid e.source ∧ a.Valid e.target
  · simp [he]
  · simp [he]

end Automaton

namespace NFA

inductive Call where
  | move (p : State) (s : Symbol) (q : State)
  | final (p : State)

namespace Call

-- The symbol, if there is one, is a label. The states need not exist.
def WellFormed : Call → Prop
  | move _ s _ => ∃ l, s.label? = .ok l
  | final _ => True

-- A call that is refused leaves the automaton as it is.
def perform? (a : NFA) : Call → Except Automaton.Error NFA
  | move p s q => (Automaton.writeMove? a p s q).map fun changed => changed.getD a
  | final p => .ok (Automaton.addFinal a p)

end Call

-- The automaton of `n` states after some calls.
def build? (n : Int) (cs : List Call) : Except Automaton.Error NFA := do
  cs.foldlM Call.perform? (← Automaton.ofSize? n)

-- Some call asks for the move.
def Asked (cs : List Call) (e : Edge Char) : Prop :=
  ∃ s, .move e.source s e.target ∈ cs ∧ s.label? = .ok e.label

-- The calls lead from `a` to `b`: what they ask for is there if its states exist, and nothing else
-- is new.
structure Builds (cs : List Call) (a b : NFA) : Prop where
  size : b.size = a.size
  mem_finals : ∀ p, p ∈ b.finals ↔ .final p ∈ cs ∧ Automaton.Valid a p ∨ p ∈ a.finals
  mem_edges : ∀ e, e ∈ b.moves.edges ↔
    Asked cs e ∧ Automaton.Valid a e.source ∧ Automaton.Valid a e.target ∨ e ∈ a.moves.edges

variable {a b : NFA} {c : Call} {cs ds : List Call}

theorem asked_cons {e : Edge Char} : Asked (c :: cs) e ↔ Asked [c] e ∨ Asked cs e := by
  simp only [Asked, List.mem_cons, List.not_mem_nil, or_false, or_and_right, exists_or]

theorem builds_nil (a : NFA) : Builds [] a a where
  size := rfl
  mem_finals p := by simp
  mem_edges e := by simp [Asked]

theorem Call.perform?_move {p q : State} {s : Symbol} {l : Label} (hs : s.label? = .ok l) (a : NFA) :
    (move p s q).perform? a = .ok (Automaton.addMove a ⟨p, l, q⟩) := by
  simp only [Call.perform?, Automaton.writeMove?, hs]
  rfl

-- What one call adds.
theorem Call.builds (hc : c.WellFormed) (a : NFA) : ∃ b, c.perform? a = .ok b ∧ Builds [c] a b := by
  cases c with
  | final p =>
      refine ⟨_, rfl, ?_, fun q => ?_, fun e => ?_⟩
      · simp
      · rw [Automaton.mem_finals_addFinal]
        by_cases hq : q = p <;> simp [hq]
      · simp [Asked]
  | move p s q =>
      obtain ⟨l, hl⟩ := hc
      have hasked : ∀ e, Asked [move p s q] e ↔ e = ⟨p, l, q⟩ := by
        intro e
        obtain ⟨p', l', q'⟩ := e
        simp only [Asked, List.mem_singleton, Call.move.injEq, Edge.mk.injEq]
        constructor
        · rintro ⟨s', ⟨hp, hs, hq⟩, hl'⟩
          rw [hs, hl] at hl'
          exact ⟨hp, (Except.ok.inj hl').symm, hq⟩
        · rintro ⟨hp, rfl, hq⟩
          exact ⟨s, ⟨hp, rfl, hq⟩, hl⟩
      refine ⟨_, perform?_move hl a, ?_, fun q => ?_, fun e => ?_⟩
      · simp
      · simp
      · rw [Automaton.mem_edges_addMove, hasked]
        by_cases he : e = ⟨p, l, q⟩ <;> simp [he]

-- The first call does not change which states there are.
theorem Builds.cons {m : NFA} (hc : Builds [c] a m) (hcs : Builds cs m b) : Builds (c :: cs) a b := by
  have hvalid : ∀ p, Automaton.Valid m p ↔ Automaton.Valid a p := by
    simp [Automaton.Valid, hc.size]
  refine ⟨hcs.size.trans hc.size, fun p => ?_, fun e => ?_⟩
  · rw [hcs.mem_finals, hc.mem_finals, hvalid, List.mem_singleton, List.mem_cons, or_and_right,
      or_assoc]
    exact or_left_comm
  · have hasked : Asked (c :: cs) e ↔ Asked [c] e ∨ Asked cs e := asked_cons
    rw [hcs.mem_edges, hc.mem_edges, hvalid, hvalid, hasked, or_and_right, or_assoc]
    exact or_left_comm

theorem exists_builds (hcs : ∀ c ∈ cs, c.WellFormed) (a : NFA) :
    ∃ b, cs.foldlM Call.perform? a = .ok b ∧ Builds cs a b := by
  induction cs generalizing a with
  | nil => exact ⟨a, rfl, builds_nil a⟩
  | cons c cs ih =>
      obtain ⟨hc, hcs⟩ := List.forall_mem_cons.mp hcs
      obtain ⟨m, hm, hfirst⟩ := Call.builds hc a
      obtain ⟨b, hb, hrest⟩ := ih hcs m
      refine ⟨b, ?_, hfirst.cons hrest⟩
      rw [List.foldlM_cons, hm]
      exact hb

theorem build?_eq {n : Int} (hn : 1 ≤ n) (cs : List Call) :
    build? n cs = cs.foldlM Call.perform? (.blank n.toNat) := by
  have hblank : (Automaton.ofSize? n : Except Automaton.Error NFA) = .ok (.blank n.toNat) := by
    rw [Automaton.ofSize?, if_neg (by omega)]
  rw [build?, hblank]
  rfl

theorem Builds.sameParts {start : NFA} (ha : Builds cs start a) (hb : Builds ds start b)
    (h : ∀ c, c ∈ cs ↔ c ∈ ds) : Automaton.SameParts a b where
  size := ha.size.trans hb.size.symm
  mem_finals p := by rw [ha.mem_finals, hb.mem_finals, h]
  mem_edges e := by
    have hasked : Asked cs e ↔ Asked ds e := by simp only [Asked, h]
    rw [ha.mem_edges, hb.mem_edges, hasked]

-- Two loops at state 0, of which the one written first has the first key.
theorem exists_build?_loops {n : Int} (hn : 1 ≤ n) {s t : Symbol} {l m : Label}
    (hs : s.label? = .ok l) (ht : t.label? = .ok m) (hne : l ≠ m) :
    ∃ a, build? n [.move 0 s 0, .move 0 t 0] = .ok a ∧ a.moves.keys = [⟨0, l⟩, ⟨0, m⟩] := by
  have hzero : ∀ a : NFA, a.size = n.toNat → Automaton.Valid a 0 := by
    intro a ha
    rw [Automaton.valid_iff, ha]
    omega
  let blank : NFA := .blank n.toNat
  let first := Automaton.addMove blank ⟨0, l, 0⟩
  have hbuild : build? n [.move 0 s 0, .move 0 t 0] = .ok (first.addMove ⟨0, m, 0⟩) := by
    rw [build?_eq hn, List.foldlM_cons, Call.perform?_move hs]
    refine bind_eq_ok.mpr ⟨first, rfl, ?_⟩
    rw [List.foldlM_cons, Call.perform?_move ht]
    rfl
  have hblank : Automaton.Valid blank 0 := hzero blank rfl
  have hfirst : Automaton.Valid first 0 := hzero first (Automaton.size_addMove _ _)
  refine ⟨_, hbuild, ?_⟩
  rw [Automaton.moves_addMove hfirst hfirst, Automaton.moves_addMove hblank hblank]
  apply MoveRelation.keys_add_add
  simpa [Edge.key] using hne

-- The same calls, in any order and any number of times, build automata that look alike. Yet the
-- order of the keys is that of the calls.
theorem looksLike_of_same_calls {n : Int} (hn : 1 ≤ n) :
    (∀ cs ds : List Call, (∀ c ∈ cs, c.WellFormed) → (∀ c, c ∈ cs ↔ c ∈ ds) →
      ∃ a b, build? n cs = .ok a ∧ build? n ds = .ok b ∧ Automaton.LooksLike a b) ∧
    ∃ cs ds : List Call, (∀ c ∈ cs, c.WellFormed) ∧ (∀ c, c ∈ cs ↔ c ∈ ds) ∧
      ∃ a b, build? n cs = .ok a ∧ build? n ds = .ok b ∧ a.moves.keys ≠ b.moves.keys := by
  constructor
  · intro cs ds hcs hsame
    have hds : ∀ c ∈ ds, c.WellFormed := fun c hc => hcs c ((hsame c).mpr hc)
    obtain ⟨a, ha, hbuildsa⟩ := exists_builds hcs (.blank n.toNat)
    obtain ⟨b, hb, hbuildsb⟩ := exists_builds hds (.blank n.toNat)
    rw [build?_eq hn, build?_eq hn]
    exact ⟨a, b, ha, hb, (hbuildsa.sameParts hbuildsb hsame).looksLike⟩
  · have hsilent : Symbol.silent.label? = .ok none := rfl
    have hreading : (Symbol.text "a").label? = .ok (some 'a') := rfl
    obtain ⟨a, ha, hkeysa⟩ := exists_build?_loops hn hsilent hreading nofun
    obtain ⟨b, hb, hkeysb⟩ := exists_build?_loops hn hreading hsilent nofun
    refine ⟨_, _, ?_, ?_, a, b, ha, hb, ?_⟩
    · intro c hc
      simp only [List.mem_cons, List.not_mem_nil, or_false] at hc
      rcases hc with rfl | rfl
      · exact ⟨_, hsilent⟩
      · exact ⟨_, hreading⟩
    · intro c
      simp only [List.mem_cons, List.not_mem_nil, or_false]
      exact or_comm
    · rw [hkeysa, hkeysb]
      decide

-- The calls from the back, with one of them twice. One of them names a state that does not exist.
theorem looksLike_of_same_calls_reversed :
    let cs : List Call := [.move 0 .silent 1, .move 1 (.text "a") 2, .move 3 .silent 0, .final 2]
    ∃ a b, build? 3 cs = .ok a ∧ build? 3 (.final 2 :: cs.reverse) = .ok b ∧
      Automaton.LooksLike a b := by
  intro cs
  have hcs : ∀ c ∈ cs, c.WellFormed := by
    simp [cs, Call.WellFormed, Symbol.label?]
  have hsame : ∀ c, c ∈ cs ↔ c ∈ .final 2 :: cs.reverse := by
    intro c
    have hfinal : .final 2 ∈ cs := by simp [cs]
    have hmore : c ∈ .final 2 :: cs.reverse ↔ c = .final 2 ∨ c ∈ cs := by
      rw [List.mem_cons, List.mem_reverse]
    rw [hmore]
    exact ⟨Or.inr, fun h => h.elim (fun heq => heq ▸ hfinal) id⟩
  exact (looksLike_of_same_calls (by decide)).1 cs _ hcs hsame

end NFA

end FiniteAutomata
