import FiniteAutomata.Proofs.DocumentFields
import FiniteAutomata.Proofs.WellFormed

/-!
Documents as data. The rules for whole documents (`Document.Valid`) are those that are checked
(`check_eq_ok`), and the automaton of a document that keeps them has its states, final states
and moves, no more and no fewer (`Valid.describes`).
-/

namespace FiniteAutomata.Document

theorem states_pos_of_ofJson {value : Json} {d : Document} (h : ofJson value = .ok d) :
    0 < d.states := by
  obtain ⟨members, rfl, hshows⟩ := ofJson_eq_ok.mp h
  exact hshows.states_pos

-- Whole documents

-- What is asked of a document as a whole.
structure Valid (d : Document) : Prop where
  finals_inRange : ∀ p ∈ d.finals, InRange d.states p
  source_inRange : ∀ e ∈ d.moves, InRange d.states e.source
  target_inRange : ∀ e ∈ d.moves, InRange d.states e.target
  not_silent : d.kind = .dfa → ∀ e ∈ d.moves, e.label ≠ none
  nodup_keys : d.kind = .dfa → (d.moves.map Edge.key).Nodup

theorem valid_nfa {n : Nat} {ps : List State} {es : List (Edge Char)}
    (hps : ∀ p ∈ ps, InRange n p) (hes : ∀ e ∈ es, InRange n e.source ∧ InRange n e.target) :
    Valid ⟨.nfa, n, ps, es⟩ where
  finals_inRange := hps
  source_inRange e he := (hes e he).1
  target_inRange e he := (hes e he).2
  not_silent := nofun
  nodup_keys := nofun

theorem brokenByMove?_eq_none {kind : Kind} {n : Nat} {seen : Std.ExtTreeSet (Key Char)}
    {e : Edge Char} :
    brokenByMove? kind n seen e = none ↔ InRange n e.source ∧ InRange n e.target ∧
      (kind = .dfa → e.label ≠ none ∧ e.key ∉ seen) := by
  unfold brokenByMove?
  by_cases hsource : InRange n e.source
  · by_cases htarget : InRange n e.target
    · cases kind with
      | nfa => simp [hsource, htarget]
      | dfa => cases hlabel : e.label <;> simp [hsource, htarget]
    · simp [hsource, htarget]
  · simp [hsource]

-- Each move is looked at after those before it, so no key may come back.
theorem brokenByMoves?_eq_none {kind : Kind} {n : Nat} {seen : Std.ExtTreeSet (Key Char)}
    {es : List (Edge Char)} :
    brokenByMoves? kind n seen es = none ↔
      (∀ e ∈ es, InRange n e.source ∧ InRange n e.target ∧
        (kind = .dfa → e.label ≠ none ∧ e.key ∉ seen)) ∧
      (kind = .dfa → (es.map Edge.key).Nodup) := by
  induction es generalizing seen with
  | nil => simp [brokenByMoves?]
  | cons e es ih =>
      have hinsert : ∀ f : Edge Char, f.key ∉ seen.insert e.key ↔ e.key ≠ f.key ∧ f.key ∉ seen := by
        intro f
        rw [Std.ExtTreeSet.mem_insert, Std.compare_eq_iff_eq, not_or]
      have hcons : brokenByMoves? kind n seen (e :: es) = none ↔
          brokenByMove? kind n seen e = none ∧
            brokenByMoves? kind n (seen.insert e.key) es = none := by
        rw [brokenByMoves?]
        cases brokenByMove? kind n seen e <;> simp
      rw [hcons, brokenByMove?_eq_none, ih, List.forall_mem_cons, List.map_cons, List.nodup_cons]
      simp only [hinsert]
      constructor
      · rintro ⟨he, hes, hnodup⟩
        refine ⟨⟨he, fun f hf => ?_⟩, fun hk => ⟨fun hmem => ?_, hnodup hk⟩⟩
        · obtain ⟨hsource, htarget, hkey⟩ := hes f hf
          exact ⟨hsource, htarget, fun hk => ⟨(hkey hk).1, (hkey hk).2.2⟩⟩
        · obtain ⟨f, hf, heq⟩ := List.mem_map.mp hmem
          exact ((hes f hf).2.2 hk).2.1 heq.symm
      · rintro ⟨⟨he, hes⟩, hnodup⟩
        refine ⟨he, fun f hf => ?_, fun hk => (hnodup hk).2⟩
        obtain ⟨hsource, htarget, hkey⟩ := hes f hf
        refine ⟨hsource, htarget, fun hk => ⟨(hkey hk).1, fun heq => ?_, (hkey hk).2⟩⟩
        exact (hnodup hk).1 (List.mem_map.mpr ⟨f, hf, heq.symm⟩)

theorem broken?_eq_none {d : Document} : d.broken? = none ↔ d.Valid := by
  have hfinals : (d.finals.find? fun p => ¬ InRange d.states p) = none ↔
      ∀ p ∈ d.finals, InRange d.states p := by simp
  have hnone : d.broken? = none ↔ (∀ p ∈ d.finals, InRange d.states p) ∧
      brokenByMoves? d.kind d.states ∅ d.moves = none := by
    rw [← hfinals, broken?]
    cases d.finals.find? fun p => ¬ InRange d.states p <;> simp
  rw [hnone, brokenByMoves?_eq_none]
  constructor
  · rintro ⟨hfinals, hmoves, hnodup⟩
    exact {
      finals_inRange := hfinals
      source_inRange := fun e he => (hmoves e he).1
      target_inRange := fun e he => (hmoves e he).2.1
      not_silent := fun hk e he => ((hmoves e he).2.2 hk).1
      nodup_keys := hnodup }
  · intro h
    refine ⟨h.finals_inRange, fun e he => ⟨h.source_inRange e he, h.target_inRange e he, ?_⟩,
      h.nodup_keys⟩
    exact fun hk => ⟨h.not_silent hk e he, Std.ExtTreeSet.not_mem_empty⟩

theorem check_eq_ok {d e : Document} : d.check = .ok e ↔ d.Valid ∧ d = e := by
  rw [← broken?_eq_none, check]
  cases d.broken? <;> simp [Checked.fail]

theorem states_pos_of_ofJson? {value : Option Json} {d : Document} (h : ofJson? value = .ok d) :
    0 < d.states := by
  cases value with
  | none => exact nomatch h
  | some value =>
      obtain ⟨e, hread, hcheck⟩ := bind_eq_ok.mp (mapError_eq_ok.mp h)
      cases (check_eq_ok.mp hcheck).2
      exact states_pos_of_ofJson hread

theorem states_pos_of_ofText? {text : String} {d : Document} (h : ofText? text = .ok d) :
    0 < d.states := states_pos_of_ofJson? h

theorem states_pos_of_ofBytes? {bytes : ByteArray} {d : Document} (h : ofBytes? bytes = .ok d) :
    0 < d.states := states_pos_of_ofJson? h

-- What a document describes

theorem wellFormed_toAutomaton {d : Document} (h : 0 < d.states) :
    d.toAutomaton.automaton.WellFormed := by
  unfold toAutomaton
  split
  · have hblank := Automaton.wellFormed_blank (k := .nfa) h
    exact (List.foldlRecOn d.moves Automaton.addMove hblank
      fun _ hb e _ => hb.addMove e).foldl_addFinal d.finals
  · have hblank := Automaton.wellFormed_blank (k := .dfa) h
    refine (List.foldlRecOn d.moves _ hblank fun b hb e _ => ?_).foldl_addFinal d.finals
    cases hl : e.label with
    | none => simpa [hl] using hb
    | some c => simpa [hl] using hb.setMove e.source c e.target

-- The automaton has what the document lists, and nothing else.
structure Describes {k : Kind} (d : Document) (a : Automaton k) : Prop where
  kind : d.kind = k
  size : a.size = d.states
  mem_finals : ∀ p, p ∈ a.finals ↔ p ∈ d.finals
  mem_edges : ∀ e, e ∈ a.moves.edges ↔ e ∈ d.moves

-- These moves have been written, and nothing else has changed.
structure Gains {k : Kind} (es : List (Edge Char)) (a b : Automaton k) : Prop where
  size : b.size = a.size
  finals : b.finals = a.finals
  mem_edges : ∀ e, e ∈ b.moves.edges ↔ e ∈ es ∨ e ∈ a.moves.edges

-- In a deterministic automaton a move is new if its key is.
def Fresh {k : Kind} (a : Automaton k) (e : Edge Char) : Prop :=
  k = .dfa → ∀ f ∈ a.moves.edges, f.key ≠ e.key

theorem gains_addMove {a : NFA} {e : Edge Char} (hsource : Automaton.Valid a e.source)
    (htarget : Automaton.Valid a e.target) : Gains [e] a (a.addMove e) := by
  rw [Automaton.addMove, Automaton.addMove?, if_pos ⟨hsource, htarget⟩]
  exact ⟨rfl, rfl, fun f => by simp⟩

-- Setting a move loses none, because its key is new.
theorem gains_setMove {a : DFA} {e : Edge Char} {c : Char} (hlabel : e.label = some c)
    (hsource : Automaton.Valid a e.source) (htarget : Automaton.Valid a e.target)
    (hfresh : Fresh a e) : Gains [e] a (a.setMove e.source c e.target) := by
  have hmove : (⟨e.source, some c, e.target⟩ : Edge Char) = e := by rw [← hlabel]
  rw [Automaton.setMove, Automaton.setMove?, if_pos ⟨hsource, htarget⟩, hmove]
  refine ⟨rfl, rfl, fun f => ?_⟩
  rw [Option.getD_some, MoveRelation.mem_edges_replace, List.mem_singleton]
  exact or_congr_right (and_iff_left_of_imp (hfresh rfl f))

-- Writing all moves writes each, if each is written where it is fresh.
theorem gains_foldl {k : Kind} {step : Automaton k → Edge Char → Automaton k} {a : Automaton k}
    {es : List (Edge Char)}
    (hstep : ∀ e ∈ es, ∀ b : Automaton k, b.size = a.size → Fresh b e → Gains [e] b (step b e))
    (hfresh : ∀ e ∈ es, Fresh a e) (hnodup : k = .dfa → (es.map Edge.key).Nodup) :
    Gains es a (es.foldl step a) := by
  induction es generalizing a with
  | nil => exact ⟨rfl, rfl, fun e => by simp⟩
  | cons e es ih =>
      obtain ⟨he, hes⟩ := List.forall_mem_cons.mp hstep
      obtain ⟨hefresh, hesfresh⟩ := List.forall_mem_cons.mp hfresh
      have hfirst := he a rfl hefresh
      have hrest : Gains es (step a e) (es.foldl step (step a e)) := by
        refine ih (fun f hf b hb => hes f hf b (hb.trans hfirst.size)) ?_ ?_
        · intro f hf hk g hg
          rcases (hfirst.mem_edges g).mp hg with hg | hg
          · rw [List.mem_singleton.mp hg]
            intro heq
            have hnotin := (List.nodup_cons.mp (hnodup hk)).1
            exact hnotin (List.mem_map.mpr ⟨f, hf, heq.symm⟩)
          · exact hesfresh f hf hk g hg
        · exact fun hk => (List.nodup_cons.mp (hnodup hk)).2
      refine ⟨hrest.size.trans hfirst.size, hrest.finals.trans hfirst.finals, fun f => ?_⟩
      rw [List.foldl_cons, hrest.mem_edges, hfirst.mem_edges, List.mem_singleton, List.mem_cons,
        or_left_comm, or_assoc]

theorem InRange.valid {k : Kind} {a : Automaton k} {n : Nat} {p : State} (hp : InRange n p)
    (ha : a.size = n) : a.Valid p := by
  rw [Automaton.Valid, ha]
  exact hp

theorem describes_of_gains {k : Kind} {d : Document} {a : Automaton k} (h : d.Valid)
    (hk : d.kind = k) (ha : Gains d.moves (.blank d.states) a) :
    d.Describes (d.finals.foldl Automaton.addFinal a) where
  kind := hk
  size := (Automaton.size_foldl_addFinal a d.finals).trans ha.size
  mem_finals p := by
    have hnone : p ∉ a.finals := by
      rw [ha.finals]
      exact Std.ExtTreeSet.not_mem_empty
    rw [Automaton.mem_finals_foldl_addFinal, or_iff_left hnone]
    exact and_iff_left_of_imp fun hp => (h.finals_inRange p hp).valid ha.size
  mem_edges e := by
    rw [Automaton.moves_foldl_addFinal, ha.mem_edges]
    exact or_iff_left MoveRelation.mem_edges_empty

theorem Valid.describes {d : Document} (h : d.Valid) : d.Describes d.toAutomaton.automaton := by
  have hfresh : ∀ {k : Kind}, ∀ e ∈ d.moves, Fresh (.blank d.states : Automaton k) e :=
    fun _ _ _ f hf => absurd hf MoveRelation.mem_edges_empty
  unfold toAutomaton
  split
  · rename_i hk
    refine describes_of_gains h hk (gains_foldl (fun e he b hb _ => ?_) hfresh nofun)
    exact gains_addMove ((h.source_inRange e he).valid hb) ((h.target_inRange e he).valid hb)
  · rename_i hk
    refine describes_of_gains h hk (gains_foldl (fun e he b hb hf => ?_) hfresh
      fun _ => h.nodup_keys hk)
    have hsource : b.Valid e.source := (h.source_inRange e he).valid hb
    have htarget : b.Valid e.target := (h.target_inRange e he).valid hb
    cases hlabel : e.label with
    | none => exact absurd hlabel (h.not_silent hk e he)
    | some c => simpa only [hlabel] using gains_setMove hlabel hsource htarget hf

end FiniteAutomata.Document
