import FiniteAutomata.Proofs.FragmentLanguage
import FiniteAutomata.Proofs.Trail

/-!
The shape of compiled automata. Nothing enters the start, nothing leaves the last state, which is
the only final one, and every state either branches silently at most twice or reads on to one
other state (`Automaton.IsThompson`). Each way of building fragments keeps this, because the states
of a copy keep their moves and only its accept state gets new ones (`Fragment.Copy.branches`). In
the same way all states stay on paths from the start to the end (`Automaton.IsTrim`), unless some
set of characters is empty. So the automaton of an expression has this shape, and as many states as
the expression counts (`Regex.isThompson_toNFA`).
-/

namespace FiniteAutomata

variable {k : Kind}

namespace Automaton

variable {a : Automaton k} {p q r : State}

-- The moves that leave a state.
def movesFrom (a : Automaton k) (p : State) : List (Edge Char) :=
  a.moves.edges.toList.filter (·.source = p)

-- At most two moves leave the state, and they are silent.
def Forks (a : Automaton k) (p : State) : Prop :=
  (∀ e ∈ a.movesFrom p, e.label = none) ∧ (a.movesFrom p).length ≤ 2

-- All moves that leave the state read a character, and they lead to the same state.
def Reads (a : Automaton k) (p : State) : Prop :=
  ∃ q, ∀ e ∈ a.movesFrom p, e.label ≠ none ∧ e.target = q

theorem mem_movesFrom {e : Edge Char} : e ∈ a.movesFrom p ↔ e ∈ a.moves.edges ∧ e.source = p := by
  rw [movesFrom, List.mem_filter, decide_eq_true_eq]
  rfl

-- Silent moves from one state differ in their targets.
theorem forks_iff : a.Forks p ↔
    ∃ q r, ∀ l s, ⟨p, l, s⟩ ∈ a.moves.edges → l = none ∧ (s = q ∨ s = r) := by
  constructor
  · intro h
    obtain ⟨hsilent, hlength⟩ := h
    have htwo : ∃ d e, ∀ x ∈ a.movesFrom p, x = d ∨ x = e := by
      match hmoves : a.movesFrom p, hlength with
      | [], _ => exact ⟨⟨p, none, p⟩, ⟨p, none, p⟩, by simp⟩
      | [d], _ => exact ⟨d, d, by simp⟩
      | [d, e], _ => exact ⟨d, e, by simp⟩
    obtain ⟨d, e, htwo⟩ := htwo
    refine ⟨d.target, e.target, ?_⟩
    intro l s he
    have hmem : ⟨p, l, s⟩ ∈ a.movesFrom p := mem_movesFrom.mpr ⟨he, rfl⟩
    exact ⟨hsilent _ hmem, (htwo _ hmem).imp (congrArg Edge.target) (congrArg Edge.target)⟩
  · intro h
    obtain ⟨q, r, hqr⟩ := h
    have hsubset : a.movesFrom p ⊆ [⟨p, none, q⟩, ⟨p, none, r⟩] := by
      intro e he
      obtain ⟨hmove, rfl⟩ := mem_movesFrom.mp he
      obtain ⟨hl, hs⟩ := hqr e.label e.target hmove
      cases e
      simp_all
    have hnodup : (a.movesFrom p).Nodup := (Ascending.nodup_toList _).filter _
    constructor
    · intro e he
      have hmem := hsubset he
      simp only [List.mem_cons, List.not_mem_nil, or_false] at hmem
      rcases hmem with rfl | rfl <;> rfl
    · exact (hnodup.subperm hsubset).length_le

theorem forks_of_sink (hsink : ∀ l s, ⟨p, l, s⟩ ∉ a.moves.edges) : a.Forks p :=
  forks_iff.mpr ⟨p, p, fun l s he => absurd he (hsink l s)⟩

theorem reads_iff : a.Reads p ↔ ∃ q, ∀ l s, ⟨p, l, s⟩ ∈ a.moves.edges → l ≠ none ∧ s = q := by
  refine exists_congr fun q => ?_
  constructor
  · intro h l s he
    exact h _ (mem_movesFrom.mpr ⟨he, rfl⟩)
  · intro h e he
    obtain ⟨hmove, rfl⟩ := mem_movesFrom.mp he
    exact h e.label e.target hmove

-- What a compiled automaton looks like.
structure IsThompson (a : NFA) : Prop where
  one_lt_size : 1 < a.size
  -- the last state is final and no other
  mem_finals : ∀ p, p ∈ a.finals ↔ p = (a.size : Int) - 1
  not_entered : ∀ e ∈ a.moves.edges, e.target ≠ 0
  not_left : ∀ e ∈ a.moves.edges, e.source ∉ a.finals
  branches : ∀ p, a.Valid p → a.Forks p ∨ a.Reads p

-- Some chain of moves leads from one state to the other.
def Leads (a : Automaton k) (p q : State) : Prop := ∃ es, a.Trail p es q

-- Every state lies on a path from the start to a final state.
def IsTrim (a : Automaton k) : Prop :=
  ∀ p, a.Valid p → a.Leads 0 p ∧ ∃ q, a.isFinal q = true ∧ a.Leads p q

theorem leads_iff : a.Leads p q ↔ ∃ ls, a.machine.IsPath p q ls := by
  constructor
  · intro h
    obtain ⟨es, hes⟩ := h
    exact ⟨_, hes.isPath⟩
  · intro h
    obtain ⟨ls, hpath⟩ := h
    obtain ⟨es, hes, -⟩ := exists_trail_of_isPath hpath
    exact ⟨es, hes⟩

theorem leads_self (a : Automaton k) (p : State) : a.Leads p p := ⟨[], .nil p⟩

theorem leads_of_mem {l : Label} (he : ⟨p, l, q⟩ ∈ a.moves.edges) : a.Leads p q :=
  ⟨[⟨p, l, q⟩], .cons he (.nil q)⟩

theorem Leads.trans (hpq : a.Leads p q) (hqr : a.Leads q r) : a.Leads p r := by
  obtain ⟨ls, hls⟩ := leads_iff.mp hpq
  obtain ⟨ms, hms⟩ := leads_iff.mp hqr
  exact leads_iff.mpr ⟨ls ++ ms, a.machine.isPath_append.mpr ⟨q, hls, hms⟩⟩

end Automaton

namespace Fragment

open Automaton (IsThompson IsTrim Leads forks_iff forks_of_sink reads_iff leads_iff leads_self
  leads_of_mem)

variable {f g h : Fragment} {fs : List Fragment} {offset : Int} {exits : Set Int}

-- Shape

theorem size_eq_of_isThompson (hf : f.toNFA.IsThompson) : (f.size : Int) = f.accept + 1 := by
  have haccept : f.accept = (f.size : Int) - 1 :=
    (hf.mem_finals f.accept).mp (mem_finals_toNFA.mpr rfl)
  rw [haccept, Int.sub_add_cancel]

theorem source_ne_of_isThompson (hf : f.toNFA.IsThompson) {p q : State} {l : Label}
    (he : ⟨p, l, q⟩ ∈ f.moves.edges) : p ≠ f.accept := by
  intro hp
  exact hf.not_left _ he (mem_finals_toNFA.mpr hp)

-- In a copy the moves of the accept state are those to the exits, and all others are as before.
theorem Copy.branches (hcopy : Copy f h offset exits) (hf : f.toNFA.IsThompson) (q r : Int)
    (hexits : ∀ s ∈ exits, s = q ∨ s = r) {p : Int} (hlow : offset ≤ p)
    (hhigh : p < offset + (f.size : Int)) : h.toNFA.Forks p ∨ h.toNFA.Reads p := by
  obtain ⟨p, rfl⟩ : ∃ r, p = offset + r := ⟨p - offset, by omega⟩
  have hp : f.toNFA.Valid p := valid_iff.mpr ⟨by omega, by omega⟩
  by_cases haccept : p = f.accept
  · left
    apply forks_iff.mpr
    refine ⟨q, r, ?_⟩
    intro l s he
    rcases hcopy.escape p l s hp he with ⟨t, -, hmove⟩ | ⟨-, hl, hs⟩
    · exact absurd haccept (source_ne_of_isThompson hf hmove)
    · exact ⟨hl, hexits s hs⟩
  · have hmoves : ∀ l s, ⟨offset + p, l, s⟩ ∈ h.moves.edges →
        ∃ t, s = offset + t ∧ ⟨p, l, t⟩ ∈ f.moves.edges := by
      intro l s he
      rcases hcopy.escape p l s hp he with hmove | ⟨hsource, -, -⟩
      · exact hmove
      · exact absurd hsource haccept
    rcases hf.branches p hp with hforks | hreads
    · left
      obtain ⟨q, r, hqr⟩ := forks_iff.mp hforks
      apply forks_iff.mpr
      refine ⟨offset + q, offset + r, ?_⟩
      intro l s he
      obtain ⟨t, rfl, hmove⟩ := hmoves l s he
      obtain ⟨hl, ht⟩ := hqr l t hmove
      exact ⟨hl, ht.imp (congrArg (offset + ·)) (congrArg (offset + ·))⟩
    · right
      obtain ⟨q, hq⟩ := reads_iff.mp hreads
      apply reads_iff.mpr
      refine ⟨offset + q, ?_⟩
      intro l s he
      obtain ⟨t, rfl, hmove⟩ := hmoves l s he
      obtain ⟨hl, rfl⟩ := hq l t hmove
      exact ⟨hl, rfl⟩

-- It is enough to look at the moves, whose states are written as integers here.
theorem isThompson_of_sink (hlow : 1 < f.size) (hsize : (f.size : Int) = f.accept + 1)
    (hentered : ∀ (p : Int) (l : Label) (q : Int), ⟨p, l, q⟩ ∈ f.moves.edges → q ≠ 0)
    (hsink : ∀ l q, ⟨f.accept, l, q⟩ ∉ f.moves.edges)
    (hbranches : ∀ p : Int, f.toNFA.Valid p → f.toNFA.Forks p ∨ f.toNFA.Reads p) :
    f.toNFA.IsThompson where
  one_lt_size := hlow
  mem_finals p := by
    have hlast : (f.toNFA.size : Int) - 1 = f.accept := Int.sub_eq_iff_eq_add.mpr hsize
    rw [mem_finals_toNFA, hlast]
  not_entered e he := hentered e.source e.label e.target he
  not_left e he := by
    intro hfinal
    apply hsink e.label e.target
    rw [← mem_finals_toNFA.mp hfinal]
    exact he
  branches := hbranches

-- Two states and moves from the first to the second.
theorem isThompson_choosing {r : MoveRelation Char}
    (hmoves : ∀ (p : Int) (l : Label) (q : Int), ⟨p, l, q⟩ ∈ r.edges → p = 0 ∧ q = 1)
    (hbranches : (⟨2, 1, r⟩ : Fragment).toNFA.Forks 0 ∨ (⟨2, 1, r⟩ : Fragment).toNFA.Reads 0) :
    (⟨2, 1, r⟩ : Fragment).toNFA.IsThompson := by
  apply isThompson_of_sink
  · exact Nat.one_lt_two
  · rfl
  · intro p l q he
    have htarget := (hmoves p l q he).2
    omega
  · intro l q he
    have hsource := (hmoves 1 l q he).1
    omega
  · intro p hp
    by_cases hzero : p = 0
    · rw [hzero]
      exact hbranches
    · left
      apply forks_of_sink
      intro l s he
      exact hzero (hmoves p l s he).1

theorem isThompson_reading (l : Label) : (reading l).toNFA.IsThompson := by
  have hmoves : ∀ p m q, ⟨p, m, q⟩ ∈ (reading l).moves.edges → p = 0 ∧ m = l ∧ q = 1 := by
    intro p m q he
    simpa [reading] using he
  apply isThompson_choosing
  · intro p m q he
    obtain ⟨hp, -, hq⟩ := hmoves p m q he
    exact ⟨hp, hq⟩
  · cases l with
    | none =>
        left
        apply forks_iff.mpr
        refine ⟨1, 1, ?_⟩
        intro m s he
        obtain ⟨-, hm, hs⟩ := hmoves 0 m s he
        exact ⟨hm, .inl hs⟩
    | some c =>
        right
        apply reads_iff.mpr
        refine ⟨1, ?_⟩
        intro m s he
        obtain ⟨-, rfl, hs⟩ := hmoves 0 m s he
        exact ⟨Option.some_ne_none c, hs⟩

theorem isThompson_chars (cs : Ascending Char) : (chars cs).toNFA.IsThompson := by
  have hmoves : ∀ p l q, ⟨p, l, q⟩ ∈ (chars cs).moves.edges → p = 0 ∧ l ≠ none ∧ q = 1 := by
    intro p l q he
    obtain ⟨c, -, heq⟩ := List.mem_map.mp (MoveRelation.mem_edges_ofEdges.mp he)
    cases heq
    exact ⟨rfl, Option.some_ne_none c, rfl⟩
  apply isThompson_choosing
  · intro p m q he
    obtain ⟨hp, -, hq⟩ := hmoves p m q he
    exact ⟨hp, hq⟩
  · right
    apply reads_iff.mpr
    refine ⟨1, ?_⟩
    intro l s he
    exact (hmoves 0 l s he).2

-- Where a state of a joined fragment lies. A new start stands before the copies, a new end behind.
theorem concat_cases {p : Int} (hp : (f.concat g).toNFA.Valid p) :
    0 ≤ p ∧ p < (f.size : Int) ∨ (f.size : Int) ≤ p ∧ p < (f.size : Int) + g.size := by
  have hp := valid_iff.mp hp
  simp only [concat] at hp
  omega

theorem alternate_cases {p : Int} (hp : (f.alternate g).toNFA.Valid p) :
    p = 0 ∨ 1 ≤ p ∧ p < 1 + (f.size : Int) ∨
      (f.size : Int) + 1 ≤ p ∧ p < (f.size : Int) + 1 + g.size ∨
        p = (f.size : Int) + g.size + 1 := by
  have hp := valid_iff.mp hp
  simp only [alternate] at hp
  omega

theorem wrap_cases {loop skip : Bool} {p : Int} (hp : (f.wrap loop skip).toNFA.Valid p) :
    p = 0 ∨ 1 ≤ p ∧ p < 1 + (f.size : Int) ∨ p = (f.size : Int) + 1 := by
  have hp := valid_iff.mp hp
  simp only [wrap] at hp
  omega

-- What enters a copy behind other states does not enter state 0.
theorem WellFormed.shifted_target_ne (hf : f.WellFormed) {p q : Int} {l : Label}
    (hoffset : 0 < offset) (he : ⟨p, l, q⟩ ∈ f.moves.shifted offset) : q ≠ 0 := by
  have htarget := valid_iff.mp (hf.moves_valid _ (MoveRelation.mem_shifted.mp he)).2
  simp only at htarget
  omega

theorem sink_concat (hf : f.WellFormed) (hg : g.WellFormed)
    (hsink : ∀ l q, ⟨g.accept, l, q⟩ ∉ g.moves.edges) (l : Label) (q : Int) :
    ⟨(f.size : Int) + g.accept, l, q⟩ ∉ (f.concat g).moves.edges := by
  intro he
  have hleft := valid_iff.mp hf.accept_valid
  have hright := valid_iff.mp hg.accept_valid
  rcases mem_edges_concat.mp he with he | he | he
  · have hsource := hf.source_lt he
    omega
  · have hmove := MoveRelation.mem_shifted.mp he
    rw [add_sub_cancel_left] at hmove
    exact hsink l _ hmove
  · obtain ⟨hsource, -, -⟩ := mk_eq_silent.mp he
    omega

theorem isThompson_concat (hf : f.WellFormed) (hg : g.WellFormed) (hfshape : f.toNFA.IsThompson)
    (hgshape : g.toNFA.IsThompson) : (f.concat g).toNFA.IsThompson := by
  have hflow : 1 < f.size := hfshape.one_lt_size
  have hgsize := size_eq_of_isThompson hgshape
  apply isThompson_of_sink
  · exact Nat.lt_add_right g.size hflow
  · simp only [concat]
    omega
  · intro p l q he
    rcases mem_edges_concat.mp he with he | he | he
    · exact hfshape.not_entered _ he
    · exact hg.shifted_target_ne (by omega) he
    · have hq : q = (f.size : Int) := (mk_eq_silent.mp he).2.2
      omega
  · apply sink_concat hf hg
    intro l q he
    exact source_ne_of_isThompson hgshape he rfl
  · intro p hp
    rcases concat_cases hp with ⟨hlow, hhigh⟩ | ⟨hlow, hhigh⟩
    · exact (copy_concat_left hg).branches hfshape f.size f.size (by simp) hlow (by omega)
    · exact (copy_concat_right hf).branches hgshape 0 0 (by simp) hlow hhigh

theorem isThompson_alternate (hf : f.WellFormed) (hg : g.WellFormed) (hfshape : f.toNFA.IsThompson)
    (hgshape : g.toNFA.IsThompson) : (f.alternate g).toNFA.IsThompson := by
  apply isThompson_of_sink
  · simp only [alternate]
    omega
  · simp only [alternate]
    omega
  · intro p l q he
    rcases mem_edges_alternate.mp he with he | he | he | he | he | he
    · exact hf.shifted_target_ne (by omega) he
    · exact hg.shifted_target_ne (by omega) he
    · have hq : q = (1 : Int) := (mk_eq_silent.mp he).2.2
      omega
    · have hq : q = (f.size : Int) + 1 := (mk_eq_silent.mp he).2.2
      omega
    all_goals
      have hq : q = (f.size : Int) + g.size + 1 := (mk_eq_silent.mp he).2.2
      omega
  · exact sink_alternate hf hg
  · intro p hp
    let stop : Int := f.size + g.size + 1
    rcases alternate_cases hp with rfl | ⟨hlow, hhigh⟩ | ⟨hlow, hhigh⟩ | rfl
    · left
      apply forks_iff.mpr
      exact ⟨1, (f.size : Int) + 1, fun l s he => start_alternate hf hg he⟩
    · exact (copy_alternate_left hg).branches hfshape stop stop (by simp [stop]) hlow hhigh
    · exact (copy_alternate_right hf).branches hgshape stop stop (by simp [stop]) hlow hhigh
    · left
      exact forks_of_sink (sink_alternate hf hg)

theorem isThompson_wrap (hf : f.WellFormed) (hshape : f.toNFA.IsThompson) (loop skip : Bool) :
    (f.wrap loop skip).toNFA.IsThompson := by
  apply isThompson_of_sink
  · simp only [wrap]
    omega
  · simp only [wrap]
    omega
  · intro p l q he
    rcases mem_edges_wrap.mp he with he | he | ⟨-, he⟩ | ⟨-, he⟩ | he
    · exact hf.shifted_target_ne (by omega) he
    · have hq : q = (1 : Int) := (mk_eq_silent.mp he).2.2
      omega
    · have hq : q = (1 : Int) := (mk_eq_silent.mp he).2.2
      omega
    all_goals
      have hq : q = (f.size : Int) + 1 := (mk_eq_silent.mp he).2.2
      omega
  · exact sink_wrap hf loop skip
  · intro p hp
    rcases wrap_cases hp with rfl | ⟨hlow, hhigh⟩ | rfl
    · left
      apply forks_iff.mpr
      refine ⟨1, (f.size : Int) + 1, ?_⟩
      intro l s he
      obtain ⟨hl, hs⟩ := start_wrap hf he
      exact ⟨hl, hs.imp_right And.right⟩
    · have hexits : ∀ s ∈ {q | loop = true ∧ q = 1 ∨ q = (f.size : Int) + 1},
          s = 1 ∨ s = (f.size : Int) + 1 := fun s hs => hs.imp_left And.right
      exact (copy_wrap f loop skip).branches hshape 1 (f.size + 1) hexits hlow hhigh
    · left
      exact forks_of_sink (sink_wrap hf loop skip)

-- Paths

theorem isTrim_toNFA_iff : f.toNFA.IsTrim ↔
    ∀ p : Int, f.toNFA.Valid p → f.toNFA.Leads 0 p ∧ f.toNFA.Leads p f.accept := by
  refine forall_congr' fun p => imp_congr_right fun _ => and_congr_right fun _ => ?_
  simp only [isFinal_toNFA_iff, exists_eq_left]

theorem Copy.leads (hcopy : Copy f h offset exits) {p q : Int} (hpq : f.toNFA.Leads p q) :
    h.toNFA.Leads (offset + p) (offset + q) := by
  obtain ⟨ls, hpath⟩ := leads_iff.mp hpq
  exact leads_iff.mpr ⟨ls, hcopy.path hpath⟩

-- A copy is passed from its start to its accept state.
theorem Copy.leads_across (hcopy : Copy f h offset exits) (hf : f.WellFormed)
    (htrim : f.toNFA.IsTrim) : h.toNFA.Leads offset (offset + f.accept) := by
  have hacross := hcopy.leads (isTrim_toNFA_iff.mp htrim f.accept hf.accept_valid).1
  rwa [Int.add_zero] at hacross

-- Where a copy is entered from the start and left for the end, this goes for all of its states.
theorem Copy.leads_through (hcopy : Copy f h offset exits) (htrim : f.toNFA.IsTrim)
    (hin : h.toNFA.Leads 0 offset) (hout : h.toNFA.Leads (offset + f.accept) h.accept) {p : Int}
    (hlow : offset ≤ p) (hhigh : p < offset + (f.size : Int)) :
    h.toNFA.Leads 0 p ∧ h.toNFA.Leads p h.accept := by
  obtain ⟨p, rfl⟩ : ∃ r, p = offset + r := ⟨p - offset, by omega⟩
  obtain ⟨hfrom, hto⟩ := isTrim_toNFA_iff.mp htrim p (valid_iff.mpr ⟨by omega, by omega⟩)
  have hstart := hcopy.leads hfrom
  rw [Int.add_zero] at hstart
  exact ⟨hin.trans hstart, (hcopy.leads hto).trans hout⟩

theorem isTrim_choosing {r : MoveRelation Char} {l : Label} (hmove : ⟨0, l, 1⟩ ∈ r.edges) :
    (⟨2, 1, r⟩ : Fragment).toNFA.IsTrim := by
  apply isTrim_toNFA_iff.mpr
  intro p hp
  have hp := valid_iff.mp hp
  have hacross : (⟨2, 1, r⟩ : Fragment).toNFA.Leads 0 1 := leads_of_mem hmove
  simp only at hp
  rcases (by omega : p = 0 ∨ p = 1) with rfl | rfl
  · exact ⟨leads_self _ _, hacross⟩
  · exact ⟨hacross, leads_self _ _⟩

theorem isTrim_reading (l : Label) : (reading l).toNFA.IsTrim :=
  isTrim_choosing (l := l) (by simp)

theorem isTrim_chars {cs : Ascending Char} (hcs : cs ≠ ∅) : (chars cs).toNFA.IsTrim := by
  obtain ⟨c, hc⟩ : ∃ c, c ∈ cs := by
    by_contra hnone
    apply hcs
    apply Ascending.ext
    intro c
    exact iff_of_false (fun hc => hnone ⟨c, hc⟩) Ascending.not_mem_empty
  apply isTrim_choosing (l := some c)
  exact MoveRelation.mem_edges_ofEdges.mpr (List.mem_map.mpr ⟨c, hc, rfl⟩)

theorem isTrim_concat (hf : f.WellFormed) (hg : g.WellFormed) (hftrim : f.toNFA.IsTrim)
    (hgtrim : g.toNFA.IsTrim) : (f.concat g).toNFA.IsTrim := by
  have hleft := copy_concat_left (f := f) hg
  have hright := copy_concat_right (g := g) hf
  have hjoint : (f.concat g).toNFA.Leads (0 + f.accept) f.size := by
    rw [Int.zero_add]
    exact leads_of_mem (mem_edges_concat.mpr (.inr (.inr rfl)))
  have hfirst : (f.concat g).toNFA.Leads 0 f.size := (hleft.leads_across hf hftrim).trans hjoint
  have hsecond : (f.concat g).toNFA.Leads f.size (f.concat g).accept :=
    hright.leads_across hg hgtrim
  apply isTrim_toNFA_iff.mpr
  intro p hp
  rcases concat_cases hp with ⟨hlow, hhigh⟩ | ⟨hlow, hhigh⟩
  · exact hleft.leads_through hftrim (leads_self _ _) (hjoint.trans hsecond) hlow (by omega)
  · exact hright.leads_through hgtrim hfirst (leads_self _ _) hlow hhigh

theorem isTrim_alternate (hf : f.WellFormed) (hg : g.WellFormed) (hftrim : f.toNFA.IsTrim)
    (hgtrim : g.toNFA.IsTrim) : (f.alternate g).toNFA.IsTrim := by
  have hleft := copy_alternate_left (f := f) hg
  have hright := copy_alternate_right (g := g) hf
  have hintoLeft : (f.alternate g).toNFA.Leads 0 1 :=
    leads_of_mem (mem_edges_alternate.mpr (.inr (.inr (.inl rfl))))
  have hintoRight : (f.alternate g).toNFA.Leads 0 (f.size + 1) :=
    leads_of_mem (mem_edges_alternate.mpr (.inr (.inr (.inr (.inl rfl)))))
  have houtLeft : (f.alternate g).toNFA.Leads (1 + f.accept) (f.alternate g).accept :=
    leads_of_mem (mem_edges_alternate.mpr (.inr (.inr (.inr (.inr (.inl rfl))))))
  have houtRight : (f.alternate g).toNFA.Leads (f.size + 1 + g.accept) (f.alternate g).accept :=
    leads_of_mem (mem_edges_alternate.mpr (.inr (.inr (.inr (.inr (.inr rfl))))))
  have hacross := (hintoLeft.trans (hleft.leads_across hf hftrim)).trans houtLeft
  apply isTrim_toNFA_iff.mpr
  intro p hp
  rcases alternate_cases hp with rfl | ⟨hlow, hhigh⟩ | ⟨hlow, hhigh⟩ | rfl
  · exact ⟨leads_self _ _, hacross⟩
  · exact hleft.leads_through hftrim hintoLeft houtLeft hlow hhigh
  · exact hright.leads_through hgtrim hintoRight houtRight hlow hhigh
  · exact ⟨hacross, leads_self _ _⟩

theorem isTrim_wrap (hf : f.WellFormed) (htrim : f.toNFA.IsTrim) (loop skip : Bool) :
    (f.wrap loop skip).toNFA.IsTrim := by
  have hcopy := copy_wrap f loop skip
  have hinto : (f.wrap loop skip).toNFA.Leads 0 1 :=
    leads_of_mem (mem_edges_wrap.mpr (.inr (.inl rfl)))
  have hout : (f.wrap loop skip).toNFA.Leads (1 + f.accept) (f.wrap loop skip).accept :=
    leads_of_mem (mem_edges_wrap.mpr (.inr (.inr (.inr (.inr rfl)))))
  have hacross := (hinto.trans (hcopy.leads_across hf htrim)).trans hout
  apply isTrim_toNFA_iff.mpr
  intro p hp
  rcases wrap_cases hp with rfl | ⟨hlow, hhigh⟩ | rfl
  · exact ⟨leads_self _ _, hacross⟩
  · exact hcopy.leads_through htrim hinto hout hlow hhigh
  · exact ⟨hacross, leads_self _ _⟩

-- Sequences of any length

-- What holds of the empty word and of well-formed fragments, and stays when two are joined, holds
-- when all are joined.
theorem concatAll_induction {P : Fragment → Prop} (hepsilon : P epsilon)
    (hconcat : ∀ f g, f.WellFormed → g.WellFormed → P f → P g → P (f.concat g))
    (hfs : ∀ f ∈ fs, f.WellFormed ∧ P f) : P (concatAll fs) := by
  cases fs with
  | nil => exact hepsilon
  | cons f fs =>
      obtain ⟨hf, hfs⟩ := List.forall_mem_cons.mp hfs
      have hfold : (fs.foldl concat f).WellFormed ∧ P (fs.foldl concat f) := by
        apply List.foldlRecOn (motive := fun b => b.WellFormed ∧ P b) fs concat hf
        intro b hb g hg
        obtain ⟨hgwell, hg⟩ := hfs g hg
        exact ⟨hb.1.concat hgwell, hconcat b g hb.1 hgwell hb.2 hg⟩
      exact hfold.2

theorem size_foldl_concat (fs : List Fragment) (f : Fragment) :
    (fs.foldl concat f).size = f.size + (fs.map size).sum := by
  induction fs generalizing f with
  | nil => rfl
  | cons g fs ih =>
      rw [List.foldl_cons, ih, List.map_cons, List.sum_cons, ← Nat.add_assoc]
      rfl

theorem size_concatAll (hfs : fs ≠ []) : (concatAll fs).size = (fs.map size).sum := by
  cases fs with
  | nil => exact absurd rfl hfs
  | cons f fs => exact size_foldl_concat fs f

end Fragment

namespace Pattern

variable {φ : Type}

-- How many states an expression stands for. A repetition counts its copies, of which those that may
-- be left out have two states more.
def size : Pattern φ → Nat
  | foreign _ => 0
  | epsilon | literal _ | charSet _ => 2
  | concat left right => left.size + right.size
  | alternate left right => left.size + right.size + 2
  | star inner | plus inner | optional inner => inner.size + 2
  | repeated inner least none => least * inner.size + inner.size + 2
  | repeated inner least (some extra) =>
    if least = 0 ∧ extra = 0 then 2 else least * inner.size + extra * (inner.size + 2)

-- Every set of characters in the expression has a member.
def HasMembers : Pattern φ → Prop
  | foreign _ | epsilon | literal _ => True
  | charSet cs => cs ≠ ∅
  | concat left right | alternate left right => left.HasMembers ∧ right.HasMembers
  | star inner | plus inner | optional inner | repeated inner _ _ => inner.HasMembers

end Pattern

namespace Regex

open Fragment (isThompson_reading isThompson_chars isThompson_concat isThompson_alternate
  isThompson_wrap isTrim_reading isTrim_chars isTrim_concat isTrim_alternate isTrim_wrap)

variable {inner : Regex} {least : Nat} {extra : Option Nat}

-- A repetition joins copies of a fragment, of which those that may be left out are wrapped.
theorem compile_repeated_induction {P : Fragment → Prop} (hepsilon : P .epsilon)
    (hconcat : ∀ f g, f.WellFormed → g.WellFormed → P f → P g → P (f.concat g))
    (hwrap : ∀ f loop skip, f.WellFormed → P f → P (f.wrap loop skip)) (hinner : P inner.compile) :
    P (compile (.repeated inner least extra)) := by
  have hwell := wellFormed_compile inner
  apply Fragment.concatAll_induction hepsilon hconcat
  intro f hf
  rcases List.mem_append.mp hf with hf | hf
  · rw [(List.mem_replicate.mp hf).2]
    exact ⟨hwell, hinner⟩
  · cases extra with
    | none =>
        rw [List.mem_singleton.mp hf]
        exact ⟨hwell.wrap true true, hwrap _ true true hwell hinner⟩
    | some n =>
        rw [(List.mem_replicate.mp hf).2]
        exact ⟨hwell.wrap false true, hwrap _ false true hwell hinner⟩

theorem isThompson_compile (r : Regex) : r.compile.toNFA.IsThompson := by
  induction r with
  | foreign value => exact nomatch value
  | epsilon => exact isThompson_reading none
  | literal c => exact isThompson_reading (some c)
  | charSet cs => exact isThompson_chars cs
  | concat left right hleft hright =>
      exact isThompson_concat (wellFormed_compile left) (wellFormed_compile right) hleft hright
  | alternate left right hleft hright =>
      exact isThompson_alternate (wellFormed_compile left) (wellFormed_compile right) hleft hright
  | star inner hinner => exact isThompson_wrap (wellFormed_compile inner) hinner true true
  | plus inner hinner => exact isThompson_wrap (wellFormed_compile inner) hinner true false
  | optional inner hinner => exact isThompson_wrap (wellFormed_compile inner) hinner false true
  | repeated inner least extra hinner =>
      apply compile_repeated_induction (P := fun f => f.toNFA.IsThompson) _ _ _ hinner
      · exact isThompson_reading none
      · intro f g
        exact isThompson_concat
      · intro f loop skip hf hshape
        exact isThompson_wrap hf hshape loop skip

theorem isTrim_compile (r : Regex) (h : r.HasMembers) : r.compile.toNFA.IsTrim := by
  induction r with
  | foreign value => exact nomatch value
  | epsilon => exact isTrim_reading none
  | literal c => exact isTrim_reading (some c)
  | charSet cs => exact isTrim_chars h
  | concat left right hleft hright =>
      exact isTrim_concat (wellFormed_compile left) (wellFormed_compile right) (hleft h.1) (hright h.2)
  | alternate left right hleft hright =>
      exact isTrim_alternate (wellFormed_compile left) (wellFormed_compile right) (hleft h.1)
        (hright h.2)
  | star inner hinner => exact isTrim_wrap (wellFormed_compile inner) (hinner h) true true
  | plus inner hinner => exact isTrim_wrap (wellFormed_compile inner) (hinner h) true false
  | optional inner hinner => exact isTrim_wrap (wellFormed_compile inner) (hinner h) false true
  | repeated inner least extra hinner =>
      apply compile_repeated_induction (P := fun f => f.toNFA.IsTrim) _ _ _ (hinner h)
      · exact isTrim_reading none
      · intro f g
        exact isTrim_concat
      · intro f loop skip hf htrim
        exact isTrim_wrap hf htrim loop skip

theorem size_compile (r : Regex) : r.compile.size = r.size := by
  induction r with
  | foreign value => exact nomatch value
  | epsilon | literal _ | charSet _ => rfl
  | concat left right hleft hright =>
      simp only [compile, Fragment.concat, Pattern.size, hleft, hright]
  | alternate left right hleft hright =>
      simp only [compile, Fragment.alternate, Pattern.size, hleft, hright]
  | star inner hinner => simp only [compile, Fragment.star, Fragment.wrap, Pattern.size, hinner]
  | plus inner hinner => simp only [compile, Fragment.plus, Fragment.wrap, Pattern.size, hinner]
  | optional inner hinner =>
      simp only [compile, Fragment.optional, Fragment.wrap, Pattern.size, hinner]
  | repeated inner least extra hinner =>
      cases extra with
      | none =>
          have hcopies : List.replicate least (compile inner) ++ [(compile inner).star] ≠ [] := by
            simp
          simp only [compile, Fragment.size_concatAll hcopies, Pattern.size]
          simp [Fragment.star, Fragment.wrap, hinner, Nat.add_assoc]
      | some n =>
          by_cases hnone : least = 0 ∧ n = 0
          · obtain ⟨rfl, rfl⟩ := hnone
            rfl
          · have hcopies : List.replicate least (compile inner) ++
                List.replicate n (compile inner).optional ≠ [] := by
              simpa [not_and_or] using hnone
            simp only [compile, Fragment.size_concatAll hcopies, Pattern.size, if_neg hnone]
            simp [Fragment.optional, Fragment.wrap, hinner]

-- The automaton of an expression has the shape, and as many states as the expression counts. All
-- of them are of use, unless some set in the expression is empty.
theorem isThompson_toNFA (r : Regex) :
    r.toNFA.IsThompson ∧ r.toNFA.size = r.size ∧ (r.HasMembers → r.toNFA.IsTrim) :=
  ⟨isThompson_compile r, size_compile r, isTrim_compile r⟩

-- One copy that must be read, and a star.
theorem isThompson_toNFA_repeated :
    let r : Regex := .repeated (.alternate (.literal 'a') (.charSet (.ofList ['b', 'c']))) 1 none
    r.HasMembers ∧ r.toNFA.IsThompson ∧ r.toNFA.size = 14 ∧ r.toNFA.IsTrim := by
  intro r
  have hmember : 'b' ∈ Ascending.ofList ['b', 'c'] := by decide
  have hset : Ascending.ofList ['b', 'c'] ≠ ∅ := fun h => Ascending.not_mem_empty (h ▸ hmember)
  have hmembers : r.HasMembers := ⟨trivial, hset⟩
  obtain ⟨hshape, hsize, htrim⟩ := isThompson_toNFA r
  exact ⟨hmembers, hshape, hsize, htrim hmembers⟩

end Regex

end FiniteAutomata
