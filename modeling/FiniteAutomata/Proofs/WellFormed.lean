import FiniteAutomata.Family
import FiniteAutomata.Pattern.Build
import FiniteAutomata.Proofs.Success

/-!
Every operation keeps automata well-formed (`Automaton.WellFormed`). Refused changes leave an
automaton as it is, so it is enough to look at the granted ones.
-/

namespace FiniteAutomata

namespace MoveRelation

variable {σ : Type} [Ord σ] [Std.TransOrd σ] [Std.LawfulEqOrd σ]

theorem mem_shifted {r : MoveRelation σ} {offset : Int} {e : Edge σ} :
    e ∈ r.shifted offset ↔ ⟨e.source - offset, e.label, e.target - offset⟩ ∈ r.edges := by
  rw [shifted, List.mem_map]
  constructor
  · rintro ⟨d, hd, rfl⟩
    simpa [Edge.shift] using hd
  · intro he
    exact ⟨_, he, by simp [Edge.shift]⟩

end MoveRelation

namespace Automaton

variable {k : Kind}

theorem mem_finals_iff_isFinal {a : Automaton k} {p : State} :
    p ∈ a.finals ↔ a.isFinal p = true := Iff.rfl

-- The integers are written as such, because arithmetic does not see through `State`.
theorem valid_iff {a : Automaton k} {p : Int} : a.Valid p ↔ (0 : Int) ≤ p ∧ p < (a.size : Int) :=
  Iff.rfl

@[simp] theorem mem_states {a : Automaton k} {p : Int} : p ∈ a.states ↔ a.Valid p := by
  rw [states, List.mem_map]
  constructor
  · intro hp
    obtain ⟨n, hn, rfl⟩ := hp
    exact ⟨Int.natCast_nonneg n, Int.ofNat_lt.mpr (List.mem_range.mp hn)⟩
  · intro hp
    have hlow : (0 : Int) ≤ p := hp.1
    have hhigh : p < (a.size : Int) := hp.2
    refine ⟨Int.toNat p, List.mem_range.mpr ?_, Int.toNat_of_nonneg hlow⟩
    omega

-- Growing

theorem Valid.of_size_le {j : Kind} {a : Automaton k} {b : Automaton j} (hsize : a.size ≤ b.size)
    {p : State} (hp : a.Valid p) : b.Valid p :=
  ⟨hp.1, Int.lt_of_lt_of_le hp.2 (Int.ofNat_le.mpr hsize)⟩

@[simp] theorem size_addFinal (a : Automaton k) (p : State) : (a.addFinal p).size = a.size := by
  unfold addFinal addFinal?
  split <;> rfl

@[simp] theorem moves_addFinal (a : Automaton k) (p : State) : (a.addFinal p).moves = a.moves := by
  unfold addFinal addFinal?
  split <;> rfl

theorem mem_finals_addFinal {a : Automaton k} {p q : State} :
    q ∈ (a.addFinal p).finals ↔ q = p ∧ a.Valid p ∨ q ∈ a.finals := by
  unfold addFinal addFinal?
  split
  · rename_i hp
    have hins : q ∈ a.finals.insert p ↔ q = p ∨ q ∈ a.finals := by
      rw [Std.ExtTreeSet.mem_insert, Std.compare_eq_iff_eq, eq_comm]
    simpa [hp] using hins
  · rename_i hp
    simp [hp]

@[simp] theorem size_foldl_addFinal (a : Automaton k) (ps : List State) :
    (ps.foldl addFinal a).size = a.size := by
  induction ps generalizing a with
  | nil => rfl
  | cons p ps ih => rw [List.foldl_cons, ih, size_addFinal]

@[simp] theorem moves_foldl_addFinal (a : Automaton k) (ps : List State) :
    (ps.foldl addFinal a).moves = a.moves := by
  induction ps generalizing a with
  | nil => rfl
  | cons p ps ih => rw [List.foldl_cons, ih, moves_addFinal]

theorem mem_finals_foldl_addFinal {a : Automaton k} {ps : List State} {q : State} :
    q ∈ (ps.foldl addFinal a).finals ↔ q ∈ ps ∧ a.Valid q ∨ q ∈ a.finals := by
  induction ps generalizing a with
  | nil => simp
  | cons p ps ih =>
      have hvalid : (a.addFinal p).Valid q ↔ a.Valid q := by simp [Valid]
      rw [List.foldl_cons, ih, hvalid, mem_finals_addFinal, List.mem_cons]
      constructor
      · rintro (⟨hq, hv⟩ | ⟨rfl, hv⟩ | hq)
        · exact Or.inl ⟨Or.inr hq, hv⟩
        · exact Or.inl ⟨Or.inl rfl, hv⟩
        · exact Or.inr hq
      · rintro (⟨rfl | hq, hv⟩ | hq)
        · exact Or.inr (Or.inl ⟨rfl, hv⟩)
        · exact Or.inl ⟨hq, hv⟩
        · exact Or.inr (Or.inr hq)

-- Well-formedness

-- Runs start in a state that exists.
theorem WellFormed.valid_zero {a : Automaton k} (h : a.WellFormed) : a.Valid 0 :=
  ⟨Int.le_refl 0, Int.natCast_pos.mpr h.size_pos⟩

theorem wellFormed_blank {n : Nat} (hn : 0 < n) : (blank n : Automaton k).WellFormed where
  size_pos := hn
  finals_valid _ hp := absurd hp Std.ExtTreeSet.not_mem_empty
  moves_valid _ he := absurd he MoveRelation.mem_edges_empty
  not_silent _ _ he := absurd he MoveRelation.mem_edges_empty
  target_unique _ _ hd := absurd hd MoveRelation.mem_edges_empty

theorem WellFormed.addState {a : Automaton k} (h : a.WellFormed) : a.addState.WellFormed where
  size_pos := Nat.succ_pos _
  finals_valid p hp := (h.finals_valid p hp).of_size_le (Nat.le_succ _)
  moves_valid e he := (h.moves_valid e he).imp
    (·.of_size_le (Nat.le_succ _)) (·.of_size_le (Nat.le_succ _))
  not_silent := h.not_silent
  target_unique := h.target_unique

theorem WellFormed.addFinal {a : Automaton k} (h : a.WellFormed) (p : State) :
    (a.addFinal p).WellFormed where
  size_pos := by simpa using h.size_pos
  finals_valid q hq := by
    have hq : a.Valid q := by
      rcases mem_finals_addFinal.mp hq with ⟨rfl, hp⟩ | hq
      · exact hp
      · exact h.finals_valid q hq
    simpa [Valid] using hq
  moves_valid := by simpa [Valid] using h.moves_valid
  not_silent := by simpa using h.not_silent
  target_unique := by simpa using h.target_unique

theorem WellFormed.foldl_addFinal {a : Automaton k} (h : a.WellFormed) (ps : List State) :
    (ps.foldl Automaton.addFinal a).WellFormed :=
  List.foldlRecOn ps Automaton.addFinal h fun _ hb p _ => hb.addFinal p

-- A change that may be refused is granted or leaves the automaton as it is.
theorem WellFormed.getD {a : Automaton k} (h : a.WellFormed) {changed : Option (Automaton k)}
    (hchanged : ∀ b, changed = some b → b.WellFormed) : (changed.getD a).WellFormed := by
  cases changed with
  | none => exact h
  | some b => exact hchanged b rfl

theorem WellFormed.addFinal? {a b : Automaton k} (h : a.WellFormed) {p : State}
    (hb : a.addFinal? p = some b) : b.WellFormed := by
  have hadd : a.addFinal p = b := by rw [Automaton.addFinal, hb]; rfl
  exact hadd ▸ h.addFinal p

theorem WellFormed.addMove? {a b : NFA} (h : a.WellFormed) {e : Edge Char}
    (hb : a.addMove? e = some b) : b.WellFormed := by
  obtain ⟨hvalid, hb⟩ := Option.ite_none_right_eq_some.mp hb
  cases hb
  exact {
    size_pos := h.size_pos
    finals_valid := h.finals_valid
    moves_valid := fun d hd => by
      rcases MoveRelation.mem_edges_add.mp hd with rfl | hd
      · exact hvalid
      · exact h.moves_valid d hd
    not_silent := nofun
    target_unique := nofun }

theorem WellFormed.setMove? {a b : DFA} (h : a.WellFormed) {p q : State} {c : Char}
    (hb : a.setMove? p c q = some b) : b.WellFormed := by
  obtain ⟨hvalid, hb⟩ := Option.ite_none_right_eq_some.mp hb
  cases hb
  exact {
    size_pos := h.size_pos
    finals_valid := h.finals_valid
    moves_valid := fun d hd => by
      rcases MoveRelation.mem_edges_replace.mp hd with rfl | ⟨hd, -⟩
      · exact hvalid
      · exact h.moves_valid d hd
    not_silent := fun _ d hd => by
      rcases MoveRelation.mem_edges_replace.mp hd with rfl | ⟨hd, -⟩
      · exact Option.some_ne_none c
      · exact h.not_silent rfl d hd
    target_unique := fun _ d hd e he hde => by
      rcases MoveRelation.mem_edges_replace.mp hd with rfl | ⟨hd, hdk⟩
      · rcases MoveRelation.mem_edges_replace.mp he with rfl | ⟨he, hek⟩
        · rfl
        · exact absurd hde.symm hek
      · rcases MoveRelation.mem_edges_replace.mp he with rfl | ⟨he, hek⟩
        · exact absurd hde hdk
        · exact h.target_unique rfl d hd e he hde }

theorem WellFormed.addMove {a : NFA} (h : a.WellFormed) (e : Edge Char) :
    (a.addMove e).WellFormed :=
  h.getD fun _ hb => h.addMove? hb

theorem WellFormed.setMove {a : DFA} (h : a.WellFormed) (p : State) (c : Char) (q : State) :
    (a.setMove p c q).WellFormed :=
  h.getD fun _ hb => h.setMove? hb

theorem WellFormed.writeMove? {a : Automaton k} (h : a.WellFormed) {p q : State} {s : Symbol}
    {changed : Option (Automaton k)} (hwrite : a.writeMove? p s q = .ok changed) :
    ∀ b, changed = some b → b.WellFormed := by
  intro b hb
  subst hb
  cases k with
  | nfa =>
      simp only [Automaton.writeMove?] at hwrite
      split at hwrite
      · exact h.addMove? (Except.ok.inj hwrite)
      · exact nomatch hwrite
  | dfa =>
      simp only [Automaton.writeMove?] at hwrite
      split at hwrite
      · exact nomatch hwrite
      · exact h.setMove? (Except.ok.inj hwrite)
      · exact nomatch hwrite

theorem wellFormed_of_ofSize? {n : Int} {a : Automaton k} (h : ofSize? n = .ok a) :
    a.WellFormed := by
  unfold ofSize? at h
  split at h
  · exact nomatch h
  · cases h
    exact wellFormed_blank (by omega)

theorem WellFormed.foldlM_writeMove? {a b : Automaton k} (h : a.WellFormed)
    {moves : List (State × Symbol × State)}
    (hb : moves.foldlM (fun a (p, s, q) => do return (← a.writeMove? p s q).getD a) a = .ok b) :
    b.WellFormed := by
  induction moves generalizing a with
  | nil => cases hb; exact h
  | cons move moves ih =>
      obtain ⟨p, s, q⟩ := move
      rw [List.foldlM_cons] at hb
      obtain ⟨moved, hmoved, hrest⟩ := bind_eq_ok.mp hb
      obtain ⟨changed, hwrite, hchanged⟩ := bind_eq_ok.mp hmoved
      cases hchanged
      exact ih (h.getD (h.writeMove? hwrite)) hrest

theorem wellFormed_of_build? {n : Int} {moves : List (State × Symbol × State)}
    {finals : List State} {a : Automaton k} (h : build? n moves finals = .ok a) :
    a.WellFormed := by
  obtain ⟨blank, hblank, h⟩ := bind_eq_ok.mp h
  obtain ⟨moved, hmoved, h⟩ := bind_eq_ok.mp h
  cases h
  exact ((wellFormed_of_ofSize? hblank).foldlM_writeMove? hmoved).foldl_addFinal finals

theorem WellFormed.append {host : NFA} {guest : Automaton k} (hhost : host.WellFormed)
    (hguest : guest.WellFormed) : (Automaton.append host guest).WellFormed where
  size_pos := Nat.lt_of_lt_of_le hhost.size_pos (Nat.le_add_right _ _)
  finals_valid p hp := (hhost.finals_valid p hp).of_size_le (Nat.le_add_right _ _)
  moves_valid e he := by
    rcases MoveRelation.mem_edges_addAll.mp he with he | he
    · have hguest := hguest.moves_valid _ (MoveRelation.mem_shifted.mp he)
      simp only [valid_iff, Automaton.append] at hguest ⊢
      omega
    · exact (hhost.moves_valid e he).imp
        (·.of_size_le (Nat.le_add_right _ _)) (·.of_size_le (Nat.le_add_right _ _))
  not_silent := nofun
  target_unique := nofun

end Automaton

theorem Family.wellFormed_of_nth? {n : Int} {a : NFA} (h : Family.nth? n = .ok a) :
    a.WellFormed := by
  unfold Family.nth? at h
  split at h
  · exact nomatch h
  · cases h
    have hblank := Automaton.wellFormed_blank (k := .nfa) (Nat.succ_pos n.toNat)
    exact (List.foldlRecOn (Family.nthMoves n.toNat) Automaton.addMove hblank
      fun _ hb e _ => hb.addMove e).addFinal _

namespace Fragment

-- The moves stay within the states, and the accept state is one of them.
structure WellFormed (f : Fragment) : Prop where
  accept_valid : f.toNFA.Valid f.accept
  moves_valid : ∀ e ∈ f.moves.edges, f.toNFA.Valid e.source ∧ f.toNFA.Valid e.target

theorem mem_finals_toNFA {f : Fragment} {p : State} : p ∈ f.toNFA.finals ↔ p = f.accept := by
  have hins : p ∈ f.toNFA.finals ↔ compare f.accept p = .eq ∨ p ∈ (∅ : Std.ExtTreeSet State) :=
    Std.ExtTreeSet.mem_insert
  rw [hins, Std.compare_eq_iff_eq, eq_comm]
  simp

theorem WellFormed.toNFA {f : Fragment} (h : f.WellFormed) : f.toNFA.WellFormed where
  size_pos := by
    have hvalid := Automaton.valid_iff.mp h.accept_valid
    omega
  finals_valid p hp := mem_finals_toNFA.mp hp ▸ h.accept_valid
  moves_valid := h.moves_valid
  not_silent := nofun
  target_unique := nofun

theorem wellFormed_of_ofAutomaton? {k : Kind} {a : Automaton k} (h : a.WellFormed) {f : Fragment}
    (hf : ofAutomaton? a = .ok f) : f.WellFormed := by
  unfold ofAutomaton? at hf
  split at hf
  · rename_i p hp
    cases hf
    exact {
      accept_valid := h.finals_valid p (by simp [← Std.ExtTreeSet.mem_toList, hp])
      moves_valid := h.moves_valid }
  · exact nomatch hf

-- The moves of composite fragments

theorem mem_edges_concat {f g : Fragment} {e : Edge Char} :
    e ∈ (f.concat g).moves.edges ↔
      e ∈ f.moves.edges ∨ e ∈ g.moves.shifted f.size ∨ e = silent f.accept f.size := by
  simp only [concat, MoveRelation.mem_edges_add, MoveRelation.mem_edges_addAll,
    MoveRelation.edges_inOrder]
  rw [or_comm, or_comm (a := e ∈ g.moves.shifted f.size), or_assoc]

theorem mem_edges_alternate {f g : Fragment} {e : Edge Char} :
    e ∈ (f.alternate g).moves.edges ↔
      e ∈ f.moves.shifted 1 ∨ e ∈ g.moves.shifted (f.size + 1) ∨
        e = silent 0 1 ∨ e = silent 0 (f.size + 1) ∨
        e = silent (1 + f.accept) (f.size + g.size + 1) ∨
        e = silent (f.size + 1 + g.accept) (f.size + g.size + 1) := by
  simp [alternate]

theorem mem_edges_wrap {loop skip : Bool} {f : Fragment} {e : Edge Char} :
    e ∈ (f.wrap loop skip).moves.edges ↔
      e ∈ f.moves.shifted 1 ∨ e = silent 0 1 ∨ loop = true ∧ e = silent (1 + f.accept) 1 ∨
        skip = true ∧ e = silent 0 (f.size + 1) ∨ e = silent (1 + f.accept) (f.size + 1) := by
  cases loop <;> cases skip <;> simp [wrap]

-- Fragments stay well-formed

-- Two states and moves from the first to the second.
theorem wellFormed_choosing {r : MoveRelation Char}
    (h : ∀ e ∈ r.edges, e.source = 0 ∧ e.target = 1) : (⟨2, 1, r⟩ : Fragment).WellFormed where
  accept_valid := Automaton.valid_iff.mpr (by decide : (0 : Int) ≤ 1 ∧ (1 : Int) < 2)
  moves_valid e he := by
    obtain ⟨hsource, htarget⟩ := h e he
    rw [hsource, htarget]
    exact (by decide : ((0 : Int) ≤ 0 ∧ (0 : Int) < 2) ∧ (0 : Int) ≤ 1 ∧ (1 : Int) < 2)

theorem wellFormed_reading (l : Label) : (reading l).WellFormed :=
  wellFormed_choosing fun e he => by
    have he : e = ⟨0, l, 1⟩ := by simpa [reading] using he
    exact ⟨he ▸ rfl, he ▸ rfl⟩

theorem WellFormed.concat {f g : Fragment} (hf : f.WellFormed) (hg : g.WellFormed) :
    (f.concat g).WellFormed where
  accept_valid := by
    have haccept := hg.accept_valid
    simp only [Automaton.valid_iff, Fragment.concat, Fragment.toNFA, State] at haccept ⊢
    omega
  moves_valid e he := by
    have hstop := hf.accept_valid
    have hstart := hg.accept_valid
    simp only [Automaton.valid_iff, Fragment.concat, Fragment.toNFA, State] at hstop hstart ⊢
    rcases mem_edges_concat.mp he with he | he | rfl
    · have hvalid := hf.moves_valid e he
      simp only [Automaton.valid_iff, Fragment.toNFA] at hvalid
      omega
    · have hvalid := hg.moves_valid _ (MoveRelation.mem_shifted.mp he)
      simp only [Automaton.valid_iff, Fragment.toNFA] at hvalid
      omega
    · simp only [silent]
      omega

theorem WellFormed.alternate {f g : Fragment} (hf : f.WellFormed) (hg : g.WellFormed) :
    (f.alternate g).WellFormed where
  accept_valid := by
    simp only [Automaton.valid_iff, Fragment.alternate, Fragment.toNFA, State]
    omega
  moves_valid e he := by
    have hleft := hf.accept_valid
    have hright := hg.accept_valid
    simp only [Automaton.valid_iff, Fragment.alternate, Fragment.toNFA, State] at hleft hright ⊢
    rcases mem_edges_alternate.mp he with he | he | rfl | rfl | rfl | rfl
    · have hvalid := hf.moves_valid _ (MoveRelation.mem_shifted.mp he)
      simp only [Automaton.valid_iff, Fragment.toNFA] at hvalid
      omega
    · have hvalid := hg.moves_valid _ (MoveRelation.mem_shifted.mp he)
      simp only [Automaton.valid_iff, Fragment.toNFA] at hvalid
      omega
    all_goals
      simp only [silent]
      omega

theorem WellFormed.wrap {f : Fragment} (hf : f.WellFormed) (loop skip : Bool) :
    (f.wrap loop skip).WellFormed where
  accept_valid := by
    simp only [Automaton.valid_iff, Fragment.wrap, Fragment.toNFA, State]
    omega
  moves_valid e he := by
    have hinner := hf.accept_valid
    simp only [Automaton.valid_iff, Fragment.wrap, Fragment.toNFA, State] at hinner ⊢
    rcases mem_edges_wrap.mp he with he | rfl | ⟨-, rfl⟩ | ⟨-, rfl⟩ | rfl
    · have hvalid := hf.moves_valid _ (MoveRelation.mem_shifted.mp he)
      simp only [Automaton.valid_iff, Fragment.toNFA] at hvalid
      omega
    all_goals
      simp only [silent]
      omega

theorem wellFormed_concatAll {fs : List Fragment} (h : ∀ f ∈ fs, f.WellFormed) :
    (concatAll fs).WellFormed := by
  cases fs with
  | nil => exact wellFormed_reading none
  | cons f fs =>
      obtain ⟨hf, hfs⟩ := List.forall_mem_cons.mp h
      exact List.foldlRecOn fs concat hf fun _ hb g hg => hb.concat (hfs g hg)

theorem wellFormed_of_ofSymbol? {s : Symbol} {f : Fragment} (h : ofSymbol? s = .ok f) :
    f.WellFormed := by
  obtain ⟨l, -, h⟩ := bind_eq_ok.mp h
  cases h
  exact wellFormed_reading l

theorem wellFormed_of_ofCollection? {given : Json} {f : Fragment} (h : ofCollection? given = .ok f) :
    f.WellFormed := by
  obtain ⟨members, -, h⟩ := bind_eq_ok.mp h
  obtain ⟨sorted, -, h⟩ := bind_eq_ok.mp h
  obtain ⟨ls, -, h⟩ := bind_eq_ok.mp h
  cases h
  refine wellFormed_choosing fun e he => ?_
  obtain ⟨l, -, rfl⟩ := List.mem_map.mp (MoveRelation.mem_edges_ofEdges.mp he)
  exact ⟨rfl, rfl⟩

end Fragment

theorem Regex.wellFormed_compile (r : Regex) : r.compile.WellFormed := by
  induction r with
  | foreign value => exact nomatch value
  | epsilon => exact Fragment.wellFormed_reading none
  | literal c => exact Fragment.wellFormed_reading (some c)
  | charSet cs =>
      refine Fragment.wellFormed_choosing fun e he => ?_
      obtain ⟨c, -, rfl⟩ := List.mem_map.mp (MoveRelation.mem_edges_ofEdges.mp he)
      exact ⟨rfl, rfl⟩
  | concat left right hleft hright => exact hleft.concat hright
  | alternate left right hleft hright => exact hleft.alternate hright
  | star inner hinner => exact hinner.wrap true true
  | plus inner hinner => exact hinner.wrap true false
  | optional inner hinner => exact hinner.wrap false true
  | repeated inner least extra hinner =>
      refine Fragment.wellFormed_concatAll fun f hf => ?_
      rcases List.mem_append.mp hf with hf | hf
      · exact (List.mem_replicate.mp hf).2 ▸ hinner
      · cases extra with
        | none => exact List.mem_singleton.mp hf ▸ hinner.wrap true true
        | some n => exact (List.mem_replicate.mp hf).2 ▸ hinner.wrap false true

theorem Pattern.wellFormed_of_compile? {r : Pattern.Given} {f : Fragment}
    (h : Pattern.compile? r = .ok f) : f.WellFormed := by
  unfold Pattern.compile? at h
  split at h
  · cases h
    exact Regex.wellFormed_compile _
  all_goals exact nomatch h

end FiniteAutomata
