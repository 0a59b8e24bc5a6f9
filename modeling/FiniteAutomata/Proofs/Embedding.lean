import FiniteAutomata.Proofs.Deterministic
import FiniteAutomata.Proofs.Reachable

/-!
Automata within automata. Where the moves of an automaton are carried to another one, and no other
moves leave the states that are carried there (`Automaton.Embeds`), the two run alike
(`Automaton.Embeds.mem_foldl_step`). Appending puts a copy of the guest behind the states of the
host and leaves the host where it is: both are embedded in the result, the edges of the one stand
before those of the other, and the host accepts what it accepted before
(`NFA.holdsBoth_append`).
-/

namespace FiniteAutomata

namespace Edge

variable {σ : Type} [Ord σ] [Std.LawfulEqOrd σ] {d e : Edge σ}

theorem compare_shift_eq_lt {offset : Int} :
    compare (d.shift offset) (e.shift offset) = .lt ↔ compare d e = .lt := by
  simp [compare_eq_lt, shift]

end Edge

namespace MoveRelation

variable {σ : Type} [Ord σ] [Std.TransOrd σ] [Std.LawfulEqOrd σ]

-- Keys are only ever added behind the others.
theorem keys_prefix_add (r : MoveRelation σ) (e : Edge σ) : r.keys <+: (r.add e).keys := by
  rw [keys_add]
  split
  · exact List.prefix_refl _
  · exact List.prefix_append _ _

theorem keys_prefix_addAll (r : MoveRelation σ) (es : List (Edge σ)) :
    r.keys <+: (r.addAll es).keys := by
  induction es generalizing r with
  | nil => exact List.prefix_refl _
  | cons e es ih => exact (keys_prefix_add r e).trans (ih (r.add e))

-- Where all sources of one relation lie below those of the other, neither is sorted into the other.
theorem edges_addAll_shifted {r s : MoveRelation σ} {offset : Int}
    (hr : ∀ e ∈ r.edges, e.source < offset) (hs : ∀ e ∈ s.edges, 0 ≤ e.source) :
    (r.addAll (s.shifted offset)).edges.toList = r.edges.toList ++ s.shifted offset := by
  have hshifted : (s.shifted offset).Pairwise (compare · · = .lt) := by
    apply List.pairwise_map.mpr
    apply s.edges.ascending.imp
    intro d e h
    exact Edge.compare_shift_eq_lt.mpr h
  have hbetween : ∀ d ∈ r.edges.toList, ∀ e ∈ s.shifted offset, compare d e = .lt := by
    intro d hd e he
    have hlow : d.source < offset := hr d hd
    have hhigh : offset ≤ e.source := Int.sub_nonneg.mp (hs _ (mem_shifted.mp he))
    exact Edge.compare_eq_lt.mpr (.inl (Int.lt_of_lt_of_le hlow hhigh))
  apply Ascending.eq_of_mem_iff (Ascending.ascending _)
  · exact List.pairwise_append.mpr ⟨r.edges.ascending, hshifted, hbetween⟩
  · intro e
    rw [Ascending.mem_toList, mem_edges_addAll, List.mem_append, Ascending.mem_toList, or_comm]

end MoveRelation

namespace Automaton

variable {j k : Kind} {a : Automaton j} {b : Automaton k} {f : State → State} {ps qs : List State}
  {s t : Ascending State} {word : List Char}

-- The states of `a` are found in `b` under new names, each with the moves that it has in `a`.
structure Embeds (f : State → State) (a : Automaton j) (b : Automaton k) : Prop where
  valid_map : ∀ p, a.Valid p → b.Valid (f p)
  mem_edges_map : ∀ p l r, a.Valid p →
    (⟨f p, l, r⟩ ∈ b.moves.edges ↔ ∃ q, ⟨p, l, q⟩ ∈ a.moves.edges ∧ f q = r)

namespace Embeds

-- Silent moves lead from the new names to the new names of what they lead to.
theorem mem_closure (h : Embeds f a b) (ha : a.WellFormed) (hps : ∀ p ∈ ps, a.Valid p)
    (hqs : ∀ q, q ∈ qs ↔ ∃ p ∈ ps, f p = q) {r : State} :
    r ∈ b.closure qs ↔ ∃ p ∈ a.closure ps, f p = r := by
  constructor
  · intro hr
    apply closure_induction _ _ hr
    · intro q hq _
      obtain ⟨p, hp, rfl⟩ := (hqs q).mp hq
      exact ⟨p, mem_closure_start hp (hps p hp), rfl⟩
    · intro q r _ ih he
      obtain ⟨p, hp, rfl⟩ := ih
      obtain ⟨q, hq, hr⟩ := (h.mem_edges_map p none r (ha.valid_of_mem_closure hp)).mp he
      exact ⟨q, mem_closure_follow hp hq, hr⟩
  · intro hr
    obtain ⟨p, hp, rfl⟩ := hr
    apply closure_induction _ _ hp
    · intro p hp hvalid
      exact mem_closure_start ((hqs _).mpr ⟨p, hp, rfl⟩) (h.valid_map p hvalid)
    · intro p q hp ih he
      have hmove := (h.mem_edges_map p none (f q) (ha.valid_of_mem_closure hp)).mpr ⟨q, he, rfl⟩
      exact mem_closure_follow ih hmove

theorem mem_step (h : Embeds f a b) (ha : a.WellFormed) (hs : ∀ p ∈ s, a.Valid p)
    (ht : ∀ q, q ∈ t ↔ ∃ p ∈ s, f p = q) {c : Char} {r : State} :
    r ∈ b.step t c ↔ ∃ p ∈ a.step s c, f p = r := by
  apply h.mem_closure ha
  · intro q hq
    obtain ⟨p, -, he⟩ := MoveRelation.mem_image.mp hq
    exact (ha.moves_valid _ he).2
  · intro r
    simp only [Ascending.mem_toList, MoveRelation.mem_image]
    constructor
    · intro hr
      obtain ⟨q, hq, he⟩ := hr
      obtain ⟨p, hp, rfl⟩ := (ht q).mp hq
      obtain ⟨q, hmove, hr⟩ := (h.mem_edges_map p _ r (hs p hp)).mp he
      exact ⟨q, ⟨p, hp, hmove⟩, hr⟩
    · intro hr
      obtain ⟨q, ⟨p, hp, he⟩, hr⟩ := hr
      exact ⟨f p, (ht _).mpr ⟨p, hp, rfl⟩, (h.mem_edges_map p _ r (hs p hp)).mpr ⟨q, he, hr⟩⟩

theorem mem_foldl_step (h : Embeds f a b) (ha : a.WellFormed) (hs : ∀ p ∈ s, a.Valid p)
    (ht : ∀ q, q ∈ t ↔ ∃ p ∈ s, f p = q) {r : State} :
    r ∈ word.foldl b.step t ↔ ∃ p ∈ word.foldl a.step s, f p = r := by
  induction word generalizing s t with
  | nil => exact ht r
  | cons c word ih =>
      apply ih
      · intro q hq
        exact ha.valid_of_mem_closure hq
      · intro q
        exact h.mem_step ha hs ht

end Embeds

-- The states in which an automaton can be after a word, from any of the states of a list. Each kind
-- is run by its own engine.
def reachedFrom : {k : Kind} → Automaton k → List State → List Char → Ascending State
  | .nfa, a, ps, word => word.foldl a.step (a.closure ps)
  | .dfa, a, ps, word => .ofList (ps.filterMap fun p => DFA.walk? a p word)

-- Both engines agree on this, so it can be asked of the one that keeps sets.
theorem mem_reachedFrom (ha : a.WellFormed) (hps : ∀ p ∈ ps, a.Valid p) {q : State} :
    q ∈ a.reachedFrom ps word ↔ q ∈ word.foldl a.step (a.closure ps) := by
  cases j with
  | nfa => exact Iff.rfl
  | dfa =>
      have hclosure : ∀ p, p ∈ a.closure ps ↔ p ∈ ps := by
        intro p
        rw [DFA.mem_closure ha]
        exact and_iff_left_of_imp (hps p)
      simp [reachedFrom, DFA.mem_foldl_step ha, hclosure]

theorem Embeds.mem_reachedFrom (h : Embeds f a b) (ha : a.WellFormed) (hb : b.WellFormed)
    (hps : ∀ p ∈ ps, a.Valid p) {r : State} :
    r ∈ b.reachedFrom (ps.map f) word ↔ ∃ p ∈ a.reachedFrom ps word, f p = r := by
  have hmap : ∀ q ∈ ps.map f, b.Valid q := by
    intro q hq
    obtain ⟨p, hp, rfl⟩ := List.mem_map.mp hq
    exact h.valid_map p (hps p hp)
  simp only [Automaton.mem_reachedFrom ha hps, Automaton.mem_reachedFrom hb hmap]
  apply h.mem_foldl_step ha
  · intro p hp
    exact ha.valid_of_mem_closure hp
  · intro q
    apply h.mem_closure ha hps
    intro q
    exact List.mem_map

end Automaton

namespace NFA

open Automaton (Embeds reachedFrom)

variable {k : Kind} {host : NFA} {guest : Automaton k}

theorem embeds_host (hguest : guest.WellFormed) :
    Embeds id host (Automaton.append host guest) where
  valid_map p hp := hp.of_size_le (Nat.le_add_right _ _)
  mem_edges_map p l r hp := by
    have hnew : ⟨p, l, r⟩ ∉ guest.moves.shifted host.size := by
      intro he
      have hsource := Automaton.valid_iff.mp (hguest.moves_valid _ (MoveRelation.mem_shifted.mp he)).1
      have hp := Automaton.valid_iff.mp hp
      simp only at hsource
      omega
    have hmove : ⟨p, l, r⟩ ∈ (Automaton.append host guest).moves.edges ↔
        ⟨p, l, r⟩ ∈ host.moves.edges :=
      MoveRelation.mem_edges_addAll.trans (or_iff_right hnew)
    simp only [id_eq, hmove, exists_eq_right]

theorem embeds_guest (hhost : Automaton.WellFormed host) :
    Embeds (· + (host.size : Int)) guest (Automaton.append host guest) where
  valid_map p hp := by
    have hp := Automaton.valid_iff.mp hp
    simp only [Automaton.valid_iff, Automaton.append]
    omega
  mem_edges_map p l r hp := by
    have hold : ⟨p + host.size, l, r⟩ ∉ host.moves.edges := by
      intro he
      have hsource := Automaton.valid_iff.mp (hhost.moves_valid _ he).1
      have hp := Automaton.valid_iff.mp hp
      simp only at hsource
      omega
    have hmove : ⟨p + host.size, l, r⟩ ∈ (Automaton.append host guest).moves.edges ↔
        ⟨p, l, r - host.size⟩ ∈ guest.moves.edges := by
      refine (MoveRelation.mem_edges_addAll.trans (or_iff_left hold)).trans ?_
      rw [MoveRelation.mem_shifted, Int.add_sub_cancel]
    rw [hmove]
    constructor
    · intro he
      exact ⟨r - host.size, he, Int.sub_add_cancel r host.size⟩
    · intro he
      obtain ⟨q, he, rfl⟩ := he
      rwa [Int.add_sub_cancel]

-- Appended states cannot be reached from the host's.
theorem reached_append (hhost : Automaton.WellFormed host) (hguest : guest.WellFormed)
    (word : List Char) : reached (Automaton.append host guest) word = reached host word := by
  have hembeds : Automaton.Embeds id host (Automaton.append host guest) := embeds_host hguest
  have hzero : ∀ p ∈ [(0 : State)], Automaton.Valid host p :=
    List.forall_mem_singleton.mpr hhost.valid_zero
  apply Ascending.ext
  intro q
  have hsame : q ∈ reached (Automaton.append host guest) word ↔
      ∃ p ∈ reached host word, id p = q := by
    apply hembeds.mem_foldl_step hhost
    · intro p hp
      exact hhost.valid_of_mem_closure hp
    · intro q
      exact hembeds.mem_closure hhost hzero (by simp [eq_comm])
  simpa using hsame

-- What becomes of a host, its guest and the numbers of their states.
structure HoldsBoth (host : NFA) (guest : Automaton k) (both : NFA) : Prop where
  size : both.size = host.size + guest.size
  finals : both.finals = host.finals
  edges : both.moves.edges.toList =
    host.moves.edges.toList ++ guest.moves.edges.toList.map (Edge.shift host.size)
  keys : host.moves.keys <+: both.moves.keys
  reached_host : ∀ ps : List State, (∀ p ∈ ps, Automaton.Valid host p) → ∀ word,
    reachedFrom both ps word = reachedFrom host ps word
  reached_guest : ∀ ps : List State, (∀ p ∈ ps, guest.Valid p) → ∀ word r,
    r ∈ reachedFrom both (ps.map (· + (host.size : Int))) word ↔
      ∃ p ∈ reachedFrom guest ps word, p + (host.size : Int) = r
  accepts : ∀ word, accepts both word = accepts host word

-- The guest may be of either kind, and it may be the host itself.
theorem holdsBoth_append (hhost : Reachable host) (hguest : Reachable guest) :
    HoldsBoth host guest (Automaton.append host guest) ∧
    ∀ (w : Workspace) (name other : String), w.nfa? name = .ok host →
      w.automaton? other = .ok ⟨k, guest⟩ →
        w.step (.append name other) = (.ok (.state host.size),
          w.set name (.automaton ⟨.nfa, Automaton.append host guest⟩)) := by
  have hhost := hhost.wellFormed
  have hguest := hguest.wellFormed
  have hboth := hhost.append hguest
  constructor
  · exact {
      size := rfl
      finals := rfl
      edges := MoveRelation.edges_addAll_shifted
        (fun e he => (hhost.moves_valid e he).1.2) (fun e he => (hguest.moves_valid e he).1.1)
      keys := MoveRelation.keys_prefix_addAll _ _
      reached_host := fun ps hps word => by
        apply Ascending.ext
        intro q
        have hsame : q ∈ reachedFrom (Automaton.append host guest) (ps.map id) word ↔
            ∃ p ∈ reachedFrom host ps word, id p = q :=
          (embeds_host hguest).mem_reachedFrom hhost hboth hps
        simpa using hsame
      reached_guest := fun ps hps word r =>
        (embeds_guest hhost).mem_reachedFrom hguest hboth hps
      accepts := fun word => by
        rw [accepts_eq_hasFinal, accepts_eq_hasFinal, reached_append hhost hguest]
        rfl }
  · intro w name other hname hother
    simp only [Workspace.step, Workspace.execute?, hname, hother]
    rfl

-- A star is appended to itself.
theorem holdsBoth_append_itself :
    let a := Regex.toNFA (.star (.literal 'a'))
    let w : Workspace := [("a", .automaton ⟨.nfa, a⟩)]
    HoldsBoth a a (Automaton.append a a) ∧
      w.step (.append "a" "a") =
        (.ok (.state 4), w.set "a" (.automaton ⟨.nfa, Automaton.append a a⟩)) := by
  intro a w
  have ha : Reachable a := ⟨[.make (.pattern (.star (.literal 'a'))) "a"], "a", rfl⟩
  have happend := holdsBoth_append ha ha
  exact ⟨happend.1, happend.2 w "a" "a" rfl rfl⟩

end NFA

end FiniteAutomata
