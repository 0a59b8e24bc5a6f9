import FiniteAutomata.Run

/-!
Subset construction. Each deterministic state stands for a set of nondeterministic ones. The
subsets are numbered when they are first seen, the empty one like any other, and the last one
numbered is expanded first, over the symbols in ascending order. The construction ends because
every step expands a numbered subset, and there are only finitely many subsets to number
(`weight_lt_of_expand?`).
-/

namespace FiniteAutomata

-- A deterministic automaton under construction, and what its states stand for.
structure Exploration where
  dfa : DFA
  -- the subset that each of its states stands for, by number
  subsets : Array (Ascending State)
  -- the number of each subset, by its members
  numbers : Std.TreeMap (List State) Nat
  -- the states numbered but not expanded, the latest first
  pending : List Nat

namespace Exploration

def begin (a : NFA) : Exploration :=
  let start := NFA.start a
  ⟨.blank 1, #[start], (∅ : Std.TreeMap (List State) Nat).insert start.toList 0, [0]⟩

def subset (x : Exploration) (p : Nat) : Ascending State := x.subsets[p]?.getD ∅

-- The state of a subset; a subset not seen before gets a new state, to be expanded later.
def number (x : Exploration) (s : Ascending State) : Exploration × Nat :=
  match x.numbers[s.toList]? with
  | some q => (x, q)
  | none =>
    let q := x.dfa.size
    (⟨x.dfa.addState, x.subsets.push s, x.numbers.insert s.toList q, q :: x.pending⟩, q)

-- The move of state `p`, which stands for `s`, under `c`.
def wire (a : NFA) (p : Nat) (s : Ascending State) (x : Exploration) (c : Char) : Exploration :=
  let (x, q) := x.number (a.step s c)
  { x with dfa := x.dfa.setMove p c q }

-- Expands the latest pending state over the symbols `cs`, if there is one.
def expand? (a : NFA) (cs : List Char) (x : Exploration) : Option Exploration :=
  match x.pending with
  | [] => none
  | p :: rest => some (cs.foldl (wire a p (x.subset p)) { x with pending := rest })

-- All states that a run can be in.
def stateRange (a : NFA) : Ascending State :=
  .ofList (0 :: a.moves.edges.toList.map Edge.target)

theorem mem_stateRange_of_mem_edges {a : NFA} {e : Edge Char} (he : e ∈ a.moves.edges) :
    e.target ∈ stateRange a :=
  Ascending.mem_ofList.mpr (List.mem_cons_of_mem _ (List.mem_map.mpr ⟨e, he, rfl⟩))

theorem mem_stateRange_of_mem_closure {a : NFA} {ps : List State}
    (h : ∀ p ∈ ps, p ∈ stateRange a) {q : State} (hq : q ∈ a.closure ps) : q ∈ stateRange a := by
  cases (MoveRelation.mem_reach.mp hq).mem_or_next with
  | inl hq => exact h q (List.mem_filter.mp hq).1
  | inr hq =>
    obtain ⟨p, hp⟩ := hq
    exact mem_stateRange_of_mem_edges (MoveRelation.mem_targets.mp hp)

theorem mem_stateRange_of_mem_step {a : NFA} {s : Ascending State} {c : Char} {q : State}
    (hq : q ∈ a.step s c) : q ∈ stateRange a := by
  refine mem_stateRange_of_mem_closure (fun p hp => ?_) hq
  obtain ⟨r, _, he⟩ := MoveRelation.mem_image.mp hp
  exact mem_stateRange_of_mem_edges he

-- The lists of some elements of a list, in its order.
def selections : List State → List (List State)
  | [] => [[]]
  | p :: ps => selections ps ++ (selections ps).map (p :: ·)

theorem mem_selections_of_sublist {l m : List State} (h : l.Sublist m) : l ∈ selections m := by
  induction h with
  | slnil => exact List.mem_singleton_self _
  | cons p _ ih => exact List.mem_append_left _ ih
  | cons_cons p _ ih => exact List.mem_append_right _ (List.mem_map_of_mem ih)

-- Sets list their members in the same order, so a subset's list is a selection.
theorem mem_selections_of_subset {s t : Ascending State} (h : ∀ p ∈ s, p ∈ t) :
    s.toList ∈ selections t.toList := by
  have hs : t.filter (fun p => p ∈ s) = s :=
    Ascending.ext fun p => by
      rw [Ascending.mem_filter, decide_eq_true_eq]
      exact and_iff_right_of_imp (h p)
  rw [← hs]
  exact mem_selections_of_sublist List.filter_sublist

-- The subsets that have no number yet.
def unnumbered (a : NFA) (numbers : Std.TreeMap (List State) Nat) : List (List State) :=
  (selections (stateRange a).toList).filter fun l => l ∉ numbers

-- How many expansions are left at most: one for each subset that is pending or unnumbered.
def weight (a : NFA) (x : Exploration) : Nat := (unnumbered a x.numbers).length + x.pending.length

theorem length_unnumbered_lt {a : NFA} {numbers : Std.TreeMap (List State) Nat}
    {s : Ascending State} {q : Nat} (hs : ∀ p ∈ s, p ∈ stateRange a)
    (hnew : s.toList ∉ numbers) :
    (unnumbered a (numbers.insert s.toList q)).length < (unnumbered a numbers).length := by
  have hfilter : unnumbered a (numbers.insert s.toList q) =
      (unnumbered a numbers).filter fun l => s.toList ≠ l := by
    simp only [unnumbered, List.filter_filter]
    refine List.filter_congr fun l _ => ?_
    simp [Std.TreeMap.mem_insert]
  rw [hfilter]
  refine List.length_filter_lt_length_iff_exists.mpr ⟨s.toList, ?_, by simp⟩
  exact List.mem_filter.mpr ⟨mem_selections_of_subset hs, decide_eq_true hnew⟩

theorem weight_number_le {a : NFA} {x : Exploration} {s : Ascending State}
    (hs : ∀ p ∈ s, p ∈ stateRange a) : weight a (x.number s).1 ≤ weight a x := by
  unfold number
  split
  · exact Nat.le_refl _
  · rename_i hnone
    have hnew : s.toList ∉ x.numbers := fun h => by
      rw [Std.TreeMap.mem_iff_isSome_getElem?, hnone] at h
      exact nomatch h
    have := length_unnumbered_lt (q := x.dfa.size) hs hnew
    simp only [weight, List.length_cons]
    omega

theorem weight_wire_le {a : NFA} {p : Nat} {s : Ascending State} {x : Exploration} {c : Char} :
    weight a (wire a p s x c) ≤ weight a x :=
  weight_number_le fun _ => mem_stateRange_of_mem_step

theorem weight_foldl_wire_le {a : NFA} {p : Nat} {s : Ascending State} {x : Exploration}
    {cs : List Char} : weight a (cs.foldl (wire a p s) x) ≤ weight a x := by
  induction cs generalizing x with
  | nil => exact Nat.le_refl _
  | cons c cs ih => exact Nat.le_trans ih weight_wire_le

theorem weight_lt_of_expand? {a : NFA} {cs : List Char} {x y : Exploration}
    (h : expand? a cs x = some y) : weight a y < weight a x := by
  unfold expand? at h
  split at h
  · exact nomatch h
  · rename_i p rest hpending
    cases h
    refine Nat.lt_of_le_of_lt weight_foldl_wire_le ?_
    simp only [weight, hpending, List.length_cons]
    omega

-- Expands until nothing is pending.
def run (a : NFA) (cs : List Char) (x : Exploration) : Exploration :=
  match _h : expand? a cs x with
  | none => x
  | some y => run a cs y
termination_by weight a x
decreasing_by exact weight_lt_of_expand? _h

end Exploration

-- A deterministic automaton with the subset that each of its states stands for.
structure Determinization where
  dfa : DFA
  subsets : List (Ascending State)
  -- the state that stands for a subset, by its members
  numbers : Std.TreeMap (List State) Nat

namespace Determinization

def subset (d : Determinization) (p : Nat) : Ascending State := d.subsets.getD p ∅

-- The state that stands for a subset.
def index? (d : Determinization) (s : Ascending State) : Option Nat := d.numbers[s.toList]?

end Determinization

namespace NFA

def explored (a : NFA) : Exploration := .run a a.alphabet.toList (.begin a)

-- A state is final when its subset holds a final state.
def determinize (a : NFA) : Determinization :=
  let x := explored a
  let finals := x.dfa.states.filter fun p => a.hasFinal (x.subset p.toNat).toList
  ⟨finals.foldl Automaton.addFinal x.dfa, x.subsets.toList, x.numbers⟩

def toDFA (a : NFA) : DFA := (determinize a).dfa

end NFA

end FiniteAutomata
