/-!
Sorting by a comparison that may fail. The run at the front that ascends or strictly descends is
taken over, and each item behind it is put in its place, which is found by halving; the first
comparison that fails ends the sorting. What was sorted holds the same items (`perm_of_sort?`) and
ascends in every order that the comparison respects (`pairwise_of_sort?`). Items of which no two fail
to be compared can be sorted (`exists_sort?`).
-/

namespace FiniteAutomata.Sorting

variable {α ε : Type} (less? : α → α → Except ε Bool)

-- The place of `a` between two places of an ascending array, behind what is not greater.
def place? (a : α) (xs : Array α) (lo hi : Nat) (hhi : hi ≤ xs.size) : Except ε Nat :=
  if hlo : lo < hi then
    let mid := lo + (hi - lo) / 2
    have hmid : mid < hi := by omega
    have hsize : mid < xs.size := Nat.lt_of_lt_of_le hmid hhi
    (less? a xs[mid]).bind fun below =>
      if below then place? a xs lo mid (Nat.le_of_lt hsize) else place? a xs (mid + 1) hi hhi
  else .ok lo
termination_by hi - lo
decreasing_by
  · omega
  · omega

def insert? (xs : Array α) (a : α) : Except ε (Array α) :=
  (place? less? a xs 0 xs.size (Nat.le_refl _)).map fun i =>
    (xs.toList.take i ++ a :: xs.toList.drop i).toArray

-- The run that goes on from the last item taken, and what is left. With `down` the run descends.
def run? (down : Bool) (last : α) (taken : List α) : List α → Except ε (List α × List α)
  | [] => .ok (last :: taken, [])
  | a :: rest =>
    (less? a last).bind fun below =>
      if below = down then run? down a (last :: taken) rest else .ok (last :: taken, a :: rest)

-- The items of a run in ascending order; it was taken last item first.
def ascend (down : Bool) (taken : List α) : List α := if down then taken else taken.reverse

def sort? : List α → Except ε (List α)
  | a :: b :: rest => do
    let down ← less? b a
    let (taken, rest) ← run? less? down b [a] rest
    return (← rest.foldlM (insert? less?) (ascend down taken).toArray).toList
  | items => .ok items

theorem perm_of_insert? {xs ys : Array α} {a : α} (h : insert? less? xs a = .ok ys) :
    (a :: xs.toList).Perm ys.toList := by
  unfold insert? at h
  cases hi : place? less? a xs 0 xs.size (Nat.le_refl _) with
  | error e => rw [hi] at h; exact nomatch h
  | ok i =>
    rw [hi] at h
    cases h
    calc (a :: xs.toList).Perm (a :: (xs.toList.take i ++ xs.toList.drop i)) := by
          rw [List.take_append_drop]
      _ |>.Perm (xs.toList.take i ++ a :: xs.toList.drop i) := List.perm_middle.symm

theorem perm_of_foldlM_insert? {items : List α} {xs ys : Array α}
    (h : items.foldlM (insert? less?) xs = .ok ys) : (items ++ xs.toList).Perm ys.toList := by
  induction items generalizing xs with
  | nil => cases h; exact List.Perm.refl _
  | cons a items ih =>
    rw [List.foldlM_cons] at h
    cases ha : insert? less? xs a with
    | error e => rw [ha] at h; exact nomatch h
    | ok zs =>
      rw [ha] at h
      exact (List.perm_middle.symm.trans ((perm_of_insert? less? ha).append_left items)).trans (ih h)

theorem perm_of_run? {down : Bool} {last : α} {taken rest run left : List α}
    (h : run? less? down last taken rest = .ok (run, left)) :
    (rest ++ last :: taken).Perm (left ++ run) := by
  induction rest generalizing last taken with
  | nil => cases h; exact List.Perm.refl _
  | cons a rest ih =>
    unfold run? at h
    cases hb : less? a last with
    | error e => rw [hb] at h; exact nomatch h
    | ok below =>
      simp only [hb, Except.bind] at h
      split at h
      · exact List.perm_middle.symm.trans (ih h)
      · cases h; exact List.Perm.refl _

theorem perm_of_sort? {items sorted : List α} (h : sort? less? items = .ok sorted) :
    items.Perm sorted := by
  unfold sort? at h
  split at h
  · rename_i a b rest
    simp only [bind, Except.bind] at h
    split at h
    · exact nomatch h
    · rename_i down _
      split at h
      · exact nomatch h
      · rename_i run hrun
        split at h
        · exact nomatch h
        · rename_i ys hys
          cases h
          have hrest := perm_of_foldlM_insert? less? hys
          have hascend : (ascend down run.1).Perm run.1 := by
            unfold ascend
            split
            · exact List.Perm.refl _
            · exact List.reverse_perm _
          have hrun : (rest ++ [b, a]).Perm (run.2 ++ run.1) := perm_of_run? less? hrun
          calc (a :: b :: rest).Perm (b :: a :: rest) := List.Perm.swap b a rest
            _ |>.Perm (rest ++ [b, a]) := (List.perm_append_comm : ([b, a] ++ rest).Perm _)
            _ |>.Perm (run.2 ++ run.1) := hrun
            _ |>.Perm (run.2 ++ ascend down run.1) := hascend.symm.append_left run.2
            _ |>.Perm ys.toList := hrest
  · cases h; exact List.Perm.refl _

-- The comparison puts no two items against the order `le`.
structure Respects (le : α → α → Prop) : Prop where
  trans : ∀ {a b c : α}, le a b → le b c → le a c
  below : ∀ {a b : α}, less? a b = .ok true → le a b
  notBelow : ∀ {a b : α}, less? a b = .ok false → le b a

variable {less?} {le : α → α → Prop}

-- What stands before the place of `a` goes before it, and what stands behind goes behind.
theorem le_of_place? (hle : Respects less? le) {a : α} {xs : Array α} {lo hi i : Nat}
    {hhi : hi ≤ xs.size} (hxs : xs.toList.Pairwise le)
    (hlow : ∀ x ∈ xs.toList.take lo, le x a) (hhigh : ∀ x ∈ xs.toList.drop hi, le a x)
    (h : place? less? a xs lo hi hhi = .ok i) :
    (∀ x ∈ xs.toList.take i, le x a) ∧ ∀ x ∈ xs.toList.drop i, le a x := by
  fun_induction place? less? a xs lo hi hhi with
  | case1 lo hi hhi hlo mid hmid hsize ihLow ihHigh =>
    have hdrop : xs.toList.drop mid = xs[mid] :: xs.toList.drop (mid + 1) := by
      rw [← Array.getElem_toList hsize, List.getElem_cons_drop]
    have htake : xs.toList.take (mid + 1) = xs.toList.take mid ++ [xs[mid]] := by
      rw [← Array.getElem_toList hsize, List.take_append_getElem]
    have hsplit := hxs
    rw [← List.take_append_drop mid xs.toList, hdrop] at hsplit
    obtain ⟨-, hbehind, hbefore⟩ := List.pairwise_append.mp hsplit
    cases hb : less? a xs[mid] with
    | error e => rw [hb] at h; exact nomatch h
    | ok below =>
      simp only [hb, Except.bind] at h
      cases below with
      | true =>
        refine ihLow hlow (fun x hx => ?_) h
        cases List.mem_cons.mp (hdrop ▸ hx) with
        | inl hx => exact hx ▸ hle.below hb
        | inr hx => exact hle.trans (hle.below hb) (List.rel_of_pairwise_cons hbehind hx)
      | false =>
        refine ihHigh (fun x hx => ?_) hhigh h
        cases List.mem_append.mp (htake ▸ hx) with
        | inl hx => exact hle.trans (hbefore x hx _ List.mem_cons_self) (hle.notBelow hb)
        | inr hx => exact List.mem_singleton.mp hx ▸ hle.notBelow hb
  | case2 lo hi hhi hlo =>
    cases h
    exact ⟨hlow, fun x hx => hhigh x (List.drop_subset_drop_left _ (Nat.le_of_not_lt hlo) hx)⟩

theorem pairwise_of_insert? (hle : Respects less? le) {xs ys : Array α} {a : α}
    (hxs : xs.toList.Pairwise le) (h : insert? less? xs a = .ok ys) : ys.toList.Pairwise le := by
  unfold insert? at h
  cases hi : place? less? a xs 0 xs.size (Nat.le_refl _) with
  | error e => rw [hi] at h; exact nomatch h
  | ok i =>
    rw [hi] at h
    cases h
    have hnone : xs.toList.drop xs.size = [] :=
      List.drop_eq_nil_of_le (Nat.le_of_eq Array.length_toList)
    obtain ⟨hbefore, hbehind⟩ := le_of_place? hle hxs
      (fun _ hx => absurd hx List.not_mem_nil)
      (fun _ hx => absurd (hnone ▸ hx) List.not_mem_nil) hi
    have hsplit := hxs
    rw [← List.take_append_drop i xs.toList] at hsplit
    obtain ⟨htake, hdrop, hcross⟩ := List.pairwise_append.mp hsplit
    refine List.pairwise_append.mpr ⟨htake, List.pairwise_cons.mpr ⟨hbehind, hdrop⟩, ?_⟩
    intro x hx y hy
    cases List.mem_cons.mp hy with
    | inl hy => exact hy ▸ hbefore x hx
    | inr hy => exact hcross x hx y hy

theorem pairwise_of_foldlM_insert? (hle : Respects less? le) {items : List α} {xs ys : Array α}
    (hxs : xs.toList.Pairwise le) (h : items.foldlM (insert? less?) xs = .ok ys) :
    ys.toList.Pairwise le := by
  induction items generalizing xs with
  | nil => cases h; exact hxs
  | cons a items ih =>
    rw [List.foldlM_cons] at h
    cases ha : insert? less? xs a with
    | error e => rw [ha] at h; exact nomatch h
    | ok zs =>
      rw [ha] at h
      exact ih (pairwise_of_insert? hle hxs ha) h

theorem pairwise_ascend_cons (hle : Respects less? le) {down : Bool} {a last : α}
    {taken : List α} (htaken : (ascend down (last :: taken)).Pairwise le)
    (h : less? a last = .ok down) : (ascend down (a :: last :: taken)).Pairwise le := by
  cases down with
  | true =>
    refine List.pairwise_cons.mpr ⟨fun x hx => ?_, htaken⟩
    cases List.mem_cons.mp hx with
    | inl hx => exact hx ▸ hle.below h
    | inr hx => exact hle.trans (hle.below h) (List.rel_of_pairwise_cons htaken hx)
  | false =>
    refine List.pairwise_reverse.mpr (List.pairwise_cons.mpr ⟨fun x hx => ?_, ?_⟩)
    · cases List.mem_cons.mp hx with
      | inl hx => exact hx ▸ hle.notBelow h
      | inr hx =>
        have hlast := List.rel_of_pairwise_cons (List.pairwise_reverse.mp htaken) hx
        exact hle.trans hlast (hle.notBelow h)
    · exact List.pairwise_reverse.mp htaken

theorem pairwise_of_run? (hle : Respects less? le) {down : Bool} {last : α}
    {taken rest run left : List α} (htaken : (ascend down (last :: taken)).Pairwise le)
    (h : run? less? down last taken rest = .ok (run, left)) :
    (ascend down run).Pairwise le := by
  induction rest generalizing last taken with
  | nil => cases h; exact htaken
  | cons a rest ih =>
    unfold run? at h
    cases hb : less? a last with
    | error e => rw [hb] at h; exact nomatch h
    | ok below =>
      simp only [hb, Except.bind] at h
      split at h
      · rename_i hdown
        exact ih (pairwise_ascend_cons hle htaken (hdown ▸ hb)) h
      · cases h; exact htaken

theorem pairwise_of_sort? (hle : Respects less? le) {items sorted : List α}
    (h : sort? less? items = .ok sorted) : sorted.Pairwise le := by
  unfold sort? at h
  split at h
  · rename_i a b rest
    simp only [bind, Except.bind] at h
    split at h
    · exact nomatch h
    · rename_i down hdown
      split at h
      · exact nomatch h
      · rename_i run hrun
        split at h
        · exact nomatch h
        · rename_i ys hys
          cases h
          have hsingle : (ascend down [a]).Pairwise le := by
            cases down <;> exact List.pairwise_singleton _ _
          have hfirst := pairwise_ascend_cons hle hsingle hdown
          exact pairwise_of_foldlM_insert? hle (pairwise_of_run? hle hfirst hrun) hys
  · rename_i hshort
    cases h
    match items, hshort with
    | [], _ => exact .nil
    | [_], _ => exact List.pairwise_singleton _ _
    | a :: b :: rest, hshort => exact absurd rfl (hshort a b rest)

-- Comparisons that do not fail

section Total

variable {P : α → Prop} (hless : ∀ a b, P a → P b → ∃ below, less? a b = .ok below)

include hless

theorem exists_place? {a : α} {xs : Array α} {lo hi : Nat} {hhi : hi ≤ xs.size} (ha : P a)
    (hxs : ∀ x ∈ xs.toList, P x) : ∃ i, place? less? a xs lo hi hhi = .ok i := by
  fun_induction place? less? a xs lo hi hhi with
  | case1 lo hi hhi hlo mid hmid hsize ihLow ihHigh =>
    obtain ⟨below, hb⟩ := hless a xs[mid] ha (hxs _ (Array.getElem_mem_toList hsize))
    simp only [hb, Except.bind]
    split
    · exact ihLow
    · exact ihHigh
  | case2 lo hi hhi hlo => exact ⟨lo, rfl⟩

theorem exists_foldlM_insert? {items : List α} {xs : Array α} (hitems : ∀ a ∈ items, P a)
    (hxs : ∀ x ∈ xs.toList, P x) : ∃ ys, items.foldlM (insert? less?) xs = .ok ys := by
  induction items generalizing xs with
  | nil => exact ⟨xs, rfl⟩
  | cons a items ih =>
    obtain ⟨ha, hitems⟩ := List.forall_mem_cons.mp hitems
    obtain ⟨i, hi⟩ : ∃ i, place? less? a xs 0 xs.size (Nat.le_refl _) = .ok i :=
      exists_place? hless ha hxs
    have hinsert : ∃ ys, insert? less? xs a = .ok ys := by
      rw [insert?, hi]
      exact ⟨_, rfl⟩
    obtain ⟨ys, hys⟩ := hinsert
    have hmem : ∀ y ∈ ys.toList, P y := fun y hy => by
      rcases List.mem_cons.mp ((perm_of_insert? less? hys).mem_iff.mpr hy) with rfl | hy
      · exact ha
      · exact hxs y hy
    rw [List.foldlM_cons, hys]
    exact ih hitems hmem

theorem exists_run? {down : Bool} {last : α} {taken rest : List α} (hlast : P last)
    (hrest : ∀ a ∈ rest, P a) : ∃ run, run? less? down last taken rest = .ok run := by
  induction rest generalizing last taken with
  | nil => exact ⟨_, rfl⟩
  | cons a rest ih =>
    obtain ⟨ha, hrest⟩ := List.forall_mem_cons.mp hrest
    obtain ⟨below, hb⟩ := hless a last ha hlast
    simp only [run?, hb, Except.bind]
    split
    · exact ih ha hrest
    · exact ⟨_, rfl⟩

theorem exists_sort? {items : List α} (hitems : ∀ a ∈ items, P a) :
    ∃ sorted, sort? less? items = .ok sorted := by
  match items, hitems with
  | [], _ => exact ⟨[], rfl⟩
  | [a], _ => exact ⟨[a], rfl⟩
  | a :: b :: rest, hitems =>
    obtain ⟨ha, hbrest⟩ := List.forall_mem_cons.mp hitems
    obtain ⟨hb, hrest⟩ := List.forall_mem_cons.mp hbrest
    obtain ⟨down, hdown⟩ := hless b a hb ha
    obtain ⟨⟨run, left⟩, hrun⟩ : ∃ run, run? less? down b [a] rest = .ok run :=
      exists_run? hless hb hrest
    have hperm := perm_of_run? less? hrun
    have hparts : ∀ x ∈ left ++ run, P x := fun x hx => by
      rcases List.mem_append.mp (hperm.mem_iff.mpr hx) with hx | hx
      · exact hrest x hx
      · rcases List.mem_cons.mp hx with rfl | hx
        · exact hb
        · exact List.mem_singleton.mp hx ▸ ha
    obtain ⟨hleft, htaken⟩ := List.forall_mem_append.mp hparts
    have hascend : ∀ x ∈ (ascend down run).toArray.toList, P x := fun x hx => by
      cases down with
      | true => exact htaken x hx
      | false => exact htaken x (List.mem_reverse.mp hx)
    obtain ⟨ys, hys⟩ := exists_foldlM_insert? hless hleft hascend
    refine ⟨ys.toList, ?_⟩
    simp only [sort?, hdown, hrun, hys, bind, Except.bind, pure, Except.pure]

end Total

end FiniteAutomata.Sorting
