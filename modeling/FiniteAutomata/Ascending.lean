import Std.Data.TreeSet

/-!
Finite sets over a linear order, kept as strictly ascending lists. Two sets with the same
members are equal (`Ascending.ext`), so a set can be compared, listed and printed through
its one list.
-/

namespace FiniteAutomata

-- Comparing by two parts tells values apart when the two parts together do.
theorem lawfulEqCmp_compareLex {α β γ : Type} [Ord β] [Ord γ] [Std.LawfulEqOrd β]
    [Std.LawfulEqOrd γ] (f : α → β) (g : α → γ) (h : ∀ a b, f a = f b → g a = g b → a = b) :
    Std.LawfulEqCmp (compareLex (compareOn f) (compareOn g)) where
  compare_self := Ordering.then_eq_eq.mpr ⟨Std.ReflCmp.compare_self, Std.ReflCmp.compare_self⟩
  eq_of_compare hab :=
    have hfg := Ordering.then_eq_eq.mp hab
    h _ _ (Std.LawfulEqCmp.eq_of_compare hfg.1) (Std.LawfulEqCmp.eq_of_compare hfg.2)

structure Ascending (α : Type) [Ord α] where
  toList : List α
  ascending : toList.Pairwise (compare · · = .lt)

namespace Ascending

variable {α : Type} [Ord α]

instance : Membership α (Ascending α) := ⟨fun s a => a ∈ s.toList⟩

instance [DecidableEq α] : DecidableEq (Ascending α) := fun s t =>
  if h : s.toList = t.toList then isTrue (by cases s; cases t; cases h; rfl)
  else isFalse fun e => h (congrArg toList e)

instance [DecidableEq α] (a : α) (s : Ascending α) : Decidable (a ∈ s) :=
  inferInstanceAs (Decidable (a ∈ s.toList))

@[simp] theorem mem_toList {a : α} {s : Ascending α} : a ∈ s.toList ↔ a ∈ s := Iff.rfl

def empty : Ascending α := ⟨[], .nil⟩

instance : EmptyCollection (Ascending α) := ⟨empty⟩
instance : Inhabited (Ascending α) := ⟨empty⟩

def isEmpty (s : Ascending α) : Bool := s.toList.isEmpty

def singleton (a : α) : Ascending α := ⟨[a], List.pairwise_singleton _ _⟩

def filter (p : α → Bool) (s : Ascending α) : Ascending α :=
  ⟨s.toList.filter p, s.ascending.filter p⟩

@[simp] theorem not_mem_empty {a : α} : a ∉ (∅ : Ascending α) := fun h => nomatch h

@[simp] theorem mem_singleton {a b : α} : a ∈ singleton b ↔ a = b := List.mem_singleton

@[simp] theorem mem_filter {p : α → Bool} {s : Ascending α} {a : α} :
    a ∈ s.filter p ↔ a ∈ s ∧ p a = true := List.mem_filter

-- A list with `a` put in its place, or the same list if `a` stands there already.
def insertInto (a : α) : List α → List α
  | [] => [a]
  | b :: bs =>
    match compare a b with
    | .lt => a :: b :: bs
    | .eq => b :: bs
    | .gt => b :: insertInto a bs

theorem mem_insertInto_imp {a x : α} {l : List α} (h : x ∈ insertInto a l) : x = a ∨ x ∈ l := by
  induction l with
  | nil => exact Or.inl (List.mem_singleton.mp h)
  | cons b bs ih =>
    unfold insertInto at h
    split at h
    · exact List.mem_cons.mp h
    · exact Or.inr h
    · cases List.mem_cons.mp h with
      | inl hx => exact Or.inr (hx ▸ List.mem_cons_self)
      | inr hx => exact (ih hx).imp_right (List.mem_cons_of_mem b)

theorem mem_insertInto [Std.LawfulEqOrd α] {a x : α} {l : List α} :
    x ∈ insertInto a l ↔ x = a ∨ x ∈ l := by
  refine ⟨mem_insertInto_imp, fun h => ?_⟩
  induction l with
  | nil => exact List.mem_singleton.mpr (h.resolve_right (List.not_mem_nil))
  | cons b bs ih =>
    unfold insertInto
    split
    case h_1 => exact List.mem_cons.mpr h
    case h_2 heq =>
      cases h with
      | inl hx => exact hx ▸ Std.LawfulEqCmp.eq_of_compare heq ▸ List.mem_cons_self
      | inr hx => exact hx
    case h_3 =>
      cases h with
      | inl hx => exact List.mem_cons_of_mem b (ih (Or.inl hx))
      | inr hx =>
        cases List.mem_cons.mp hx with
        | inl hb => exact hb ▸ List.mem_cons_self
        | inr hb => exact List.mem_cons_of_mem b (ih (Or.inr hb))

variable [Std.TransOrd α]

theorem pairwise_insertInto {l : List α} (a : α) (hl : l.Pairwise (compare · · = .lt)) :
    (insertInto a l).Pairwise (compare · · = .lt) := by
  induction l with
  | nil => exact List.pairwise_singleton _ _
  | cons b bs ih =>
    obtain ⟨hb, hbs⟩ := List.pairwise_cons.mp hl
    unfold insertInto
    split
    case h_1 hlt =>
      refine List.pairwise_cons.mpr ⟨fun x hx => ?_, hl⟩
      cases List.mem_cons.mp hx with
      | inl h => exact h ▸ hlt
      | inr h => exact Std.TransCmp.lt_trans hlt (hb x h)
    case h_2 => exact hl
    case h_3 hgt =>
      refine List.pairwise_cons.mpr ⟨fun x hx => ?_, ih hbs⟩
      cases mem_insertInto_imp hx with
      | inl h => exact h ▸ Std.OrientedCmp.lt_of_gt hgt
      | inr h => exact hb x h

def insert (a : α) (s : Ascending α) : Ascending α :=
  ⟨insertInto a s.toList, pairwise_insertInto a s.ascending⟩

-- A search tree sorts the list.
def ofList (l : List α) : Ascending α :=
  ⟨(l.foldl Std.TreeSet.insert (∅ : Std.TreeSet α compare)).toList, Std.TreeSet.ordered_toList⟩

-- The order is strict, so a set's list holds each member once.
theorem nodup_toList (s : Ascending α) : s.toList.Nodup :=
  s.ascending.imp fun h e => by simp [e, Std.ReflCmp.compare_self] at h

variable [Std.LawfulEqOrd α]

@[simp] theorem mem_insert {a x : α} {s : Ascending α} : x ∈ s.insert a ↔ x = a ∨ x ∈ s :=
  mem_insertInto

@[simp] theorem mem_ofList {x : α} {l : List α} : x ∈ ofList l ↔ x ∈ l := by
  have h (t : Std.TreeSet α compare) : x ∈ l.foldl Std.TreeSet.insert t ↔ x ∈ l ∨ x ∈ t := by
    induction l generalizing t with
    | nil => simp
    | cons a l ih =>
      rw [List.foldl_cons, ih, Std.TreeSet.mem_insert, List.mem_cons, Std.compare_eq_iff_eq]
      grind
  rw [← mem_toList, ofList, Std.TreeSet.mem_toList, h]
  simp

-- A strictly ascending list is fixed by its members: the heads are the two least members.
theorem eq_of_mem_iff {l m : List α} (hl : l.Pairwise (compare · · = .lt))
    (hm : m.Pairwise (compare · · = .lt)) (h : ∀ x, x ∈ l ↔ x ∈ m) : l = m := by
  induction l generalizing m with
  | nil => exact (List.eq_nil_iff_forall_not_mem.mpr fun x hx => nomatch (h x).mpr hx).symm
  | cons a l ih =>
    cases m with
    | nil => exact nomatch (h a).mp List.mem_cons_self
    | cons b m =>
      obtain ⟨ha, hl'⟩ := List.pairwise_cons.mp hl
      obtain ⟨hb, hm'⟩ := List.pairwise_cons.mp hm
      have not_lt_lt {x y : α} (hxy : compare x y = .lt) (hyx : compare y x = .lt) : False := by
        simpa [Std.ReflCmp.compare_self] using Std.TransCmp.lt_trans hxy hyx
      have hab : a = b := by
        cases List.mem_cons.mp ((h a).mp List.mem_cons_self) with
        | inl e => exact e
        | inr ham =>
          cases List.mem_cons.mp ((h b).mpr List.mem_cons_self) with
          | inl e => exact e.symm
          | inr hbl => exact (not_lt_lt (ha b hbl) (hb a ham)).elim
      subst hab
      have tail {k n : List α} (hk : ∀ x ∈ k, compare a x = .lt)
          (hkn : ∀ x, x ∈ a :: k → x ∈ a :: n) (x : α) (hx : x ∈ k) : x ∈ n := by
        refine (List.mem_cons.mp (hkn x (List.mem_cons_of_mem a hx))).resolve_left fun e => ?_
        simpa [e, Std.ReflCmp.compare_self] using hk x hx
      rw [ih hl' hm' fun x => ⟨tail ha (fun y => (h y).mp) x, tail hb (fun y => (h y).mpr) x⟩]

theorem ext {s t : Ascending α} (h : ∀ x, x ∈ s ↔ x ∈ t) : s = t := by
  obtain ⟨l, hl⟩ := s
  obtain ⟨m, hm⟩ := t
  cases eq_of_mem_iff hl hm h
  rfl

end Ascending

end FiniteAutomata
