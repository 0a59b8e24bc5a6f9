import FiniteAutomata.Proofs.Builders

/-!
Choosing from a collection of symbols. A collection can be read from if all its members are labels
and the silent move is not beside characters, with which it cannot be compared
(`Fragment.exists_ofCollection?_iff`). An automaton is then made that reads just one of its members
(`Workspace.makes_choosing`); any other collection is refused, and nothing is changed
(`Workspace.eq_of_choosing`).
-/

namespace FiniteAutomata

namespace Sorting

variable {α ε : Type} {less? : α → α → Except ε Bool} {P : α → Prop}
  (hless : ∀ a b below, less? a b = .ok below → (P a ↔ P b))

include hless

-- What is put among others is compared with one of them.
theorem of_insert? {xs ys : Array α} {a : α} (hne : xs.toList ≠ []) (hxs : ∀ x ∈ xs.toList, P x)
    (h : insert? less? xs a = .ok ys) : P a := by
  have hpos : 0 < xs.size := by
    rw [← Array.length_toList]
    exact List.length_pos_iff.mpr hne
  obtain ⟨i, hi, -⟩ := map_eq_ok.mp h
  rw [place?, dif_pos hpos] at hi
  obtain ⟨below, hb, -⟩ := bind_eq_ok.mp hi
  exact (hless _ _ _ hb).mpr (hxs _ (Array.getElem_mem_toList _))

theorem forall_of_foldlM_insert? {items : List α} {xs ys : Array α} (hne : xs.toList ≠ [])
    (hxs : ∀ x ∈ xs.toList, P x) (h : items.foldlM (insert? less?) xs = .ok ys) :
    ∀ a ∈ items, P a := by
  induction items generalizing xs with
  | nil => exact fun _ ha => absurd ha List.not_mem_nil
  | cons a items ih =>
      rw [List.foldlM_cons] at h
      obtain ⟨zs, hzs, h⟩ := bind_eq_ok.mp h
      have ha : P a := of_insert? hless hne hxs hzs
      have hperm := perm_of_insert? less? hzs
      have hzsne : zs.toList ≠ [] := by
        intro hnil
        rw [hnil] at hperm
        exact List.cons_ne_nil a _ hperm.eq_nil
      have hcons : ∀ x ∈ a :: xs.toList, P x := List.forall_mem_cons.mpr ⟨ha, hxs⟩
      exact List.forall_mem_cons.mpr ⟨ha, ih hzsne (fun x hx => hcons x (hperm.mem_iff.mpr hx)) h⟩

theorem forall_of_run? {down : Bool} {last : α} {taken rest run left : List α}
    (htaken : ∀ a ∈ last :: taken, P a) (h : run? less? down last taken rest = .ok (run, left)) :
    run ≠ [] ∧ ∀ a ∈ run, P a := by
  induction rest generalizing last taken with
  | nil =>
      cases h
      exact ⟨List.cons_ne_nil last taken, htaken⟩
  | cons a rest ih =>
      obtain ⟨below, hb, h⟩ := bind_eq_ok.mp h
      have ha : P a := (hless _ _ _ hb).mpr (htaken last List.mem_cons_self)
      split at h
      · exact ih (List.forall_mem_cons.mpr ⟨ha, htaken⟩) h
      · cases h
        exact ⟨List.cons_ne_nil last taken, htaken⟩

-- The first two items are compared, and every other one with an item that was compared before.
theorem forall_of_sort? {a : α} {rest sorted : List α} (ha : P a)
    (h : sort? less? (a :: rest) = .ok sorted) : ∀ b ∈ a :: rest, P b := by
  cases rest with
  | nil => exact List.forall_mem_singleton.mpr ha
  | cons b rest =>
      obtain ⟨down, hdown, h⟩ := bind_eq_ok.mp h
      obtain ⟨⟨run, left⟩, hrun, h⟩ := bind_eq_ok.mp h
      obtain ⟨ys, hys, -⟩ := bind_eq_ok.mp h
      have hb : P b := (hless _ _ _ hdown).mpr ha
      have hfirst : ∀ x ∈ [b, a], P x := by simp [ha, hb]
      obtain ⟨hne, hall⟩ := forall_of_run? hless hfirst hrun
      have hperm : (ascend down run).Perm run := by
        cases down with
        | true => exact List.Perm.refl run
        | false => exact List.reverse_perm run
      have hascendne : ascend down run ≠ [] := by
        intro hnil
        rw [hnil] at hperm
        exact hne hperm.symm.eq_nil
      have hleft : ∀ x ∈ left, P x :=
        forall_of_foldlM_insert? hless hascendne (fun x hx => hall x (hperm.mem_iff.mp hx)) hys
      have hrest : ∀ x ∈ rest ++ [b, a], P x := fun x hx => by
        rcases List.mem_append.mp ((perm_of_run? less? hrun).mem_iff.mp hx) with hx | hx
        · exact hleft x hx
        · exact hall x hx
      obtain ⟨hrest, -⟩ := List.forall_mem_append.mp hrest
      exact List.forall_mem_cons.mpr ⟨ha, List.forall_mem_cons.mpr ⟨hb, hrest⟩⟩

-- No two items are in order if `P` holds of one of them alone.
theorem all_or_none_of_sort? {items sorted : List α} (h : sort? less? items = .ok sorted) :
    (∀ a ∈ items, P a) ∨ ∀ a ∈ items, ¬ P a := by
  cases items with
  | nil => exact .inl fun _ ha => absurd ha List.not_mem_nil
  | cons a rest =>
      by_cases ha : P a
      · exact .inl (forall_of_sort? hless ha h)
      · exact .inr (forall_of_sort? (fun _ _ _ hb => not_congr (hless _ _ _ hb)) ha h)

end Sorting

namespace Fragment

variable {given : Json} {f : Fragment} {members : List Symbol} {s : Symbol}

theorem silent_iff_of_before? (s t : Symbol) (below : Bool) (h : before? s t = .ok below) :
    s = .silent ↔ t = .silent := by
  cases s <;> cases t <;> simp [before?] at h ⊢

-- A label other than the silent move is a character.
theorem exists_text_of_label? {l : Label} (h : s.label? = .ok l) (hs : s ≠ .silent) :
    ∃ text, s = .text text := by
  cases s with
  | silent => exact absurd rfl hs
  | text text => exact ⟨text, rfl⟩
  | other value => exact nomatch h

theorem ofCollection?_eq_ok : ofCollection? given = .ok f ↔ ∃ members sorted labels,
    Pattern.members? given = .ok members ∧ Sorting.sort? before? members = .ok sorted ∧
      sorted.mapM Symbol.label? = .ok labels ∧
        ⟨2, 1, .ofEdges (labels.map fun l => ⟨0, l, 1⟩)⟩ = f := by
  simp only [ofCollection?, bind_eq_ok, mapError_eq_ok, pure, Except.pure, Except.ok.injEq,
    exists_and_left]

-- The members are labels, and all of them are silent or none is.
def Readable (members : List Symbol) : Prop :=
  (∀ s ∈ members, ∃ l, s.label? = .ok l) ∧
    ((∀ s ∈ members, s = .silent) ∨ ∀ s ∈ members, s ≠ .silent)

theorem Readable.exists_sort? (h : Readable members) :
    ∃ sorted, Sorting.sort? before? members = .ok sorted := by
  obtain ⟨hlabels, hsilent | htext⟩ := h
  · refine Sorting.exists_sort? (P := (· = .silent)) ?_ hsilent
    rintro _ _ rfl rfl
    exact ⟨false, rfl⟩
  · refine Sorting.exists_sort? (P := fun s => ∃ text, s = .text text) ?_ fun s hs => ?_
    · rintro _ _ ⟨a, rfl⟩ ⟨b, rfl⟩
      exact ⟨_, rfl⟩
    · obtain ⟨l, hl⟩ := hlabels s hs
      exact exists_text_of_label? hl (htext s hs)

theorem exists_ofCollection?_iff : (∃ f, ofCollection? given = .ok f) ↔
    ∃ members, Pattern.members? given = .ok members ∧ Readable members := by
  simp only [ofCollection?_eq_ok]
  constructor
  · rintro ⟨_, members, sorted, labels, hmembers, hsorted, hlabels, -⟩
    have hperm := Sorting.perm_of_sort? before? hsorted
    refine ⟨members, hmembers, fun s hs => ?_, ?_⟩
    · exact exists_mapM_eq_ok_iff.mp ⟨labels, hlabels⟩ s (hperm.mem_iff.mp hs)
    · exact Sorting.all_or_none_of_sort? silent_iff_of_before? hsorted
  · rintro ⟨members, hmembers, hreadable⟩
    obtain ⟨sorted, hsorted⟩ := hreadable.exists_sort?
    have hperm := Sorting.perm_of_sort? before? hsorted
    obtain ⟨labels, hlabels⟩ := exists_mapM_eq_ok_iff.mpr fun s hs =>
      hreadable.1 s (hperm.mem_iff.mpr hs)
    exact ⟨_, members, sorted, labels, hmembers, hsorted, hlabels, rfl⟩

example : ofCollection? (.array [.string "a", .null]) = .error (.unordered .silent (.text "a")) := rfl

-- The words that read one of the members.
def oneOf (members : List Symbol) : Language Char :=
  {word | ∃ s ∈ members, ∃ l, s.label? = .ok l ∧ l.toList = word}

theorem language_of_ofCollection? (hmembers : Pattern.members? given = .ok members)
    (h : ofCollection? given = .ok f) : f.language = oneOf members := by
  obtain ⟨found, sorted, labels, hfound, hsorted, hlabels, rfl⟩ := ofCollection?_eq_ok.mp h
  rw [hmembers] at hfound
  cases hfound
  have hperm := Sorting.perm_of_sort? before? hsorted
  refine Language.ext fun word => (mem_language_choosing labels word).trans ?_
  constructor
  · rintro ⟨l, hl, hword⟩
    obtain ⟨s, hs, hlabel⟩ := (mem_iff_of_mapM_eq_ok hlabels).mp hl
    exact ⟨s, hperm.mem_iff.mpr hs, l, hlabel, hword⟩
  · rintro ⟨s, hs, l, hlabel, hword⟩
    exact ⟨l, (mem_iff_of_mapM_eq_ok hlabels).mpr ⟨s, hperm.mem_iff.mp hs, hlabel⟩, hword⟩

end Fragment

namespace Workspace

variable {w : Workspace} {into : String} {given : Json} {members : List Symbol}

theorem makes_choosing (w : Workspace) (into : String)
    (hmembers : Pattern.members? given = .ok members) (h : Fragment.Readable members) :
    Makes w (.choosing given into) into (Fragment.oneOf members) := by
  obtain ⟨f, hf⟩ := Fragment.exists_ofCollection?_iff.mpr ⟨members, hmembers, h⟩
  rw [← Fragment.language_of_ofCollection? hmembers hf]
  apply makes_of_madeNFA (Fragment.wellFormed_of_ofCollection? hf)
  simp only [execute?, hf]
  rfl

-- What cannot be read from is refused.
theorem eq_of_choosing (w : Workspace) (into : String)
    (h : ∀ members, Pattern.members? given = .ok members → ¬ Fragment.Readable members) :
    ∃ e, w.step (.choosing given into) = (.error e, w) := by
  cases hf : Fragment.ofCollection? given with
  | ok f =>
      obtain ⟨members, hmembers, hreadable⟩ := Fragment.exists_ofCollection?_iff.mp ⟨f, hf⟩
      exact absurd hreadable (h members hmembers)
  | error e =>
      simp only [step, execute?, hf]
      exact ⟨_, rfl⟩

end Workspace

end FiniteAutomata
