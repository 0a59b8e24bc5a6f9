import FiniteAutomata.FreeRelation

/-!
Listing relations with free labels. Where a comparison of two keys does not fail, it tells their order
(`FreeRelation.below_iff_of_before?`). So what is sorted is the relation's own list of keys, and its
moves are listed as its edges are (`FreeRelation.edges?_eq`). Among texts no comparison fails
(`FreeRelation.Lists.edges?`). Relations with the same edges are the same tables
(`MoveRelation.edges_eq_iff`).
-/

namespace FiniteAutomata

namespace MoveRelation

variable {σ : Type} [Ord σ] [Std.TransOrd σ] [Std.LawfulEqOrd σ]

omit [Std.LawfulEqOrd σ] in
-- What is in the table are the keys with their targets.
theorem getElem?_table_eq_some_iff {r : MoveRelation σ} {k : Key σ} {qs : Ascending State} :
    r.table[k]? = some qs ↔ k ∈ r.keys ∧ r.targets k.source k.label = qs := by
  rw [mem_keys_iff_mem_table, targets, Std.TreeMap.getD_eq_getD_getElem?,
    Std.TreeMap.mem_iff_isSome_getElem?]
  cases r.table[k]? <;> simp

-- Equal as tables: the edges tell the keys, because no key is without targets.
theorem edges_eq_iff {r s : MoveRelation σ} :
    r.edges = s.edges ↔ ∀ k : Key σ, r.table[k]? = s.table[k]? := by
  constructor
  · intro h k
    apply Option.ext
    intro qs
    have htargets : r.targets k.source k.label = s.targets k.source k.label := by
      apply Ascending.ext
      intro q
      rw [mem_targets, mem_targets, h]
    rw [getElem?_table_eq_some_iff, getElem?_table_eq_some_iff, mem_keys, mem_keys, h, htargets]
  · intro h
    apply Ascending.ext
    intro e
    have hr : e ∈ r.edges ↔ e.target ∈ r.targets e.source e.label := mem_targets.symm
    have hs : e ∈ s.edges ↔ e.target ∈ s.targets e.source e.label := mem_targets.symm
    rw [hr, hs, targets, targets, Std.TreeMap.getD_eq_getD_getElem?,
      Std.TreeMap.getD_eq_getD_getElem?, h]

end MoveRelation

theorem Mark.compareNumbers_eq_lt {a b : Rat} : compareNumbers a b = .lt ↔ a.blt b = true := by
  unfold compareNumbers
  split
  · simp [*]
  · split <;> simp [*]

namespace TextLabel

-- The symbol that is given for the label.
def symbol : TextLabel → Symbol
  | none => .silent
  | some s => .text s

def mark (l : TextLabel) : Option Mark := l.map .text

-- Silent moves come first, and texts ascend by their characters.
def Precedes : TextLabel → TextLabel → Prop
  | none, some _ => True
  | some s, some t => s.toList < t.toList
  | _, none => False

theorem symbol_inj {l m : TextLabel} : l.symbol = m.symbol ↔ l = m := by
  cases l <;> cases m <;> simp [symbol]

theorem mark_inj {l m : TextLabel} : l.mark = m.mark ↔ l = m := by
  cases l <;> cases m <;> simp [mark]

theorem compare_mark_eq_lt {l m : TextLabel} : compare l.mark m.mark = .lt ↔ l.Precedes m := by
  cases l with
  | none =>
      cases m with
      | none => exact iff_of_false (by decide) id
      | some t => exact iff_of_true rfl trivial
  | some s =>
      cases m with
      | none => exact iff_of_false nofun id
      | some t => exact compareOfLessAndEq_eq_lt

end TextLabel

namespace Key

def marked (k : Key String) : Key Mark := ⟨k.source, TextLabel.mark k.label⟩

-- How the key is listed.
def told (k : Key String) : State × Symbol := (k.source, TextLabel.symbol k.label)

theorem marked_inj {k l : Key String} : k.marked = l.marked ↔ k = l := by
  cases k; cases l
  simp [marked, TextLabel.mark_inj]

end Key

namespace Edge

def marked (e : Edge String) : Edge Mark := ⟨e.source, TextLabel.mark e.label, e.target⟩

-- How the move is listed.
def told (e : Edge String) : State × Symbol × State :=
  (e.source, TextLabel.symbol e.label, e.target)

-- By source, then by label, then by target.
def Precedes (d e : Edge String) : Prop := d.source < e.source ∨
  d.source = e.source ∧
    (TextLabel.Precedes d.label e.label ∨ d.label = e.label ∧ d.target < e.target)

theorem marked_inj {d e : Edge String} : d.marked = e.marked ↔ d = e := by
  cases d; cases e
  simp [marked, TextLabel.mark_inj]

theorem told_inj {d e : Edge String} : d.told = e.told ↔ d = e := by
  cases d; cases e
  simp [told, TextLabel.symbol_inj]

theorem compare_marked_eq_lt {d e : Edge String} :
    compare d.marked e.marked = .lt ↔ d.Precedes e := by
  simp only [compare_eq_lt, marked, TextLabel.compare_mark_eq_lt, TextLabel.mark_inj, Precedes]

end Edge

namespace FreeRelation

variable {r : FreeRelation} {k l : Key Mark}

theorem below_iff_of_before? {below : Bool} (h : r.before? k l = .ok below) :
    below = true ↔ compare k l = .lt := by
  rw [Key.compare_eq_lt]
  unfold before? at h
  split at h
  · rename_i hne
    cases h
    simp [hne]
  · rename_i hsource
    have hsource : k.source = l.source := Decidable.not_not.mp hsource
    rw [hsource, or_iff_right (Int.lt_irrefl l.source), and_iff_right rfl]
    split at h
    · rename_i hk
      cases h
      rw [hk]
      cases l.label with
      | none => decide
      | some m => exact iff_of_true rfl rfl
    · rename_i hk hl
      cases h
      rw [hk, hl]
      exact iff_of_false nofun nofun
    · rename_i a b hk hl
      cases h
      rw [hk, hl]
      exact Mark.compareNumbers_eq_lt.symm
    · rename_i s t hk hl
      cases h
      rw [hk, hl]
      exact decide_eq_true_iff
    · exact nomatch h

theorem respects_before? (r : FreeRelation) :
    Sorting.Respects r.before? fun k l => (compare k l).isLE = true where
  trans := Std.TransCmp.isLE_trans
  below h := by
    rw [(below_iff_of_before? h).mp rfl]
    rfl
  notBelow h := by
    have hnot := mt (below_iff_of_before? h).mpr Bool.false_ne_true
    apply Std.OrientedCmp.isLE_of_isGE
    exact Ordering.isGE_iff_ne_lt.mpr hnot

-- Sorting leaves no choice of the order.
theorem eq_keys_of_sort? {ks : List (Key Mark)} (h : Sorting.sort? r.before? r.keys = .ok ks) :
    ks = r.moves.table.keys := by
  have hperm := Sorting.perm_of_sort? _ h
  have hle := Sorting.pairwise_of_sort? r.respects_before? h
  have hnodup : ks.Nodup := hperm.nodup_iff.mp r.moves.nodup_keys
  have hlt : ks.Pairwise (compare · · = .lt) := by
    refine (hle.and hnodup).imp ?_
    rintro k l ⟨hkl, hne⟩
    rcases Ordering.isLE_iff_eq_lt_or_eq_eq.mp hkl with hlt | heq
    · exact hlt
    · exact absurd (Std.compare_eq_iff_eq.mp heq) hne
  refine Ascending.eq_of_mem_iff hlt Std.TreeMap.ordered_keys fun k => ?_
  rw [← hperm.mem_iff, Std.TreeMap.mem_keys]
  exact MoveRelation.mem_keys_iff_mem_table

-- If the moves can be listed at all, it is in the order of the edges.
theorem edges?_eq {ks : List (Key Mark)} (h : Sorting.sort? r.before? r.keys = .ok ks) :
    r.edges? = .ok (r.moves.edges.toList.map fun e => (e.source, r.symbol e.key, e.target)) := by
  have hks := eq_keys_of_sort? h
  simp only [edges?, groups?, h, Except.map, hks, MoveRelation.toList_edges, List.flatMap_map,
    List.map_flatMap, Key.fan, List.map_map]
  rfl

-- Texts

theorem symbol_marked (r : FreeRelation) (k : Key String) :
    r.symbol k.marked = TextLabel.symbol k.label := by
  obtain ⟨p, label⟩ := k
  cases label <;> rfl

theorem exists_before?_marked (r : FreeRelation) (k l : Key String) :
    ∃ below, r.before? k.marked l.marked = .ok below := by
  unfold before?
  split
  · exact ⟨_, rfl⟩
  · obtain ⟨p, label⟩ := k
    obtain ⟨q, other⟩ := l
    cases label with
    | none => exact ⟨_, rfl⟩
    | some s => cases other <;> exact ⟨_, rfl⟩

-- The edges of the relation are those of `es`, which have texts for labels.
def Lists (r : FreeRelation) (es : List (Edge String)) : Prop :=
  r.moves.edges.toList = es.map Edge.marked

theorem Lists.edges? {es : List (Edge String)} (h : r.Lists es) :
    r.edges? = .ok (es.map Edge.told) := by
  have hkeys : ∀ k ∈ r.keys, ∃ l : Key String, l.marked = k := by
    intro k hk
    obtain ⟨e, he, rfl⟩ := MoveRelation.mem_keys.mp hk
    rw [← Ascending.mem_toList, h] at he
    obtain ⟨d, -, rfl⟩ := List.mem_map.mp he
    exact ⟨d.key, rfl⟩
  have hless : ∀ k l, (∃ i : Key String, i.marked = k) → (∃ j : Key String, j.marked = l) →
      ∃ below, r.before? k l = .ok below := by
    rintro _ _ ⟨k, rfl⟩ ⟨l, rfl⟩
    exact r.exists_before?_marked k l
  obtain ⟨ks, hks⟩ := Sorting.exists_sort? hless hkeys
  rw [edges?_eq hks, h, List.map_map]
  congr 1
  refine List.map_congr_left fun e _ => ?_
  exact congrArg (fun s => (e.source, s, e.target)) (r.symbol_marked e.key)

theorem Lists.pairwise {es : List (Edge String)} (h : r.Lists es) : es.Pairwise Edge.Precedes := by
  have hascending := r.moves.edges.ascending
  rw [h, List.pairwise_map] at hascending
  exact hascending.imp Edge.compare_marked_eq_lt.mp

theorem Lists.shifted? {es : List (Edge String)} (h : r.Lists es) (offset : Int) :
    r.shifted? offset = .ok ((es.map (Edge.shift offset)).map Edge.told) := by
  rw [FreeRelation.shifted?, h.edges?, Except.map, List.map_map, List.map_map]
  rfl

-- Different edges are listed differently.
theorem Lists.edges?_eq_iff {s : FreeRelation} {ds es : List (Edge String)} (hr : r.Lists ds)
    (hs : s.Lists es) : r.edges? = s.edges? ↔ r.moves.edges = s.moves.edges := by
  rw [hr.edges?, hs.edges?]
  constructor
  · intro h
    have hlist : ds = es :=
      (List.map_inj_right fun _ _ => Edge.told_inj.mp).mp (Except.ok.inj h)
    have htoList : r.moves.edges.toList = s.moves.edges.toList := by rw [hr, hs, hlist]
    exact Ascending.ext fun e => by rw [← Ascending.mem_toList, htoList, Ascending.mem_toList]
  · intro h
    have hmap : ds.map Edge.marked = es.map Edge.marked := by rw [← hr, ← hs, h]
    rw [(List.map_inj_right fun _ _ => Edge.marked_inj.mp).mp hmap]

end FreeRelation

end FiniteAutomata
