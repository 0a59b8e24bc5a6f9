import FiniteAutomata.Ascending
import FiniteAutomata.Label
import Std.Data.TreeMap

/-!
Transition relations: which states follow a state under a label. A relation maps keys, a source
and a label each, to the targets of a move, and remembers in which order the keys were first
written. It does not know which states its owner has. Its moves are its set of edges
(`mem_edges`), and each operation is told by what it does to them.
-/

namespace FiniteAutomata

-- A move, read from `source` over `label` to `target`; the label `none` is silent.
structure Edge (σ : Type) where
  source : State
  label : Option σ
  target : State
deriving DecidableEq

structure Key (σ : Type) where
  source : State
  label : Option σ
deriving DecidableEq

variable {σ τ : Type}

namespace Edge

def key (e : Edge σ) : Key σ := ⟨e.source, e.label⟩

theorem eq_iff {d e : Edge σ} : d = e ↔ d.key = e.key ∧ d.target = e.target := by
  cases d; cases e; simp [key, and_assoc]

def shift (offset : Int) (e : Edge σ) : Edge σ := ⟨e.source + offset, e.label, e.target + offset⟩

end Edge

-- Keys ascend by source, then silent before reading, then by symbol.
instance [Ord σ] : Ord (Key σ) := ⟨compareLex (compareOn Key.source) (compareOn Key.label)⟩

-- Edges ascend by key, then by target.
instance [Ord σ] : Ord (Edge σ) := ⟨compareLex (compareOn Edge.key) (compareOn Edge.target)⟩

instance [Ord σ] [Std.TransOrd σ] : Std.TransOrd (Key σ) :=
  inferInstanceAs (Std.TransCmp (compareLex (compareOn Key.source) (compareOn Key.label)))

instance [Ord σ] [Std.TransOrd σ] : Std.TransOrd (Edge σ) :=
  inferInstanceAs (Std.TransCmp (compareLex (compareOn Edge.key) (compareOn Edge.target)))

instance [Ord σ] [Std.LawfulEqOrd σ] : Std.LawfulEqOrd (Key σ) :=
  lawfulEqCmp_compareLex Key.source Key.label fun a b hs hl => by
    cases a; cases b; simp_all

instance [Ord σ] [Std.LawfulEqOrd σ] : Std.LawfulEqOrd (Edge σ) :=
  lawfulEqCmp_compareLex Edge.key Edge.target fun a b hk ht => by
    cases a; cases b; simp_all [Edge.key]

theorem Key.compare_eq_lt [Ord σ] {k l : Key σ} : compare k l = .lt ↔ k.source < l.source ∨
    k.source = l.source ∧ compare k.label l.label = .lt := by
  refine Ordering.then_eq_lt.trans ?_
  simp [compareOn, Int.compare_eq_lt]

theorem Edge.compare_eq_lt [Ord σ] [Std.LawfulEqOrd σ] {d e : Edge σ} :
    compare d e = .lt ↔ d.source < e.source ∨
      d.source = e.source ∧
        (compare d.label e.label = .lt ∨ d.label = e.label ∧ d.target < e.target) := by
  have hsame : d.key = e.key ↔ d.source = e.source ∧ d.label = e.label := by
    simp [key]
  refine Ordering.then_eq_lt.trans ?_
  simp only [compareOn, Key.compare_eq_lt, Std.compare_eq_iff_eq, hsame, Int.compare_eq_lt]
  simp only [key]
  grind

namespace Key

-- The moves of a key, one for each target.
def fan (k : Key σ) (qs : Ascending State) : List (Edge σ) :=
  qs.toList.map fun q => ⟨k.source, k.label, q⟩

theorem mem_fan {k : Key σ} {qs : Ascending State} {e : Edge σ} :
    e ∈ k.fan qs ↔ e.key = k ∧ e.target ∈ qs := by
  rw [fan, List.mem_map]
  constructor
  · rintro ⟨q, hq, rfl⟩
    exact ⟨rfl, hq⟩
  · rintro ⟨rfl, hq⟩
    exact ⟨e.target, hq, rfl⟩

theorem pairwise_fan [Ord σ] [Std.LawfulEqOrd σ] (k : Key σ) (qs : Ascending State) :
    (k.fan qs).Pairwise (compare · · = .lt) :=
  List.pairwise_map.mpr <| qs.ascending.imp fun h =>
    Ordering.then_eq_lt.mpr (Or.inr ⟨Std.ReflCmp.compare_self, h⟩)

end Key

-- The targets of each key.
abbrev MoveTable (σ : Type) [Ord σ] : Type := Std.TreeMap (Key σ) (Ascending State)

structure MoveRelation (σ : Type) [Ord σ] where
  table : MoveTable σ
  -- each key once, the one first written last
  written : List (Key σ)
  nodup_written : written.Nodup
  mem_written : ∀ k, k ∈ written ↔ k ∈ table
  targets_ne_empty : ∀ k : Key σ, table[k]? ≠ some (∅ : Ascending State)

namespace MoveRelation

section Reading

variable [Ord σ]

-- The keys in the order of first writing.
def keys (r : MoveRelation σ) : List (Key σ) := r.written.reverse

theorem nodup_keys (r : MoveRelation σ) : r.keys.Nodup :=
  List.pairwise_reverse.mpr (r.nodup_written.imp Ne.symm)

theorem mem_keys_iff_mem_table {r : MoveRelation σ} {k : Key σ} : k ∈ r.keys ↔ k ∈ r.table :=
  List.mem_reverse.trans (r.mem_written k)

-- The number of keys.
def size (r : MoveRelation σ) : Nat := r.written.length

def summary (r : MoveRelation σ) : String :=
  "TransitionRelation(" ++ toString r.size ++ " moves)"

def contains (r : MoveRelation σ) (p : State) (l : Option σ) : Bool := r.table.contains ⟨p, l⟩

def targets (r : MoveRelation σ) (p : State) (l : Option σ) : Ascending State :=
  r.table.getD ⟨p, l⟩ ∅

def silentTargets (r : MoveRelation σ) (p : State) : Ascending State := r.targets p none

-- The states reached by one move under `l` from any of the states `ps`.
def image (r : MoveRelation σ) (ps : List State) (l : Option σ) : Ascending State :=
  .ofList (ps.flatMap fun p => (r.targets p l).toList)

-- Each key with its targets, keys ascending.
def groups (r : MoveRelation σ) : List (Key σ × Ascending State) := r.table.toList

-- The written keys once `k` is written, which keeps its place if it was written before.
def noted (r : MoveRelation σ) (k : Key σ) : List (Key σ) :=
  if k ∈ r.table then r.written else k :: r.written

theorem mem_noted {r : MoveRelation σ} {k x : Key σ} :
    x ∈ r.noted k ↔ x = k ∨ x ∈ r.table := by
  unfold noted
  split
  · rw [r.mem_written]
    exact ⟨Or.inr, fun h => h.elim (fun e => e ▸ ‹_›) id⟩
  · rw [List.mem_cons, r.mem_written]

theorem nodup_noted {r : MoveRelation σ} {k : Key σ} : (r.noted k).Nodup := by
  unfold noted
  split
  · exact r.nodup_written
  · rename_i hk
    exact List.nodup_cons.mpr ⟨fun h => hk ((r.mem_written k).mp h), r.nodup_written⟩

variable [Std.TransOrd σ] [Std.LawfulEqOrd σ]

theorem pairwise_edges (r : MoveRelation σ) :
    (r.groups.flatMap fun g => g.1.fan g.2).Pairwise (compare · · = .lt) := by
  refine List.pairwise_flatMap.mpr ⟨fun g _ => g.1.pairwise_fan g.2, ?_⟩
  refine Std.TreeMap.ordered_keys_toList.imp fun h d hd e he => ?_
  rw [← (Key.mem_fan.mp hd).1, ← (Key.mem_fan.mp he).1] at h
  exact Ordering.then_eq_lt.mpr (Or.inl h)

-- Every move, by its key and then by its target.
def edges (r : MoveRelation σ) : Ascending (Edge σ) := ⟨_, r.pairwise_edges⟩

theorem mem_groups {r : MoveRelation σ} {k : Key σ} {qs : Ascending State} :
    (k, qs) ∈ r.groups ↔ r.table[k]? = some qs := Std.TreeMap.mem_toList_iff_getElem?_eq_some

@[simp] theorem mem_targets {r : MoveRelation σ} {p q : State} {l : Option σ} :
    q ∈ r.targets p l ↔ ⟨p, l, q⟩ ∈ r.edges := by
  have h : (⟨p, l, q⟩ : Edge σ) ∈ r.edges ↔ ∃ g ∈ r.groups, g.1 = ⟨p, l⟩ ∧ q ∈ g.2 := by
    refine List.mem_flatMap.trans (exists_congr fun g => and_congr_right fun _ => ?_)
    rw [Key.mem_fan]
    exact and_congr_left fun _ => eq_comm
  rw [h, targets, Std.TreeMap.getD_eq_getD_getElem?]
  constructor
  · intro hq
    cases hk : r.table[(⟨p, l⟩ : Key σ)]? with
    | none => simp [hk] at hq
    | some qs => exact ⟨(⟨p, l⟩, qs), mem_groups.mpr hk, rfl, by simpa [hk] using hq⟩
  · rintro ⟨⟨k, qs⟩, hk, rfl, hq⟩
    rw [mem_groups.mp hk]
    exact hq

-- The edges are put together from the keys in their order.
theorem toList_edges (r : MoveRelation σ) :
    r.edges.toList = r.table.keys.flatMap fun k => k.fan (r.targets k.source k.label) := by
  rw [← Std.TreeMap.map_fst_toList_eq_keys, List.flatMap_map]
  refine congrArg List.flatten (List.map_congr_left fun g hg => ?_)
  have htargets : r.targets g.1.source g.1.label = g.2 := by
    rw [targets, Std.TreeMap.getD_eq_getD_getElem?, mem_groups.mp hg]
    rfl
  rw [htargets]

@[simp] theorem mem_image {r : MoveRelation σ} {ps : List State} {l : Option σ} {q : State} :
    q ∈ r.image ps l ↔ ∃ p ∈ ps, ⟨p, l, q⟩ ∈ r.edges := by
  simp [image]

-- Every edge with source and target renumbered by `offset`.
def shifted (r : MoveRelation σ) (offset : Int) : List (Edge σ) :=
  r.edges.toList.map (Edge.shift offset)

-- Equality as maps from keys to sets of targets: the order of writing is not compared.
def sameMoves [DecidableEq σ] (r s : MoveRelation σ) : Bool := r.edges = s.edges

-- The symbols of the moves that read one.
def symbols (r : MoveRelation σ) : Ascending σ := .ofList (r.written.filterMap Key.label)

-- A key has been written when some move has it.
theorem mem_keys {r : MoveRelation σ} {k : Key σ} : k ∈ r.keys ↔ ∃ e ∈ r.edges, e.key = k := by
  rw [mem_keys_iff_mem_table]
  constructor
  · intro hk
    obtain ⟨qs, hqs⟩ := Option.isSome_iff_exists.mp (Std.TreeMap.mem_iff_isSome_getElem?.mp hk)
    cases hl : qs.toList with
    | nil =>
      have hempty : qs = ∅ := Ascending.ext fun q => by
        rw [← Ascending.mem_toList, hl]
        simp
      exact absurd (hempty ▸ hqs) (r.targets_ne_empty k)
    | cons q rest =>
      refine ⟨⟨k.source, k.label, q⟩, mem_targets.mp ?_, rfl⟩
      rw [targets, Std.TreeMap.getD_eq_getD_getElem?, hqs]
      exact Ascending.mem_toList.mp (hl ▸ List.mem_cons_self)
  · rintro ⟨⟨p, l, q⟩, he, rfl⟩
    have hq := mem_targets.mpr he
    rw [targets, Std.TreeMap.getD_eq_getD_getElem?] at hq
    cases hk : r.table[(⟨p, l⟩ : Key σ)]? with
    | none => simp [hk] at hq
    | some qs => exact Std.TreeMap.mem_iff_isSome_getElem?.mpr (hk ▸ rfl)

@[simp] theorem mem_symbols {r : MoveRelation σ} {c : σ} :
    c ∈ r.symbols ↔ ∃ e ∈ r.edges, e.label = some c := by
  rw [symbols, Ascending.mem_ofList, List.mem_filterMap]
  constructor
  · rintro ⟨k, hk, hc⟩
    obtain ⟨e, he, rfl⟩ := mem_keys.mp (List.mem_reverse.mpr hk)
    exact ⟨e, he, hc⟩
  · rintro ⟨e, he, hc⟩
    exact ⟨e.key, List.mem_reverse.mp (mem_keys.mpr ⟨e, he, rfl⟩), hc⟩

end Reading

section Writing

variable [Ord σ] [Std.TransOrd σ] [Std.LawfulEqOrd σ]

def empty : MoveRelation σ := ⟨∅, [], .nil, fun k => by simp, fun k => by simp⟩

instance : EmptyCollection (MoveRelation σ) := ⟨empty⟩
instance : Inhabited (MoveRelation σ) := ⟨empty⟩

-- Writes `qs`, which are not none, as the targets of a key.
def write (r : MoveRelation σ) (k : Key σ) (qs : Ascending State) (h : qs ≠ ∅) :
    MoveRelation σ where
  table := r.table.insert k qs
  written := r.noted k
  nodup_written := nodup_noted
  mem_written x := by
    rw [mem_noted, Std.TreeMap.mem_insert, Std.compare_eq_iff_eq, eq_comm]
  targets_ne_empty x := by
    rw [Std.TreeMap.getElem?_insert]
    split
    · simpa using h
    · exact r.targets_ne_empty x

-- A key that is new stands behind all others.
theorem keys_write {r : MoveRelation σ} {k : Key σ} {qs : Ascending State} {h : qs ≠ ∅} :
    (r.write k qs h).keys = if k ∈ r.table then r.keys else r.keys ++ [k] := by
  unfold write keys noted
  split
  · rfl
  · exact List.reverse_cons

theorem mem_edges_write {r : MoveRelation σ} {k : Key σ} {qs : Ascending State} {h : qs ≠ ∅}
    {e : Edge σ} :
    e ∈ (r.write k qs h).edges ↔ e.key = k ∧ e.target ∈ qs ∨ e.key ≠ k ∧ e ∈ r.edges := by
  have hwritten : e ∈ (r.write k qs h).edges ↔ e.target ∈ (r.table.insert k qs).getD e.key ∅ :=
    mem_targets.symm
  have hold : e ∈ r.edges ↔ e.target ∈ r.table.getD e.key ∅ := mem_targets.symm
  rw [hwritten, hold, Std.TreeMap.getD_insert]
  split
  · rename_i hk
    simp [Std.compare_eq_iff_eq.mp hk]
  · rename_i hk
    have : e.key ≠ k := fun he => hk (Std.compare_eq_iff_eq.mpr he.symm)
    simp [this]

def add (r : MoveRelation σ) (e : Edge σ) : MoveRelation σ :=
  r.write e.key ((r.targets e.source e.label).insert e.target) fun h => by
    have : e.target ∈ (∅ : Ascending State) := h ▸ Ascending.mem_insert.mpr (Or.inl rfl)
    exact Ascending.not_mem_empty this

-- Makes the target of `e` the only one of its key.
def replace (r : MoveRelation σ) (e : Edge σ) : MoveRelation σ :=
  r.write e.key (.singleton e.target) fun h => by
    have : e.target ∈ (∅ : Ascending State) := h ▸ Ascending.mem_singleton.mpr rfl
    exact Ascending.not_mem_empty this

def addAll (r : MoveRelation σ) (es : List (Edge σ)) : MoveRelation σ := es.foldl add r

-- The relation with the moves of a list, written from its front.
def ofEdges (es : List (Edge σ)) : MoveRelation σ := addAll ∅ es

-- The same moves, written in their order.
def inOrder (r : MoveRelation σ) : MoveRelation σ where
  table := r.table
  written := r.table.keys.reverse
  nodup_written :=
    List.pairwise_reverse.mpr (Std.TreeMap.nodup_keys.imp Ne.symm)
  mem_written k := by rw [List.mem_reverse, Std.TreeMap.mem_keys]
  targets_ne_empty := r.targets_ne_empty

theorem keys_add {r : MoveRelation σ} {e : Edge σ} :
    (r.add e).keys = if e.key ∈ r.table then r.keys else r.keys ++ [e.key] := by
  rw [add, keys_write]

theorem keys_replace {r : MoveRelation σ} {e : Edge σ} :
    (r.replace e).keys = if e.key ∈ r.table then r.keys else r.keys ++ [e.key] := by
  rw [replace, keys_write]

@[simp] theorem mem_edges_empty {e : Edge σ} : e ∉ (∅ : MoveRelation σ).edges := by
  rw [← mem_targets (p := e.source)]
  exact Ascending.not_mem_empty

@[simp] theorem mem_edges_add {r : MoveRelation σ} {d e : Edge σ} :
    d ∈ (r.add e).edges ↔ d = e ∨ d ∈ r.edges := by
  rw [add, mem_edges_write, Ascending.mem_insert, mem_targets, Edge.eq_iff]
  by_cases hk : d.key = e.key
  · have : (⟨e.source, e.label, d.target⟩ : Edge σ) = d := Edge.eq_iff.mpr ⟨hk.symm, rfl⟩
    simp [hk, this]
  · simp [hk]

@[simp] theorem mem_edges_replace {r : MoveRelation σ} {d e : Edge σ} :
    d ∈ (r.replace e).edges ↔ d = e ∨ d ∈ r.edges ∧ d.key ≠ e.key := by
  rw [replace, mem_edges_write, Ascending.mem_singleton, Edge.eq_iff, and_comm (a := d ∈ r.edges)]

@[simp] theorem mem_edges_addAll {r : MoveRelation σ} {es : List (Edge σ)} {d : Edge σ} :
    d ∈ (r.addAll es).edges ↔ d ∈ es ∨ d ∈ r.edges := by
  unfold addAll
  induction es generalizing r with
  | nil => simp
  | cons e es ih => rw [List.foldl_cons, ih, mem_edges_add, List.mem_cons, or_left_comm, or_assoc]

@[simp] theorem mem_edges_ofEdges {es : List (Edge σ)} {d : Edge σ} :
    d ∈ (ofEdges es).edges ↔ d ∈ es := by simp [ofEdges]

@[simp] theorem edges_inOrder (r : MoveRelation σ) : r.inOrder.edges = r.edges := rfl

-- The same moves under other symbols, keys in the same order.
def relabel [Ord τ] [Std.TransOrd τ] [Std.LawfulEqOrd τ] (f : σ → τ) (r : MoveRelation σ) :
    MoveRelation τ :=
  ofEdges <| r.keys.flatMap fun k =>
    (r.targets k.source k.label).toList.map fun q => ⟨k.source, k.label.map f, q⟩

end Writing

end MoveRelation

end FiniteAutomata
