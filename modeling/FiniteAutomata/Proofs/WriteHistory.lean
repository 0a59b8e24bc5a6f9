import FiniteAutomata.Proofs.FreeListing
import FiniteAutomata.Proofs.Growth
import Mathlib.Data.Set.List

/-!
Relations and the writes that made them. What a relation with texts for labels tells is known from
the writes alone (`FreeRelation.Tells`): one write changes the moves and the keys in a known way
(`FreeRelation.mem_edges_apply`, `FreeRelation.keys_apply`), hence so does a history of writes
(`FreeRelation.mem_edges_after`, `FreeRelation.keys_after`). Among named relations a copy takes over
the history of its model and from then on has its own, so that every relation tells just its own
history (`Workspace.tells_run`).
-/

namespace FiniteAutomata

namespace FreeRelation

-- A write of a move whose label is silent or a text.
inductive Write where
  | add (e : Edge String)
  | replace (e : Edge String)

namespace Write

def edge : Write → Edge String
  | add e | replace e => e

-- The write leaves no other target to the key.
def Clears (k : Key String) : Write → Prop
  | add _ => False
  | replace e => e.key = k

def perform? (r : FreeRelation) : Write → Except Error FreeRelation
  | add e => r.add? e.source (TextLabel.symbol e.label) e.target
  | replace e => r.replace? e.source (TextLabel.symbol e.label) e.target

-- The relation after the write.
def apply (r : FreeRelation) : Write → FreeRelation
  | add e => ⟨r.moves.add e.marked, r.numerals⟩
  | replace e => ⟨r.moves.replace e.marked, r.numerals⟩

end Write

-- The move was written, and no later write has cleared its key.
def Current (h : List Write) (e : Edge String) : Prop :=
  ∃ before w later, h = before ++ w :: later ∧ w.edge = e ∧ ∀ v ∈ later, ¬ v.Clears e.key

-- The relation that the writes make.
def after (h : List Write) : FreeRelation := h.foldl Write.apply ∅

variable {r : FreeRelation} {h : List Write} {w : Write} {es : List (Edge String)}

-- One write

theorem label?_symbol (l : TextLabel) : label? l.symbol = .ok l.mark := by
  cases l <;> rfl

-- Texts leave no form to be noted.
theorem noted_symbol (r : FreeRelation) (k : Key Mark) (l : TextLabel) :
    r.noted k l.symbol = r.numerals := by
  cases l <;> rfl

theorem Write.perform?_eq (r : FreeRelation) (w : Write) : w.perform? r = .ok (w.apply r) := by
  cases w with
  | add e => simp only [perform?, add?, key?, label?_symbol, Except.map, noted_symbol]; rfl
  | replace e => simp only [perform?, replace?, key?, label?_symbol, Except.map, noted_symbol]; rfl

theorem mem_edges_apply {e : Edge Mark} : e ∈ (w.apply r).moves.edges ↔
    e = w.edge.marked ∨ e ∈ r.moves.edges ∧ ∀ k : Key String, k.marked = e.key → ¬ w.Clears k := by
  cases w with
  | add f => simp [Write.apply, Write.edge, Write.Clears]
  | replace f =>
      have hkey : (∀ k : Key String, k.marked = e.key → ¬ f.key = k) ↔ e.key ≠ f.marked.key := by
        have hmarked : f.key.marked = f.marked.key := rfl
        constructor
        · intro hk heq
          exact hk f.key (hmarked.trans heq.symm) rfl
        · rintro hne k hk rfl
          exact hne (hk.symm.trans hmarked)
      simp only [Write.apply, Write.edge, Write.Clears, MoveRelation.mem_edges_replace, hkey]

theorem keys_apply : (w.apply r).keys =
    if w.edge.key.marked ∈ r.keys then r.keys else r.keys ++ [w.edge.key.marked] := by
  have hmem : w.edge.key.marked ∈ r.keys ↔ w.edge.key.marked ∈ r.moves.table :=
    MoveRelation.mem_keys_iff_mem_table
  simp only [hmem]
  cases w with
  | add e => exact MoveRelation.keys_add
  | replace e => exact MoveRelation.keys_replace

-- Histories

theorem after_append_singleton (h : List Write) (w : Write) :
    after (h ++ [w]) = w.apply (after h) := by
  simp only [after, List.foldl_append, List.foldl_cons, List.foldl_nil]

theorem foldlM_perform? (h : List Write) (r : FreeRelation) :
    h.foldlM Write.perform? r = .ok (h.foldl Write.apply r) := by
  induction h generalizing r with
  | nil => rfl
  | cons w h ih =>
      rw [List.foldlM_cons, w.perform?_eq]
      exact ih (w.apply r)

theorem not_current_nil {e : Edge String} : ¬ Current [] e := by
  rintro ⟨before, w, later, heq, -⟩
  simp at heq

theorem current_append_singleton {e : Edge String} :
    Current (h ++ [w]) e ↔ w.edge = e ∨ Current h e ∧ ¬ w.Clears e.key := by
  constructor
  · rintro ⟨before, v, later, heq, he, hlater⟩
    cases List.eq_nil_or_concat later with
    | inl hnil =>
        subst hnil
        obtain ⟨-, hv⟩ := List.append_inj' heq rfl
        have hv : w = v := List.singleton_inj.mp hv
        exact .inl (hv ▸ he)
    | inr hconcat =>
        obtain ⟨front, x, rfl⟩ := hconcat
        rw [List.concat_eq_append, ← List.cons_append, ← List.append_assoc] at heq
        obtain ⟨hh, hx⟩ := List.append_inj' heq rfl
        have hx : w = x := List.singleton_inj.mp hx
        subst hx
        rw [List.concat_eq_append] at hlater
        obtain ⟨hfront, hlast⟩ := List.forall_mem_append.mp hlater
        exact .inr ⟨⟨before, v, front, hh, he, hfront⟩, hlast w (List.mem_singleton_self w)⟩
  · rintro (he | ⟨⟨before, v, later, rfl, he, hlater⟩, hw⟩)
    · exact ⟨h, w, [], rfl, he, fun _ hv => absurd hv List.not_mem_nil⟩
    · refine ⟨before, v, later ++ [w], by simp, he, ?_⟩
      exact List.forall_mem_append.mpr ⟨hlater, List.forall_mem_singleton.mpr hw⟩

-- Additions alone clear nothing.
theorem current_map_add {e : Edge String} : Current (es.map .add) e ↔ e ∈ es := by
  induction es using List.reverseRecOn with
  | nil => exact iff_of_false not_current_nil List.not_mem_nil
  | append_singleton es d ih =>
      rw [List.map_append, List.map_singleton, current_append_singleton, ih, List.mem_append,
        List.mem_singleton, or_comm, eq_comm]
      simp [Write.edge, Write.Clears]

theorem mem_edges_after {e : Edge Mark} :
    e ∈ (after h).moves.edges ↔ ∃ d, Current h d ∧ d.marked = e := by
  induction h using List.reverseRecOn generalizing e with
  | nil =>
      refine iff_of_false MoveRelation.mem_edges_empty ?_
      rintro ⟨d, hd, -⟩
      exact not_current_nil hd
  | append_singleton h w ih =>
      simp only [after_append_singleton, mem_edges_apply, ih, current_append_singleton]
      constructor
      · rintro (rfl | ⟨⟨d, hd, rfl⟩, hkeep⟩)
        · exact ⟨w.edge, .inl rfl, rfl⟩
        · exact ⟨d, .inr ⟨hd, hkeep d.key rfl⟩, rfl⟩
      · rintro ⟨d, rfl | ⟨hd, hkeep⟩, rfl⟩
        · exact .inl rfl
        · refine .inr ⟨⟨d, hd, rfl⟩, fun k hk => ?_⟩
          have hkey : k = d.key := Key.marked_inj.mp hk
          exact hkey ▸ hkeep

theorem marked_mem_edges_after {e : Edge String} :
    e.marked ∈ (after h).moves.edges ↔ Current h e := by
  rw [mem_edges_after]
  constructor
  · rintro ⟨d, hd, heq⟩
    exact Edge.marked_inj.mp heq ▸ hd
  · intro he
    exact ⟨e, he, rfl⟩

-- What comes for the first time stands last.
theorem eraseDups_append_singleton {α : Type} [DecidableEq α] (l : List α) (a : α) :
    (l ++ [a]).eraseDups = if a ∈ l then l.eraseDups else l.eraseDups ++ [a] := by
  rw [List.eraseDups_append]
  split
  · rename_i ha
    simp [List.removeAll, ha]
  · rename_i ha
    simp [List.removeAll, ha, List.eraseDups_cons]

-- The keys stand in the order of their first writes.
theorem keys_after (h : List Write) :
    (after h).keys = (h.map fun w => w.edge.key).eraseDups.map Key.marked := by
  induction h using List.reverseRecOn with
  | nil => rfl
  | append_singleton h w ih =>
      have hmem : w.edge.key.marked ∈ (h.map fun w => w.edge.key).eraseDups.map Key.marked ↔
          w.edge.key ∈ h.map fun w => w.edge.key := by
        rw [List.mem_map_of_injective fun _ _ => Key.marked_inj.mp, List.mem_eraseDups]
      rw [after_append_singleton, keys_apply, ih, List.map_append, List.map_singleton,
        eraseDups_append_singleton]
      simp only [hmem]
      split
      · rfl
      · rw [List.map_append, List.map_singleton]

-- Listings

theorem lists_after (hes : es.Pairwise Edge.Precedes) (hmem : ∀ e, e ∈ es ↔ Current h e) :
    (after h).Lists es := by
  apply Ascending.eq_of_mem_iff (Ascending.ascending _)
  · exact List.pairwise_map.mpr (hes.imp Edge.compare_marked_eq_lt.mpr)
  · intro e
    rw [Ascending.mem_toList, mem_edges_after, List.mem_map]
    exact exists_congr fun d => and_congr_left fun _ => (hmem d).symm

theorem exists_lists_after (h : List Write) :
    ∃ es, (after h).Lists es ∧ ∀ e, e ∈ es ↔ Current h e := by
  have hmarked : (after h).moves.edges.toList ∈ Set.range (List.map Edge.marked) := by
    rw [Set.range_list_map]
    intro e he
    obtain ⟨d, -, rfl⟩ := mem_edges_after.mp he
    exact ⟨d, rfl⟩
  obtain ⟨es, hes⟩ := hmarked
  refine ⟨es, hes.symm, fun e => ?_⟩
  rw [← marked_mem_edges_after, ← Ascending.mem_toList, ← hes]
  exact (List.mem_map_of_injective fun _ _ => Edge.marked_inj.mp).symm

theorem pairwise_map_shift (hes : es.Pairwise Edge.Precedes) (offset : Int) :
    (es.map (Edge.shift offset)).Pairwise Edge.Precedes := by
  refine List.pairwise_map.mpr (hes.imp fun {d e} hde => ?_)
  simpa [Edge.Precedes, Edge.shift] using hde

-- What the relation answers after the writes: its targets, its keys and how many there are, its
-- moves in their order, and the moves shifted, which are those of a relation to which they are added.
structure Tells (r : FreeRelation) (h : List Write) : Prop where
  targets? : ∀ p l, ∃ qs, r.targets? p (TextLabel.symbol l) = .ok qs ∧
    ∀ q, q ∈ qs ↔ Current h ⟨p, l, q⟩
  size : r.moves.size = (h.map fun w => w.edge.key).toFinset.card
  keys : r.keys.map (fun k => (k.source, r.symbol k)) =
    (h.map fun w => w.edge.key).eraseDups.map Key.told
  edges? : ∃ es : List (Edge String), r.edges? = .ok (es.map Edge.told) ∧
    es.Pairwise Edge.Precedes ∧ (∀ e, e ∈ es ↔ Current h e) ∧
    ∀ offset, r.shifted? offset = .ok ((es.map (Edge.shift offset)).map Edge.told)
  rebuilt : ∀ offset, ∃ es t, r.shifted? offset = .ok es ∧
    es.foldlM (fun (t : FreeRelation) (p, s, q) => t.add? p s q) ∅ = .ok t ∧ t.edges? = .ok es

theorem tells_after (h : List Write) : (after h).Tells h := by
  obtain ⟨es, hes, hmem⟩ := exists_lists_after h
  exact {
    targets? := fun p l => by
      have htargets : (after h).targets? p l.symbol = .ok ((after h).moves.image [p] l.mark) := by
        rw [FreeRelation.targets?, image?, label?_symbol]
        · rfl
        · exact List.cons_ne_nil p []
      refine ⟨_, htargets, fun q => ?_⟩
      rw [MoveRelation.mem_image, ← marked_mem_edges_after]
      simp [Edge.marked]
    size := by
      have hlength : (after h).moves.size = (after h).keys.length := List.length_reverse.symm
      have hnodup := (after h).moves.nodup_keys
      have hkeys : (after h).moves.keys = _ := keys_after h
      rw [hkeys] at hnodup
      rw [hlength, keys_after, List.length_map,
        ← List.toFinset_card_of_nodup (List.Nodup.of_map _ hnodup)]
      congr 1
      ext k
      simp
    keys := by
      rw [keys_after, List.map_map]
      refine List.map_congr_left fun k _ => ?_
      exact congrArg (k.source, ·) (symbol_marked _ k)
    edges? := ⟨es, hes.edges?, hes.pairwise, hmem, hes.shifted?⟩
    rebuilt := fun offset => by
      have hlists : (after ((es.map (Edge.shift offset)).map .add)).Lists
          (es.map (Edge.shift offset)) :=
        lists_after (pairwise_map_shift hes.pairwise offset) fun e => current_map_add.symm
      refine ⟨_, _, hes.shifted? offset, ?_, hlists.edges?⟩
      rw [List.foldlM_map]
      have hadd := foldlM_perform? ((es.map (Edge.shift offset)).map .add) ∅
      rw [List.foldlM_map] at hadd
      exact hadd }

-- Equality is that of tables, and the listing of the moves decides it.
theorem sameMoves_iff (h g : List Write) :
    ((after h).moves.sameMoves (after g).moves = true ↔ (after h).edges? = (after g).edges?) ∧
      ((after h).moves.sameMoves (after g).moves = true ↔
        ∀ k : Key Mark, (after h).moves.table[k]? = (after g).moves.table[k]?) := by
  obtain ⟨ds, hds, -⟩ := exists_lists_after h
  obtain ⟨es, hes, -⟩ := exists_lists_after g
  rw [MoveRelation.sameMoves, decide_eq_true_iff, hds.edges?_eq_iff hes, MoveRelation.edges_eq_iff]
  exact ⟨Iff.rfl, Iff.rfl⟩

end FreeRelation

namespace Workspace

open FreeRelation (Write)

-- A call that makes, copies or writes a named relation.
inductive RelationCall where
  | create (into : String)
  | copy (name into : String)
  | write (name : String) (x : Write)

def RelationCall.command : RelationCall → Command
  | create into => .relation into
  | copy name into => .copy name into
  | write name (.add e) => .add name e.source (TextLabel.symbol e.label) e.target
  | write name (.replace e) => .replace name e.source (TextLabel.symbol e.label) e.target

-- The writes behind each named relation.
abbrev Histories := String → Option (List Write)

-- A call for a relation that does not exist is not recorded.
def RelationCall.record (past : Histories) : RelationCall → Histories
  | create into => Function.update past into (some [])
  | copy name into =>
    match past name with
    | none => past
    | some h => Function.update past into (some h)
  | write name x =>
    match past name with
    | none => past
    | some h => Function.update past name (some (h ++ [x]))

def histories (cs : List RelationCall) : Histories := cs.foldl RelationCall.record fun _ => none

-- Every name has the relation that its history makes, or nothing.
def Replays (past : Histories) (w : Workspace) : Prop :=
  ∀ name, w.find? name = (past name).map fun h => .relation (FreeRelation.after h)

variable {past : Histories} {w next : Workspace} {c : Command} {reply : Reply} {name : String}

theorem step_of_execute? (hc : w.execute? c = .ok (reply, next)) : (w.step c).2 = next := by
  rw [step, hc]

theorem step_of_execute?_error {e : Error} (hc : w.execute? c = .error e) : (w.step c).2 = w := by
  rw [step, hc]

theorem execute?_write (w : Workspace) (name : String) (x : Write) :
    w.execute? (RelationCall.write name x).command =
      (w.relation? name).bind fun r =>
        ((x.perform? r).mapError .relation).map fun t => (.nothing, w.set name (.relation t)) := by
  cases x <;> rfl

namespace Replays

theorem set (hw : Replays past w) (name : String) (h : List Write) :
    Replays (Function.update past name (some h)) (w.set name (.relation (FreeRelation.after h))) := by
  intro other
  by_cases hother : other = name
  · subst hother
    rw [find?_set, Function.update_self]
    rfl
  · rw [find?_set_of_ne (Ne.symm hother), Function.update_of_ne hother]
    exact hw other

theorem copy (hw : Replays past w) (name into : String) :
    Replays ((RelationCall.copy name into).record past) (w.step (.copy name into)).2 := by
  have hname := hw name
  cases hpast : past name with
  | none =>
      rw [hpast] at hname
      have hc : w.execute? (.copy name into) = .error (.noItem name) := by
        simp only [execute?, item?, hname]
        rfl
      simpa only [RelationCall.record, hpast, step_of_execute?_error hc] using hw
  | some h =>
      rw [hpast] at hname
      have hc : w.execute? (.copy name into) =
          .ok (w.made into (.relation (FreeRelation.after h))) := by
        simp only [execute?, item?, hname]
        rfl
      simpa only [RelationCall.record, hpast, step_of_execute? hc] using hw.set into h

theorem write (hw : Replays past w) (name : String) (x : Write) :
    Replays ((RelationCall.write name x).record past)
      (w.step (RelationCall.write name x).command).2 := by
  have hname := hw name
  cases hpast : past name with
  | none =>
      rw [hpast] at hname
      have hc : w.execute? (RelationCall.write name x).command = .error (.noItem name) := by
        simp only [execute?_write, relation?, hname]
        rfl
      simpa only [RelationCall.record, hpast, step_of_execute?_error hc] using hw
  | some h =>
      rw [hpast] at hname
      have hc : w.execute? (RelationCall.write name x).command =
          .ok (.nothing, w.set name (.relation (FreeRelation.after (h ++ [x])))) := by
        simp only [execute?_write, relation?, hname, FreeRelation.after_append_singleton]
        simp only [Option.map_some, Except.bind, x.perform?_eq]
        rfl
      simpa only [RelationCall.record, hpast, step_of_execute? hc] using hw.set name (h ++ [x])

theorem step (hw : Replays past w) (c : RelationCall) :
    Replays (c.record past) (w.step c.command).2 := by
  cases c with
  | create into => exact hw.set into []
  | copy name into => exact hw.copy name into
  | write name x => exact hw.write name x

theorem run (hw : Replays past w) (cs : List RelationCall) :
    Replays (cs.foldl RelationCall.record past) (w.run (cs.map RelationCall.command)) := by
  induction cs generalizing past w with
  | nil => exact hw
  | cons c cs ih => exact ih (hw.step c)

end Replays

-- After any calls there are the relations with a history, each tells its own, and two of them are
-- equal just when they list the same moves.
theorem tells_run (cs : List RelationCall) :
    let w := run [] (cs.map RelationCall.command)
    (∀ name h, histories cs name = some h →
      ∃ r, w.find? name = some (.relation r) ∧ r.Tells h) ∧
    (∀ name, histories cs name = none → w.find? name = none) ∧
    ∀ m n r s, w.find? m = some (.relation r) → w.find? n = some (.relation s) →
      (r.moves.sameMoves s.moves = true ↔ r.edges? = s.edges?) ∧
      (r.moves.sameMoves s.moves = true ↔
        ∀ k : Key Mark, r.moves.table[k]? = s.moves.table[k]?) := by
  intro w
  have hempty : Replays (fun _ => none) [] := fun _ => rfl
  have hw : Replays (histories cs) w := hempty.run cs
  refine ⟨?_, ?_, ?_⟩
  · intro name h hpast
    refine ⟨_, ?_, FreeRelation.tells_after h⟩
    rw [hw name, hpast]
    rfl
  · intro name hpast
    rw [hw name, hpast]
    rfl
  · intro m n r s hr hs
    rw [hw m] at hr
    rw [hw n] at hs
    obtain ⟨h, -, hr⟩ := Option.map_eq_some_iff.mp hr
    obtain ⟨g, -, hs⟩ := Option.map_eq_some_iff.mp hs
    cases hr
    cases hs
    exact FreeRelation.sameMoves_iff h g

-- The copy is written on, and its model keeps the old target.
theorem tells_run_copied :
    let text : Write := .add ⟨0, some "two", -1⟩
    let silent : Write := .add ⟨-3, none, 0⟩
    let other : Write := .replace ⟨0, some "two", 5⟩
    let cs : List RelationCall := [.create "a", .write "a" text, .write "a" silent, .copy "a" "b",
      .write "b" other]
    let w := run [] (cs.map RelationCall.command)
    ∃ r s, w.find? "a" = some (.relation r) ∧ w.find? "b" = some (.relation s) ∧
      r.Tells [text, silent] ∧ s.Tells [text, silent, other] ∧
      (r.moves.sameMoves s.moves = true ↔ r.edges? = s.edges?) := by
  intro text silent other cs w
  obtain ⟨htells, -, hsame⟩ := tells_run cs
  obtain ⟨r, hfindr, hr⟩ := htells "a" [text, silent] rfl
  obtain ⟨s, hfinds, hs⟩ := htells "b" [text, silent, other] rfl
  exact ⟨r, s, hfindr, hfinds, hr, hs, (hsame "a" "b" r s hfindr hfinds).1⟩

end Workspace

end FiniteAutomata
