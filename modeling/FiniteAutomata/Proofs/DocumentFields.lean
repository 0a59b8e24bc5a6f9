import FiniteAutomata.Document.Reader
import FiniteAutomata.Document.Writer
import FiniteAutomata.Proofs.Success
import Mathlib.Data.List.Forall2

/-!
Which JSON values are documents. Values that are read side by side are read when each of them is
(`Checked.both_eq_ok`), and each reader takes the values of one form and no others. So a value is
read as a document exactly if its members show the fields of that document and nothing else
(`ofJson_eq_ok`). In what order the members stand does not matter.
-/

namespace FiniteAutomata.Document

variable {α : Type} {value : Json} {members : List (String × Json)} {name : String}

namespace Checked

theorem both_eq_ok {β : Type} {x : Checked α} {y : Checked β} {ab : α × β} :
    x.both y = .ok ab ↔ x = .ok ab.1 ∧ y = .ok ab.2 := by
  cases x <;> cases y <;> simp [both, Prod.ext_iff]

theorem inside_eq_ok {x : Checked α} {place : Place} {a : α} :
    x.inside place = .ok a ↔ x = .ok a := mapError_eq_ok

theorem all_eq_ok {xs : List (Checked α)} {as : List α} :
    all xs = .ok as ↔ xs = as.map Except.ok := by
  induction xs generalizing as with
  | nil => cases as <;> simp [all]
  | cons x xs ih =>
      rw [all, map_eq_ok]
      constructor
      · rintro ⟨⟨a, bs⟩, hboth, rfl⟩
        obtain ⟨hx, hxs⟩ := both_eq_ok.mp hboth
        rw [hx, ih.mp hxs, List.map_cons]
      · intro h
        cases as with
        | nil => exact nomatch h
        | cons a as =>
            obtain ⟨rfl, hxs⟩ := List.cons.inj h
            exact ⟨(a, as), both_eq_ok.mpr ⟨rfl, ih.mpr hxs⟩, rfl⟩

end Checked

-- Single values

theorem readInteger_eq_ok {n : Int} : readInteger value = .ok n ↔ value = .int n := by
  cases value <;> simp [readInteger, Checked.fail]

theorem readStates_eq_ok {n : Nat} : readStates value = .ok n ↔ 1 ≤ n ∧ value = .int n := by
  cases value with
  | int m =>
      by_cases hm : m < 1
      · simp only [readStates, if_pos hm, Checked.fail, reduceCtorEq, Json.int.injEq, false_iff]
        omega
      · simp only [readStates, if_neg hm, Except.ok.injEq, Json.int.injEq]
        omega
  | _ => simp [readStates, Checked.fail]

theorem readKind_eq_ok {k : Kind} : readKind value = .ok k ↔ value = .string (kindName k) := by
  constructor
  · intro h
    unfold readKind at h
    split at h
    · cases h
      rfl
    · cases h
      rfl
    · exact nomatch h
  · rintro rfl
    cases k <;> rfl

theorem readLabel_eq_ok {l : Label} : readLabel value = .ok l ↔ value = labelJson l := by
  constructor
  · intro h
    unfold readLabel at h
    split at h
    · cases h
      rfl
    · split at h
      · rename_i s c hs
        cases h
        exact congrArg Json.string (String.toList_inj.mp (by simpa using hs))
      · exact nomatch h
    · exact nomatch h
  · rintro rfl
    cases l <;> simp [labelJson, readLabel]

-- Lists

-- The items are read one by one, each told its own place.
theorem mapIdx_inside_eq {read : Json → Checked α} {place : Nat → Place} {items : List Json}
    {as : List α} :
    (items.mapIdx fun i item => Checked.inside (place i) (read item)) = as.map Except.ok ↔
      List.Forall₂ (fun item a => read item = .ok a) items as := by
  induction items generalizing place as with
  | nil => cases as <;> simp
  | cons item items ih =>
      cases as with
      | nil => simp
      | cons a as =>
          rw [List.mapIdx_cons, List.map_cons, List.cons.injEq, Checked.inside_eq_ok,
            List.forall₂_cons]
          exact and_congr_right fun _ => ih

theorem readList_eq_ok {read : Json → Checked α} {as : List α} :
    readList read value = .ok as ↔
      ∃ items, value = .array items ∧ List.Forall₂ (fun item a => read item = .ok a) items as := by
  cases value with
  | array items =>
      rw [readList, Checked.all_eq_ok, mapIdx_inside_eq]
      simp
  | _ => simp [readList, Checked.fail]

theorem readList_readInteger_eq_ok {ps : List State} :
    readList readInteger value = .ok ps ↔ value = .array (ps.map .int) := by
  have hitems (items : List Json) :
      List.Forall₂ (fun item p => item = Json.int p) items ps ↔ items = ps.map Json.int := by
    induction ps generalizing items with
    | nil => simp
    | cons p ps ih => cases items <;> simp [ih]
  simp only [readList_eq_ok, readInteger_eq_ok, hitems, exists_eq_right]

-- Members

theorem required_eq_ok {read : Json → Checked α} {a : α} :
    required members name read = .ok a ↔
      ∃ value, Json.member? name members = some value ∧ read value = .ok a := by
  rw [required, Checked.inside_eq_ok]
  cases Json.member? name members <;> simp [Checked.fail]

theorem optional_eq_ok {read : Json → Checked α} {default a : α} :
    optional members name read default = .ok a ↔
      (∃ value, Json.member? name members = some value ∧ read value = .ok a) ∨
        Json.member? name members = none ∧ a = default := by
  rw [optional]
  cases Json.member? name members with
  | none => simp [eq_comm]
  | some value => simp [Checked.inside_eq_ok]

theorem onlyNames_eq_ok {names : List String} {u : Unit} :
    onlyNames members names = .ok u ↔ ∀ m ∈ members, m.1 ∈ names := by
  have hextra : (members.filter fun m => m.1 ∉ names) = [] ↔ ∀ m ∈ members, m.1 ∈ names := by
    simp [List.filter_eq_nil_iff]
  rw [← hextra, onlyNames]
  split
  · rename_i hnone
    exact iff_of_true rfl hnone
  · rename_i hsome
    exact iff_of_false nofun hsome

-- Objects

-- The members of a move, in any order.
structure ShowsMove (members : List (String × Json)) (e : Edge Char) : Prop where
  source : Json.member? "source" members = some (.int e.source)
  label : Json.member? "symbol" members = some (labelJson e.label)
  target : Json.member? "target" members = some (.int e.target)
  only : ∀ m ∈ members, m.1 ∈ ["source", "symbol", "target"]

-- The members of a document, in any order. Without final states or moves the member may be
-- missing.
structure Shows (members : List (String × Json)) (d : Document) : Prop where
  kind : Json.member? "kind" members = some (.string (kindName d.kind))
  states : Json.member? "states" members = some (.int d.states)
  states_pos : 1 ≤ d.states
  finals : Json.member? "final_states" members = some (.array (d.finals.map .int)) ∨
    Json.member? "final_states" members = none ∧ d.finals = []
  moves : (∃ items, Json.member? "moves" members = some (.array items) ∧
      List.Forall₂ (fun item e => ∃ ms, item = .object ms ∧ ShowsMove ms e) items d.moves) ∨
    Json.member? "moves" members = none ∧ d.moves = []
  only : ∀ m ∈ members, m.1 ∈ ["kind", "states", "final_states", "moves"]

theorem readMove_eq_ok {e : Edge Char} :
    readMove value = .ok e ↔ ∃ members, value = .object members ∧ ShowsMove members e := by
  cases value with
  | object members =>
      simp only [readMove, map_eq_ok, Checked.both_eq_ok, required_eq_ok, onlyNames_eq_ok,
        readInteger_eq_ok, readLabel_eq_ok, exists_eq_right]
      constructor
      · rintro ⟨⟨p, l, q, _⟩, ⟨hsource, hlabel, htarget, honly⟩, rfl⟩
        exact ⟨members, rfl, hsource, hlabel, htarget, honly⟩
      · rintro ⟨_, hmembers, h⟩
        cases hmembers
        exact ⟨(e.source, e.label, e.target, ()), ⟨h.source, h.label, h.target, h.only⟩, rfl⟩
  | _ => simp [readMove, Checked.fail]

theorem finals_eq_ok {ps : List State} :
    optional members "final_states" (readList readInteger) [] = .ok ps ↔
      Json.member? "final_states" members = some (.array (ps.map .int)) ∨
        Json.member? "final_states" members = none ∧ ps = [] := by
  simp only [optional_eq_ok, readList_readInteger_eq_ok, exists_eq_right]

theorem moves_eq_ok {es : List (Edge Char)} :
    optional members "moves" (readList readMove) [] = .ok es ↔
      (∃ items, Json.member? "moves" members = some (.array items) ∧
        List.Forall₂ (fun item e => ∃ ms, item = .object ms ∧ ShowsMove ms e) items es) ∨
      Json.member? "moves" members = none ∧ es = [] := by
  simp only [optional_eq_ok, readList_eq_ok, readMove_eq_ok]
  refine or_congr_left ⟨?_, ?_⟩
  · rintro ⟨_, hvalue, items, rfl, hitems⟩
    exact ⟨items, hvalue, hitems⟩
  · rintro ⟨items, hvalue, hitems⟩
    exact ⟨_, hvalue, items, rfl, hitems⟩

theorem ofJson_eq_ok {d : Document} :
    ofJson value = .ok d ↔ ∃ members, value = .object members ∧ Shows members d := by
  cases value with
  | object members =>
      simp only [ofJson, map_eq_ok, Checked.both_eq_ok, required_eq_ok, finals_eq_ok, moves_eq_ok,
        onlyNames_eq_ok, readKind_eq_ok, readStates_eq_ok, exists_eq_right]
      constructor
      · rintro ⟨⟨kind, n, ps, es, _⟩, ⟨hkind, ⟨_, hstates, hpos, rfl⟩, hfinals, hmoves, honly⟩, rfl⟩
        exact ⟨members, rfl, hkind, hstates, hpos, hfinals, hmoves, honly⟩
      · rintro ⟨_, hmembers, h⟩
        cases hmembers
        exact ⟨(d.kind, d.states, d.finals, d.moves, ()),
          ⟨h.kind, ⟨_, h.states, h.states_pos, rfl⟩, h.finals, h.moves, h.only⟩, rfl⟩
  | _ => simp [ofJson, Checked.fail]

end FiniteAutomata.Document
