import FiniteAutomata.Proofs.JsonReading
import FiniteAutomata.Proofs.Reachable

/-!
Automata survive being written and read again (`Document.roundTrips_of_reachable`). The text is
refused only if the number of states is no word: every other number in it is smaller.
-/

namespace FiniteAutomata.Document

-- Fields

theorem showsMove_moveJson (e : Edge Char) :
    ∃ members, moveJson e = .object members ∧ ShowsMove members e :=
  ⟨_, rfl, rfl, rfl, rfl, by simp⟩

-- What is written shows all fields, and no field more.
theorem ofJson_toJson {d : Document} (h : 0 < d.states) : ofJson d.toJson = .ok d := by
  have hmoves : List.Forall₂ (fun item e => ∃ members, item = .object members ∧ ShowsMove members e)
      (d.moves.map moveJson) d.moves :=
    List.forall₂_map_left_iff.mpr (List.forall₂_same.mpr fun e _ => showsMove_moveJson e)
  exact ofJson_eq_ok.mpr ⟨_, rfl, {
    kind := rfl
    states := rfl
    states_pos := h
    finals := Or.inl rfl
    moves := Or.inl ⟨_, rfl, hmoves⟩
    only := by simp }⟩

-- Numbers

theorem allWords_iff {items : List Json} :
    Json.allWords items = true ↔ ∀ item ∈ items, item.hasWords = true := by
  induction items with
  | nil => simp [Json.allWords]
  | cons item items ih => rw [Json.allWords, Bool.and_eq_true, ih, List.forall_mem_cons]

theorem hasWords_moveJson {e : Edge Char} :
    (moveJson e).hasWords = true ↔ Json.isWord e.source = true ∧ Json.isWord e.target = true := by
  cases hlabel : e.label <;> simp [moveJson, labelJson, hlabel, Json.hasWords, Json.allMembersWords]

theorem hasWords_toJson {d : Document} :
    d.toJson.hasWords = true ↔ Json.isWord d.states = true ∧
      (∀ p ∈ d.finals, Json.isWord p = true) ∧
      ∀ e ∈ d.moves, Json.isWord e.source = true ∧ Json.isWord e.target = true := by
  simp [toJson, Json.hasWords, Json.allMembersWords, allWords_iff, hasWords_moveJson]

theorem isWord_natCast {n : Nat} : Json.isWord n = true ↔ n < Json.wordLimit := by
  simp only [Json.isWord, Bool.and_eq_true, decide_eq_true_eq]
  omega

theorem InRange.isWord {n : Nat} {p : Int} (hp : InRange n p) (hn : n < Json.wordLimit) :
    Json.isWord p = true := by
  have hlow : (0 : Int) ≤ p := hp.1
  have hhigh : p < (n : Int) := hp.2
  simp only [Json.isWord, Bool.and_eq_true, decide_eq_true_eq]
  omega

-- No other number of a document is as large as the number of its states.
theorem Valid.hasWords_iff {d : Document} (h : d.Valid) :
    d.toJson.hasWords = true ↔ d.states < Json.wordLimit := by
  rw [hasWords_toJson, isWord_natCast]
  refine and_iff_left_of_imp fun hstates => ⟨fun p hp => ?_, fun e he => ?_⟩
  · exact (h.finals_inRange p hp).isWord hstates
  · exact ⟨(h.source_inRange e he).isWord hstates, (h.target_inRange e he).isWord hstates⟩

-- Reading

theorem readableItems_iff {limits : Json.Limits} {opened : Nat} {items : List Json} :
    Json.ReadableItems limits opened items ↔ ∀ item ∈ items, item.Readable limits opened := by
  induction items with
  | nil => simp [Json.ReadableItems]
  | cons item items ih => rw [Json.ReadableItems, ih, List.forall_mem_cons]

theorem readable_int {opened : Nat} {n : Int} (hn : Json.isWord n = true) :
    (Json.int n).Readable .strict opened := by
  simp [Json.Readable, Json.Limits.scalar?, Json.Limits.strict, Json.bounded?, hn]

theorem readable_moveJson {e : Edge Char} (h : (moveJson e).hasWords = true) :
    (moveJson e).Readable .strict 2 := by
  obtain ⟨hsource, htarget⟩ := hasWords_moveJson.mp h
  have hlabel : (labelJson e.label).Readable .strict 3 := by
    cases e.label with
    | none => rfl
    | some c => trivial
  have hkeys : ["source", "symbol", "target"].Nodup := by decide
  exact ⟨rfl, hkeys, readable_int hsource, hlabel, readable_int htarget, trivial⟩

theorem readable_toJson {d : Document} (h : d.toJson.hasWords = true) :
    d.toJson.Readable .strict 0 := by
  obtain ⟨hstates, hfinals, hmoves⟩ := hasWords_toJson.mp h
  have hfinals : (Json.array (d.finals.map .int)).Readable .strict 1 := by
    refine ⟨rfl, readableItems_iff.mpr fun item hitem => ?_⟩
    obtain ⟨p, hp, rfl⟩ := List.mem_map.mp hitem
    exact readable_int (hfinals p hp)
  have hmoves : (Json.array (d.moves.map moveJson)).Readable .strict 1 := by
    refine ⟨rfl, readableItems_iff.mpr fun item hitem => ?_⟩
    obtain ⟨e, he, rfl⟩ := List.mem_map.mp hitem
    exact readable_moveJson (hasWords_moveJson.mpr (hmoves e he))
  have hkeys : ["kind", "states", "final_states", "moves"].Nodup := by decide
  exact ⟨rfl, hkeys, trivial, readable_int hstates, hfinals, hmoves, trivial⟩

theorem toText?_eq_ok {d : Document} {indent : Bool} {text : String} :
    d.toText? indent = .ok text ↔ d.toJson.toText? indent = some text := by
  rw [toText?]
  cases d.toJson.toText? indent <;> simp

theorem exists_toText?_iff {d : Document} {indent : Bool} :
    (∃ text, d.toText? indent = .ok text) ↔ d.toJson.hasWords = true := by
  simp only [toText?_eq_ok, Json.toText?]
  cases d.toJson.hasWords <;> simp

-- The text of a document that keeps the rules is read as that document, also before a gap of blanks.
theorem ofText?_append_of_toText? {d : Document} (h : d.Valid) (hpos : 0 < d.states) {indent : Bool}
    {text gap : String} (ht : d.toText? indent = .ok text)
    (hgap : ∀ c ∈ gap.toList, Json.isBlank c = true) : ofText? (text ++ gap) = .ok d := by
  have hwords := exists_toText?_iff.mp ⟨text, ht⟩
  have hread : Json.ofText? (text ++ gap) = some d.toJson :=
    Json.read?_append_of_toText? (readable_toJson hwords) (toText?_eq_ok.mp ht) hgap
  have hcheck : d.check = .ok d := check_eq_ok.mpr ⟨h, rfl⟩
  rw [ofText?, hread, ofJson?, ofJson_toJson hpos]
  exact congrArg (Except.mapError LoadError.invalid) hcheck

theorem ofText?_of_toText? {d : Document} (h : d.Valid) (hpos : 0 < d.states) {indent : Bool}
    {text : String} (ht : d.toText? indent = .ok text) : ofText? text = .ok d := by
  have hread : ofText? (text ++ "") = .ok d := ofText?_append_of_toText? h hpos ht nofun
  rwa [String.append_empty] at hread

theorem ofBytes?_toUTF8 (text : String) : ofBytes? text.toUTF8 = ofText? text := by
  rw [ofBytes?, Json.ofBytes?_toUTF8]
  rfl

theorem ofBytes?_compact {d : Document} (h : d.Valid) (hpos : 0 < d.states)
    (hsize : d.states < 2 ^ 64) : ofBytes? d.toJson.compact.toUTF8 = .ok d := by
  have htext : d.toText? false = .ok d.toJson.compact := by
    rw [toText?_eq_ok, Json.toText?, if_pos (h.hasWords_iff.mpr hsize)]
    rfl
  rw [ofBytes?_toUTF8]
  exact ofText?_of_toText? h hpos htext

-- Automata

theorem valid_ofAutomaton {k : Kind} {a : Automaton k} (h : a.WellFormed) :
    (ofAutomaton a).Valid where
  finals_inRange p hp := h.finals_valid p (Std.ExtTreeSet.mem_toList.mp hp)
  source_inRange e he := (h.moves_valid e he).1
  target_inRange e he := (h.moves_valid e he).2
  not_silent := h.not_silent
  nodup_keys hk := List.Nodup.map_on (h.target_unique hk) (Ascending.nodup_toList _)

-- The document of an automaton describes that automaton.
theorem exists_toAutomaton_ofAutomaton {k : Kind} {a : Automaton k} (h : a.WellFormed) :
    ∃ b : Automaton k, (ofAutomaton a).toAutomaton = ⟨k, b⟩ ∧ b.size = a.size ∧
      b.finals = a.finals ∧ b.moves.edges = a.moves.edges := by
  have hdescribes := (valid_ofAutomaton h).describes
  generalize (ofAutomaton a).toAutomaton = read at hdescribes ⊢
  obtain ⟨j, b⟩ := read
  have hk : k = j := hdescribes.kind
  subst hk
  refine ⟨b, rfl, hdescribes.size, ?_, ?_⟩
  · refine Std.ExtTreeSet.ext_mem fun p => (hdescribes.mem_finals p).trans ?_
    exact Std.ExtTreeSet.mem_toList
  · exact Ascending.ext fun e => (hdescribes.mem_edges e).trans Ascending.mem_toList

-- An automaton and the text written for it.
structure RoundTrips {k : Kind} (a : Automaton k) (indent : Bool) : Prop where
  -- what is written keeps the rules for what is read
  check : (ofAutomaton a).check = .ok (ofAutomaton a)
  -- the number of states decides whether there is a text
  written_iff : (∃ text, (ofAutomaton a).toText? indent = .ok text) ↔ a.size < 2 ^ 64
  refused : 2 ^ 64 ≤ a.size → (ofAutomaton a).toText? indent = .error .integerTooLarge
  -- the text, and also its bytes, give the automaton back
  restored : ∀ text, (ofAutomaton a).toText? indent = .ok text → ∃ b : Automaton k,
    (ofText? text).map toAutomaton = .ok ⟨k, b⟩ ∧
    (ofBytes? text.toUTF8).map toAutomaton = .ok ⟨k, b⟩ ∧
    b.size = a.size ∧ b.finals = a.finals ∧ b.moves.sameMoves a.moves = true ∧
    (ofAutomaton b).toText? indent = .ok text

theorem roundTrips_of_reachable {k : Kind} {a : Automaton k} (h : Reachable a) (indent : Bool) :
    RoundTrips a indent := by
  have hvalid := valid_ofAutomaton h.wellFormed
  have hwritten : (∃ text, (ofAutomaton a).toText? indent = .ok text) ↔ a.size < 2 ^ 64 :=
    exists_toText?_iff.trans hvalid.hasWords_iff
  exact {
    check := check_eq_ok.mpr ⟨hvalid, rfl⟩
    written_iff := hwritten
    refused := fun hlarge => by
      cases htext : (ofAutomaton a).toJson.toText? indent with
      | none =>
          rw [toText?, htext]
          rfl
      | some text =>
          have hsmall := hwritten.mp ⟨text, toText?_eq_ok.mpr htext⟩
          exact absurd hsmall (Nat.not_lt.mpr hlarge)
    restored := fun text htext => by
      obtain ⟨b, hb, hsize, hfinals, hedges⟩ := exists_toAutomaton_ofAutomaton h.wellFormed
      have hread := ofText?_of_toText? hvalid h.wellFormed.size_pos htext
      have hagain : ofAutomaton b = ofAutomaton a := by
        simp only [ofAutomaton, hsize, hfinals, hedges]
      refine ⟨b, ?_, ?_, hsize, hfinals, ?_, ?_⟩
      · rw [hread]
        exact congrArg Except.ok hb
      · rw [ofBytes?_toUTF8, hread]
        exact congrArg Except.ok hb
      · exact decide_eq_true hedges
      · rw [hagain]
        exact htext }

-- Silent moves, and characters that are written as escapes or raw.
theorem roundTrips_star :
    RoundTrips (Regex.toNFA (.star (.charSet (.ofList ['"', '\\', '\n', '\x00', 'E', 'ε'])))) true :=
  roundTrips_of_reachable
    ⟨[.make (.pattern (.star (.charSet (.ofList ['"', '\\', '\n', '\x00', 'E', 'ε'])))) "a"], "a",
      rfl⟩ true

end FiniteAutomata.Document
