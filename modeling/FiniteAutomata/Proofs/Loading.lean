import FiniteAutomata.Proofs.Document
import FiniteAutomata.Proofs.JsonReading

/-!
What becomes of a document that has all its fields. The questions asked of it stand in one list
(`demands`), and the first one not met is the fault that is reported (`broken?_eq_firstUnmet?`). A
document without faults is built write by write; none of the writes is refused, and none takes the
place of an earlier one (`Valid.granted`). Together this tells what is loaded and what is reported
(`settled_of_shows`).
-/

namespace FiniteAutomata.Document

-- The first fault

-- What is asked of one part of a document.
inductive Demand where
  | final (p : State)
  | source (e : Edge Char)
  | target (e : Edge Char)
  | reading (e : Edge Char)
  | unrepeated (before : List (Edge Char)) (e : Edge Char)

namespace Demand

-- The last two are asked of deterministic automata only.
def Met (d : Document) : Demand → Prop
  | final p => InRange d.states p
  | source e => InRange d.states e.source
  | target e => InRange d.states e.target
  | reading e => d.kind = .dfa → e.label ≠ none
  | unrepeated before e => d.kind = .dfa → ∀ f ∈ before, f.key ≠ e.key

instance (d : Document) : (x : Demand) → Decidable (x.Met d)
  | final p => inferInstanceAs (Decidable (InRange d.states p))
  | source e => inferInstanceAs (Decidable (InRange d.states e.source))
  | target e => inferInstanceAs (Decidable (InRange d.states e.target))
  | reading e => inferInstanceAs (Decidable (d.kind = .dfa → e.label ≠ none))
  | unrepeated before e =>
    inferInstanceAs (Decidable (d.kind = .dfa → ∀ f ∈ before, f.key ≠ e.key))

-- The rule that is broken where a demand is not met. Silent moves are refused before they are
-- compared with others.
def rule (n : Nat) : Demand → Rule
  | final p => .finalInRange p n
  | source e => .sourceInRange e.source n
  | target e => .targetInRange e.target n
  | reading _ => .notSilent
  | unrepeated _ e =>
    match e.label with
    | none => .notSilent
    | some c => .oneTarget e.source c

-- What is asked of a move, behind the moves `before`.
def ofMove (before : List (Edge Char)) (e : Edge Char) : List Demand :=
  [source e, target e, reading e, unrepeated before e]

def ofMoves (before : List (Edge Char)) : List (Edge Char) → List Demand
  | [] => []
  | e :: es => ofMove before e ++ ofMoves (before ++ [e]) es

end Demand

-- All demands in the order in which they are looked at.
def demands (d : Document) : List Demand :=
  d.finals.map Demand.final ++ Demand.ofMoves [] d.moves

def firstUnmet? (d : Document) : Option Demand := d.demands.find? fun x => ¬ x.Met d

-- The keys seen so far are those of the moves before.
theorem brokenByMove?_eq_find? (d : Document) {seen : Std.ExtTreeSet (Key Char)}
    {before : List (Edge Char)} (hseen : ∀ key, key ∈ seen ↔ ∃ f ∈ before, f.key = key)
    (e : Edge Char) :
    brokenByMove? d.kind d.states seen e =
      ((Demand.ofMove before e).find? fun x => ¬ x.Met d).map (Demand.rule d.states) := by
  unfold brokenByMove? Demand.ofMove
  by_cases hsource : InRange d.states e.source
  · by_cases htarget : InRange d.states e.target
    · cases hkind : d.kind with
      | nfa => simp [Demand.Met, hsource, htarget, hkind]
      | dfa =>
          cases hlabel : e.label with
          | none => simp [Demand.Met, Demand.rule, hsource, htarget, hkind, hlabel]
          | some c =>
              by_cases hkey : e.key ∈ seen
              · have hrepeated : ∃ f ∈ before, f.key = e.key := (hseen e.key).mp hkey
                simp [Demand.Met, Demand.rule, hsource, htarget, hkind, hlabel, hkey, hrepeated]
              · have hnew : ∀ f ∈ before, f.key ≠ e.key := fun f hf heq =>
                  hkey ((hseen e.key).mpr ⟨f, hf, heq⟩)
                simpa [Demand.Met, hsource, htarget, hkind, hlabel, hkey] using hnew
    · simp [Demand.Met, Demand.rule, hsource, htarget]
  · simp [Demand.Met, Demand.rule, hsource]

theorem brokenByMoves?_eq_find? (d : Document) {seen : Std.ExtTreeSet (Key Char)}
    {before es : List (Edge Char)} (hseen : ∀ key, key ∈ seen ↔ ∃ f ∈ before, f.key = key) :
    brokenByMoves? d.kind d.states seen es =
      ((Demand.ofMoves before es).find? fun x => ¬ x.Met d).map (Demand.rule d.states) := by
  induction es generalizing seen before with
  | nil => rfl
  | cons e es ih =>
      have hinsert : ∀ key, key ∈ seen.insert e.key ↔ ∃ f ∈ before ++ [e], f.key = key := by
        intro key
        rw [Std.ExtTreeSet.mem_insert, Std.compare_eq_iff_eq, hseen]
        simp only [List.mem_append, List.mem_singleton, or_and_right, exists_or, exists_eq_left]
        exact or_comm
      rw [brokenByMoves?, Demand.ofMoves, List.find?_append, Option.map_or,
        ← brokenByMove?_eq_find? d hseen, ← ih hinsert]
      cases brokenByMove? d.kind d.states seen e <;> rfl

theorem broken?_eq_firstUnmet? (d : Document) :
    d.broken? = d.firstUnmet?.map (Demand.rule d.states) := by
  have hmoves : ∀ key : Key Char, key ∈ (∅ : Std.ExtTreeSet (Key Char)) ↔
      ∃ f ∈ ([] : List (Edge Char)), f.key = key := by simp
  rw [broken?, firstUnmet?, demands, List.find?_append, Option.map_or, List.find?_map,
    ← brokenByMoves?_eq_find? d hmoves]
  have hfinals : (d.finals.find? ((fun x => decide ¬ x.Met d) ∘ Demand.final)) =
      d.finals.find? fun p => ¬ InRange d.states p := rfl
  rw [hfinals]
  cases d.finals.find? fun p => ¬ InRange d.states p <;> rfl

-- A target that does not exist counts before the silent move that it belongs to.
example : broken? ⟨.dfa, 1, [0, 0], [⟨0, some 'a', 0⟩, ⟨0, none, 1⟩, ⟨0, some 'a', 0⟩]⟩ =
    some (.targetInRange 1 1) := by rfl

-- Building

-- What is given to write a label.
def givenLabel : Label → Symbol
  | none => .silent
  | some c => .text (String.singleton c)

-- What is built from the first moves and final states.
def stage (d : Document) (moves : List (Edge Char)) (finals : List State) : AnyAutomaton :=
  toAutomaton { d with moves := moves, finals := finals }

-- Every step of the building does what it is meant to.
structure Granted (d : Document) : Prop where
  start : Automaton.ofSize? d.states = .ok (d.stage [] []).automaton
  -- a move is accepted, and a deterministic automaton has none with its key yet
  move : ∀ before e after, d.moves = before ++ e :: after →
    ∃ b, (d.stage before []).automaton.writeMove? e.source (givenLabel e.label) e.target =
        .ok (some b) ∧
      d.stage (before ++ [e]) [] = ⟨_, b⟩ ∧
      (d.kind = .dfa → ∀ f ∈ (d.stage before []).automaton.moves.edges, f.key ≠ e.key)
  final : ∀ before p after, d.finals = before ++ p :: after →
    ∃ b, (d.stage d.moves before).automaton.addFinal? p = some b ∧
      d.stage d.moves (before ++ [p]) = ⟨_, b⟩

theorem label?_givenLabel (l : Label) : (givenLabel l).label? = .ok l := by
  cases l <;> simp [givenLabel, Symbol.label?]

-- The first parts of a document without faults have none either.
theorem Valid.initial {d : Document} (h : d.Valid) {moves : List (Edge Char)} {finals : List State}
    (hmoves : moves <+: d.moves) (hfinals : finals <+: d.finals) :
    Valid { d with moves := moves, finals := finals } where
  finals_inRange p hp := h.finals_inRange p (hfinals.subset hp)
  source_inRange e he := h.source_inRange e (hmoves.subset he)
  target_inRange e he := h.target_inRange e (hmoves.subset he)
  not_silent hk e he := h.not_silent hk e (hmoves.subset he)
  nodup_keys hk := (h.nodup_keys hk).sublist (hmoves.sublist.map Edge.key)

theorem Valid.key_ne_of_before {d : Document} (h : d.Valid) (hk : d.kind = .dfa)
    {before after : List (Edge Char)} {e : Edge Char} (hsplit : d.moves = before ++ e :: after) :
    ∀ f ∈ before, f.key ≠ e.key := by
  intro f hf
  have hnodup := h.nodup_keys hk
  rw [hsplit, List.map_append, List.map_cons] at hnodup
  exact (List.nodup_append.mp hnodup).2.2 _ (List.mem_map_of_mem hf) _ List.mem_cons_self

theorem writeMove?_of_nfa {a : NFA} {e : Edge Char} (hsource : Automaton.Valid a e.source)
    (htarget : Automaton.Valid a e.target) :
    Automaton.writeMove? a e.source (givenLabel e.label) e.target = .ok (some (a.addMove e)) := by
  simp only [Automaton.writeMove?, label?_givenLabel, Automaton.addMove, Automaton.addMove?,
    hsource, htarget, and_self, if_true, Option.getD_some]

theorem writeMove?_of_dfa {a : DFA} {e : Edge Char} {c : Char} (hlabel : e.label = some c)
    (hsource : Automaton.Valid a e.source) (htarget : Automaton.Valid a e.target) :
    Automaton.writeMove? a e.source (givenLabel e.label) e.target =
      .ok (some (a.setMove e.source c e.target)) := by
  simp only [Automaton.writeMove?, label?_givenLabel, hlabel, Automaton.setMove,
    Automaton.setMove?, hsource, htarget, and_self, if_true, Option.getD_some]

theorem stage_append_final (d : Document) (moves : List (Edge Char)) (finals : List State)
    (p : State) :
    d.stage moves (finals ++ [p]) = ⟨_, (d.stage moves finals).automaton.addFinal p⟩ := by
  obtain ⟨kind, n, ps, es⟩ := d
  cases kind with
  | nfa => simp only [stage, toAutomaton, toNFA, List.foldl_append, List.foldl_cons, List.foldl_nil]
  | dfa => simp only [stage, toAutomaton, toDFA, List.foldl_append, List.foldl_cons, List.foldl_nil]

theorem stage_nil (d : Document) : d.stage [] [] = ⟨d.kind, .blank d.states⟩ := by
  obtain ⟨kind, n, ps, es⟩ := d
  cases kind <;> rfl

theorem Valid.granted {d : Document} (h : d.Valid) (hpos : 1 ≤ d.states) : d.Granted where
  start := by
    rw [stage_nil, Automaton.ofSize?, if_neg (by omega), Int.toNat_natCast]
  move before e after hsplit := by
    have he : e ∈ d.moves := hsplit ▸ List.mem_append_right before List.mem_cons_self
    have hprefix : before <+: d.moves := ⟨e :: after, hsplit.symm⟩
    have hdescribes := (h.initial hprefix (List.nil_prefix)).describes
    have hsource := (h.source_inRange e he).valid hdescribes.size
    have htarget := (h.target_inRange e he).valid hdescribes.size
    have hfresh : d.kind = .dfa →
        ∀ f ∈ (d.stage before []).automaton.moves.edges, f.key ≠ e.key := fun hk f hf =>
      h.key_ne_of_before hk hsplit f ((hdescribes.mem_edges f).mp hf)
    obtain ⟨kind, n, ps, es⟩ := d
    cases kind with
    | nfa =>
        refine ⟨_, writeMove?_of_nfa hsource htarget, ?_, hfresh⟩
        simp only [stage, toAutomaton, toNFA, List.foldl_append, List.foldl_cons, List.foldl_nil]
    | dfa =>
        obtain ⟨c, hlabel⟩ := Option.ne_none_iff_exists'.mp (h.not_silent rfl e he)
        refine ⟨_, writeMove?_of_dfa hlabel hsource htarget, ?_, hfresh⟩
        simp only [stage, toAutomaton, toDFA, List.foldl_append, List.foldl_cons, List.foldl_nil,
          hlabel]
  final before p after hsplit := by
    have hp : p ∈ d.finals := hsplit ▸ List.mem_append_right before List.mem_cons_self
    have hprefix : before <+: d.finals := ⟨p :: after, hsplit.symm⟩
    have hdescribes := (h.initial (List.prefix_refl _) hprefix).describes
    refine ⟨_, ?_, stage_append_final d d.moves before p⟩
    have hvalid : (d.stage d.moves before).automaton.Valid p :=
      (h.finals_inRange p hp).valid hdescribes.size
    rw [Automaton.addFinal, Automaton.addFinal?, if_pos hvalid]
    rfl

-- Loading

-- What a document with all its fields is answered.
structure Settled (d : Document) (answer : Except LoadError AnyAutomaton) : Prop where
  loaded_iff : (∃ a, answer = .ok a) ↔ d.Valid
  -- nothing that the document lists is lost on the way
  loaded : ∀ a, answer = .ok a →
    d.Describes a.automaton ∧ a = d.stage d.moves d.finals ∧ d.Granted
  -- the one fault reported is the first there is, and it is told of the whole
  refused : ∀ error, answer = .error error →
    ∃ x, d.firstUnmet? = some x ∧ error = .invalid [⟨[], .broken (x.rule d.states)⟩]

theorem settled_check {d : Document} (hpos : 1 ≤ d.states) :
    Settled d ((d.check.mapError LoadError.invalid).map toAutomaton) := by
  unfold check
  cases hbroken : d.broken? with
  | none =>
      have hvalid := broken?_eq_none.mp hbroken
      exact {
        loaded_iff := iff_of_true ⟨_, rfl⟩ hvalid
        loaded := fun a ha => by
          cases ha
          exact ⟨hvalid.describes, rfl, hvalid.granted hpos⟩
        refused := nofun }
  | some rule =>
      have hinvalid : ¬ d.Valid := fun hvalid => by
        rw [broken?_eq_none.mpr hvalid] at hbroken
        exact nomatch hbroken
      rw [broken?_eq_firstUnmet?] at hbroken
      obtain ⟨x, hx, rfl⟩ := Option.map_eq_some_iff.mp hbroken
      exact {
        loaded_iff := iff_of_false nofun hinvalid
        loaded := nofun
        refused := fun error herror => by
          cases herror
          exact ⟨x, hx, rfl⟩ }

theorem settled_ofJson? {members : List (String × Json)} {d : Document} (h : Shows members d) :
    Settled d ((ofJson? (some (.object members))).map toAutomaton) := by
  have hread : ofJson (.object members) = .ok d := ofJson_eq_ok.mpr ⟨members, rfl, h⟩
  rw [ofJson?, hread]
  exact settled_check h.states_pos

-- From text as from bytes, a document is loaded exactly if it keeps the rules. What is loaded has
-- all that was listed; what is refused is refused for its first fault.
theorem settled_of_shows {members : List (String × Json)} {d : Document} (h : Shows members d) :
    (∀ text, Json.ofText? text = some (.object members) →
      Settled d ((ofText? text).map toAutomaton)) ∧
    ∀ bytes, Json.ofBytes? bytes = some (.object members) →
      Settled d ((ofBytes? bytes).map toAutomaton) := by
  constructor
  · intro text htext
    rw [ofText?, htext]
    exact settled_ofJson? h
  · intro bytes hbytes
    rw [ofBytes?, hbytes]
    exact settled_ofJson? h

-- The same move twice, with all members in another order than they are written in.
theorem settled_of_shows_repeated :
    let move := Json.object [("target", .int 1), ("symbol", .string "a"), ("source", .int 0)]
    let members := [("moves", .array [move, move]), ("states", .int 2), ("kind", .string "dfa"),
      ("final_states", .array [.int 1, .int 1])]
    Settled ⟨.dfa, 2, [1, 1], [⟨0, some 'a', 1⟩, ⟨0, some 'a', 1⟩]⟩
      ((ofText? (Json.object members).compact).map toAutomaton) := by
  intro move members
  have hmove : ∃ ms, move = .object ms ∧ ShowsMove ms ⟨0, some 'a', 1⟩ :=
    ⟨_, rfl, rfl, rfl, rfl, by decide⟩
  have hshows : Shows members ⟨.dfa, 2, [1, 1], [⟨0, some 'a', 1⟩, ⟨0, some 'a', 1⟩]⟩ := {
    kind := rfl
    states := rfl
    states_pos := by decide
    finals := Or.inl rfl
    moves := Or.inl ⟨_, rfl, .cons hmove (.cons hmove .nil)⟩
    only := by decide }
  have hreadable : (Json.object members).Readable .strict 0 := by
    simp [members, move, Json.Readable, Json.ReadableMembers, Json.ReadableItems,
      Json.Limits.strict, Json.Limits.allows, Json.Limits.scalar?, Json.bounded?, Json.isWord,
      Json.wordLimit]
  have htext : (Json.object members).toText? false = some (Json.object members).compact := rfl
  exact (settled_of_shows hshows).1 _ (Json.read?_of_toText? hreadable htext)

end FiniteAutomata.Document
