import FiniteAutomata.Proofs.Pipeline
import FiniteAutomata.Proofs.SameParts

/-!
Documents printed by the program. What is printed is a document again (`ofText?_printed`), for an
automaton with the same parts (`exists_sameParts`). So it accepts the words that the input accepts,
and what was determinized is not determinized once more (`Shown.eq_of_settled`). Hence one run
settles the text: every further run prints it unchanged (`settles_run`).
-/

namespace FiniteAutomata.CommandLine

variable {s t : Settings} {input : Except ReadError ByteArray} {a b : AnyAutomaton}
  {k : Kind} {text : String}

-- The automaton that is shown accepts what the one that was loaded accepts.
theorem Shown.accepts_eq (h : Shown s a b) (word : List Char) :
    b.automaton.accepts word = a.automaton.accepts word := by
  cases h with
  | asLoaded _ => rfl
  | @determinized a _ =>
      have hreached := NFA.accepts_toDFA_eq_hasFinal a word
      rw [← NFA.accepts_eq_hasFinal] at hreached
      exact hreached

-- What is shown is not determinized once more.
theorem Shown.settled (h : Shown s a b) : b.kind = .dfa ∨ s.determinize = false := by
  cases h with
  | asLoaded h => exact h
  | determinized _ => exact Or.inl rfl

theorem Shown.eq_of_settled (h : Shown s a b) (ha : a.kind = .dfa ∨ s.determinize = false) :
    b = a := by
  cases h with
  | asLoaded _ => rfl
  | determinized hs =>
      rcases ha with hkind | hkeep
      · exact nomatch hkind
      · rw [hs] at hkeep
        exact nomatch hkeep

theorem rendered_json (h : s.format = .json) {output : String} :
    Rendered s b output ↔
      ∃ text, (Document.ofAutomaton b.automaton).toText? true = .ok text ∧ output = text ++ "\n" := by
  simp only [Rendered, h]

-- The line end behind the text does not matter to who reads it.
theorem ofText?_printed {b : Automaton k} (hb : b.WellFormed)
    (htext : (Document.ofAutomaton b).toText? true = .ok text) :
    Document.ofText? (text ++ "\n") = .ok (Document.ofAutomaton b) := by
  have hgap : ∀ c ∈ "\n".toList, Json.isBlank c = true := by
    intro c hc
    have hnewline : "\n".toList = ['\n'] := rfl
    rw [hnewline, List.mem_singleton] at hc
    rw [hc]
    rfl
  exact Document.ofText?_append_of_toText? (Document.valid_ofAutomaton hb) hb.size_pos htext hgap

-- What is read has the parts of what was printed.
theorem exists_sameParts {b : Automaton k} (hb : b.WellFormed) :
    ∃ c : Automaton k, (Document.ofAutomaton b).toAutomaton = ⟨k, c⟩ ∧ c.SameParts b := by
  obtain ⟨c, hc, hsize, hfinals, hedges⟩ := Document.exists_toAutomaton_ofAutomaton hb
  refine ⟨c, hc, hsize, fun p => ?_, fun e => ?_⟩
  · rw [hfinals]
  · rw [hedges]

-- Who prints what was printed prints it unchanged.
theorem output_of_printed {b : Automaton k} (hb : b.WellFormed) (hsize : b.size < 2 ^ 64)
    (hsettled : k = .dfa ∨ t.determinize = false) (hjson : t.format = .json)
    (htext : (Document.ofAutomaton b).toText? true = .ok text)
    (hinput : input = .ok (text ++ "\n").toUTF8) :
    (conclude t input).exitCode = 0 ∧ (conclude t input).output = text ++ "\n" := by
  obtain ⟨c, hc, hparts⟩ := exists_sameParts hb
  have hload : Loads input ⟨k, c⟩ := by
    refine ⟨_, hinput, ?_⟩
    rw [Document.ofBytes?_toUTF8, ofText?_printed hb htext]
    exact congrArg Except.ok hc
  have hsmall : ∀ d, Shown t ⟨k, c⟩ d → d.automaton.size < 2 ^ 64 := by
    intro d hd
    rw [hd.eq_of_settled hsettled]
    exact hparts.size ▸ hsize
  obtain ⟨d, hd, hrendered, hzero, -⟩ := exists_printed hload hsmall
  rw [hd.eq_of_settled hsettled, rendered_json hjson] at hrendered
  obtain ⟨again, hagain, houtput⟩ := hrendered
  have hsame : again = text := by
    rw [hparts.ofAutomaton_eq, htext] at hagain
    exact (Except.ok.inj hagain).symm
  refine ⟨hzero, ?_⟩
  rw [houtput, hsame]

-- The text is a document for the words of `a`, and there is nothing left to do to it.
structure Settles (s : Settings) (a : AnyAutomaton) (text : String) : Prop where
  document : ∃ d, Document.ofText? text = .ok d ∧ Document.ofBytes? text.toUTF8 = .ok d ∧
    (∀ word, d.toAutomaton.automaton.accepts word = a.automaton.accepts word) ∧
    (s.determinize = true → d.kind = .dfa ∧ ∀ e ∈ d.moves, e.label ≠ none)
  -- runs that read the text, from wherever and under whatever name, print it again
  again : ∀ (args : List String) (t : Settings) (read : Path → Except ReadError ByteArray)
    (stdin : ByteArray), parse args = .ok (.run t) → t.format = .json →
    t.determinize = s.determinize → given t read stdin = .ok text.toUTF8 →
      (run args read stdin).exitCode = 0 ∧ (run args read stdin).output = text

-- One run settles the text, whatever the document lists twice or in another order.
theorem settles_run {args : List String} (h : parse args = .ok (.run s)) (hjson : s.format = .json)
    (read : Path → Except ReadError ByteArray) (stdin : ByteArray)
    (ha : Loads (given s read stdin) a) (hsize : ∀ b, Shown s a b → b.automaton.size < 2 ^ 64) :
    (run args read stdin).exitCode = 0 ∧ Settles s a (run args read stdin).output := by
  rw [run_eq_conclude h]
  obtain ⟨⟨k, b⟩, hshown, hrendered, hzero, -⟩ := exists_printed ha hsize
  have hb : b.WellFormed := hshown.wellFormed ha.wellFormed
  obtain ⟨text, htext, houtput⟩ := (rendered_json hjson).mp hrendered
  rw [houtput]
  have hread := ofText?_printed hb htext
  obtain ⟨c, hc, hparts⟩ := exists_sameParts hb
  refine ⟨hzero, ?_, ?_⟩
  · refine ⟨Document.ofAutomaton b, hread, ?_, ?_, ?_⟩
    · rw [Document.ofBytes?_toUTF8, hread]
    · intro word
      rw [hc, hparts.accepts_eq, ← hshown.accepts_eq]
    · intro hdeterminize
      have hkind : k = .dfa := by simpa [hdeterminize] using hshown.settled
      exact ⟨hkind, fun e he => hb.not_silent hkind e he⟩
  · intro args t read stdin hparse htjson hsame hgiven
    have hsettled : k = .dfa ∨ t.determinize = false := hsame ▸ hshown.settled
    rw [run_eq_conclude hparse]
    exact output_of_printed hb (hsize _ hshown) hsettled htjson htext hgiven

-- Final states and moves that are listed twice, and not in their order.
theorem settles_run_unordered :
    let d : Document := ⟨.nfa, 3, [2, 0, 2], [⟨1, some 'b', 2⟩, ⟨0, none, 1⟩, ⟨1, some 'b', 2⟩]⟩
    let args := ["-", "--format", "json"]
    let bytes := d.toJson.compact.toUTF8
    ∃ s, parse args = .ok (.run s) ∧ s.determinize = true ∧
      (run args (fun _ => .error .notFound) bytes).exitCode = 0 ∧
      Settles s d.toAutomaton (run args (fun _ => .error .notFound) bytes).output := by
  intro d args bytes
  have hname : Text.isIdentifier "automaton" = true := by decide +kernel
  let s : Settings := ⟨"-", .json, "automaton", true, .warning, .standard, hname, by decide⟩
  have hparse : parse args = .ok (.run s) := rfl
  have hvalid : d.Valid := (Document.check_eq_ok.mp (rfl : d.check = .ok d)).1
  have hload : Loads (.ok bytes) d.toAutomaton := loads_compact hvalid (by decide) (by decide)
  have hsize : ∀ b, Shown s d.toAutomaton b → b.automaton.size < 2 ^ 64 := by
    intro b hb
    apply hb.size_lt hload.wellFormed
    rw [hvalid.describes.size]
    decide
  exact ⟨s, hparse, rfl, settles_run hparse rfl _ bytes hload hsize⟩

end FiniteAutomata.CommandLine
