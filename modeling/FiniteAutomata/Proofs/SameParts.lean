import FiniteAutomata.Document.Writer
import FiniteAutomata.Drawing
import FiniteAutomata.Run
import FiniteAutomata.Table

/-!
Automata with the same parts: as many states, the same final states and the same moves. Two such
automata may have come by their moves in different orders. Nothing else can tell them apart: they
have the same targets (`SameParts.targets_eq`), give the same answers (`SameParts.accepts_eq`) and
are shown by the same texts.
-/

namespace FiniteAutomata

namespace MoveRelation

variable {σ : Type} [Ord σ] [Std.TransOrd σ] [Std.LawfulEqOrd σ]

-- Each key is counted once, so it is the set of keys that counts.
theorem size_eq_of_edges_eq {r s : MoveRelation σ} (h : r.edges = s.edges) : r.size = s.size := by
  have hmem : ∀ k, k ∈ r.keys ↔ k ∈ s.keys := by
    intro k
    rw [mem_keys, mem_keys, h]
  have hperm : r.keys.Perm s.keys := (List.perm_ext_iff_of_nodup r.nodup_keys s.nodup_keys).mpr hmem
  have hlength := hperm.length_eq
  simpa [keys, size] using hlength

theorem summary_eq_of_edges_eq {r s : MoveRelation σ} (h : r.edges = s.edges) :
    r.summary = s.summary := by
  have hsize := size_eq_of_edges_eq h
  unfold summary
  rw [hsize]

-- The silent moves are asked for among the keys, not among the moves.
theorem any_written_eq_true_iff {r : MoveRelation σ} :
    r.written.any (·.label = none) = true ↔ ∃ e ∈ r.edges, e.label = none := by
  simp only [List.any_eq_true, decide_eq_true_eq]
  constructor
  · intro hsilent
    obtain ⟨key, hkey, hlabel⟩ := hsilent
    obtain ⟨e, he, rfl⟩ := mem_keys.mp (List.mem_reverse.mpr hkey)
    exact ⟨e, he, hlabel⟩
  · intro hsilent
    obtain ⟨e, he, hlabel⟩ := hsilent
    have hwritten : e.key ∈ r.keys := mem_keys.mpr ⟨e, he, rfl⟩
    exact ⟨e.key, List.mem_reverse.mp hwritten, hlabel⟩

end MoveRelation

namespace Automaton

-- The same states, final states and moves, in automata that may be read by different engines.
structure SameParts {j k : Kind} (a : Automaton j) (b : Automaton k) : Prop where
  size : a.size = b.size
  mem_finals : ∀ p, p ∈ a.finals ↔ p ∈ b.finals
  mem_edges : ∀ e, e ∈ a.moves.edges ↔ e ∈ b.moves.edges

namespace SameParts

section

variable {j k : Kind} {a : Automaton j} {b : Automaton k}

theorem valid_iff (h : a.SameParts b) {p : State} : a.Valid p ↔ b.Valid p := by
  rw [Valid, Valid, h.size]

theorem isFinal_eq (h : a.SameParts b) (p : State) : a.isFinal p = b.isFinal p :=
  Bool.eq_iff_iff.mpr (h.mem_finals p)

theorem finals_eq (h : a.SameParts b) : a.finals = b.finals :=
  Std.ExtTreeSet.ext_mem h.mem_finals

theorem edges_eq (h : a.SameParts b) : a.moves.edges = b.moves.edges :=
  Ascending.ext h.mem_edges

theorem targets_eq (h : a.SameParts b) (p : State) (l : Label) :
    a.moves.targets p l = b.moves.targets p l := by
  apply Ascending.ext
  simp [h.mem_edges]

theorem alphabet_eq (h : a.SameParts b) : a.alphabet = b.alphabet := by
  apply Ascending.ext
  simp [alphabet, h.mem_edges]

-- Answers

theorem closure_eq (h : a.SameParts b) (ps : List State) : a.closure ps = b.closure ps := by
  have hsilent : a.moves.silentTargets = b.moves.silentTargets :=
    funext fun p => h.targets_eq p none
  have hvalid : ps.filter (fun p => a.Valid p) = ps.filter (fun p => b.Valid p) := by
    simp only [h.valid_iff]
  apply Ascending.ext
  simp [closure, hsilent, hvalid]

theorem step_eq (h : a.SameParts b) (s : Ascending State) (c : Char) : a.step s c = b.step s c := by
  have himage : a.moves.image s.toList (some c) = b.moves.image s.toList (some c) := by
    apply Ascending.ext
    simp [h.mem_edges]
  rw [step, step, himage, h.closure_eq]

theorem hasFinal_eq (h : a.SameParts b) (ps : List State) : a.hasFinal ps = b.hasFinal ps := by
  have hfinal : a.isFinal = b.isFinal := funext h.isFinal_eq
  rw [hasFinal, hasFinal, hfinal]

end

theorem acceptsFrom_eq {a b : NFA} (h : a.SameParts b) (s : Ascending State) (word : List Char) :
    NFA.acceptsFrom a s word = NFA.acceptsFrom b s word := by
  induction word generalizing s with
  | nil => exact h.hasFinal_eq s.toList
  | cons c word ih => simp only [NFA.acceptsFrom, h.step_eq, ih]

theorem walk?_eq {a b : DFA} (h : a.SameParts b) (p : State) (word : List Char) :
    DFA.walk? a p word = DFA.walk? b p word := by
  induction word generalizing p with
  | nil => rfl
  | cons c word ih => simp only [DFA.walk?, DFA.move?, h.targets_eq, ih]

variable {k : Kind} {a b : Automaton k}

theorem accepts_eq (h : a.SameParts b) (word : List Char) : a.accepts word = b.accepts word := by
  cases k with
  | nfa =>
      simp only [accepts, NFA.accepts, NFA.start, h.closure_eq]
      exact h.acceptsFrom_eq _ word
  | dfa => simp only [accepts, DFA.accepts, h.walk?_eq, h.isFinal_eq]

-- Texts

theorem summary_eq (h : a.SameParts b) : a.summary = b.summary := by
  have hsize := MoveRelation.size_eq_of_edges_eq h.edges_eq
  cases k <;> simp only [summary, h.size, h.finals_eq, hsize]

theorem ofAutomaton_eq (h : a.SameParts b) : Document.ofAutomaton a = Document.ofAutomaton b := by
  simp only [Document.ofAutomaton, h.size, h.finals_eq, h.edges_eq]

theorem drawing_eq (h : a.SameParts b) (name : String) (o : Drawing.Options) :
    Drawing.render a name o = Drawing.render b name o := by
  simp only [Drawing.render, Drawing.lines, Drawing.arrows, h.finals_eq, h.edges_eq]

theorem columns_eq (h : a.SameParts b) : Table.columns a = Table.columns b := by
  have hsilent : a.moves.written.any (·.label = none) = b.moves.written.any (·.label = none) := by
    apply Bool.eq_iff_iff.mpr
    rw [MoveRelation.any_written_eq_true_iff, MoveRelation.any_written_eq_true_iff, h.edges_eq]
  simp only [Table.columns, hsilent, h.alphabet_eq]

theorem table_eq (h : a.SameParts b) (silentLabel : String) :
    Table.render a silentLabel = Table.render b silentLabel := by
  have hstates : a.states = b.states := by simp only [states, h.size]
  have hrow : Table.row a = Table.row b := by
    funext columns p
    simp only [Table.row, Table.marker, h.isFinal_eq, h.targets_eq]
  simp only [Table.render, Table.lines, h.columns_eq, hstates, hrow]

end SameParts

end Automaton

end FiniteAutomata
