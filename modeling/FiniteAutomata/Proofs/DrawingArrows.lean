import FiniteAutomata.Proofs.DrawingText

/-!
What a drawing shows of an automaton. Its text is made from a list of final states and a list of
arrows (`Drawing.sheet`). Moves between the same two states share an arrow; no move is lost, and
none is shown twice, because the labels of an arrow ascend strictly (`Drawing.Merges`). So the list
of arrows is the only one that shows the moves (`Drawing.render?_eq_sheet`).
-/

namespace FiniteAutomata.Drawing

-- What stands above the arrows of a drawing with these final states.
def preamble (name : String) (o : Options) (finals : List State) : List String :=
  let doubled :=
    if finals = [] then []
    else ["  node [shape = doublecircle]; " ++ " ".intercalate (finals.map (node o)) ++ ";"]
  ["digraph " ++ name ++ " \x7b", "  rankdir=" ++ o.direction.name ++ ";"] ++ doubled ++
    ["  node [shape = circle];", "  __start [shape = point]; __start -> " ++ node o 0 ++ ";"]

-- The text of a drawing with these final states and these arrows.
def sheet (name : String) (o : Options) (finals : List State)
    (arrows : List (Arc × List Label)) : String :=
  let statements := arrows.map fun (arc, ls) =>
    "  " ++ node o arc.source ++ " -> " ++ node o arc.target ++ " [ label = \"" ++
      ",".intercalate (ls.map (label o)) ++ "\" ];"
  String.join ((preamble name o finals ++ statements ++ ["\x7d"]).map (· ++ "\n"))

variable {k : Kind} {a : Automaton k} {o : Options} {es : List (Edge Char)}

-- How an automaton is shown: by its final states in ascending order, and by an arrow for each two
-- states that a move joins. Arrows ascend by their source and then by their target, and each has
-- the labels of all moves between its states.
structure Merges (a : Automaton k) (finals : List State) (arrows : List (Arc × List Label)) :
    Prop where
  finals_ascend : finals.Pairwise (· < ·)
  mem_finals : ∀ p, p ∈ finals ↔ p ∈ a.finals
  arrows_ascend : arrows.Pairwise fun x y =>
    x.1.source < y.1.source ∨ x.1.source = y.1.source ∧ x.1.target < y.1.target
  joined : ∀ p q, (∃ ls, (⟨p, q⟩, ls) ∈ arrows) ↔ ∃ l, q ∈ a.moves.targets p l
  mem_labels : ∀ x ∈ arrows, ∀ l, l ∈ x.2 ↔ x.1.target ∈ a.moves.targets x.1.source l
  labels_ascend : ∀ x ∈ arrows, x.2.Pairwise Label.Precedes

-- Arrows

theorem Arc.compare_eq_lt {x y : Arc} : compare x y = .lt ↔
    x.source < y.source ∨ x.source = y.source ∧ x.target < y.target := by
  refine Ordering.then_eq_lt.trans ?_
  simp [compareOn, Int.compare_eq_lt]

theorem mem_toList_bundle {x : Arc × List Label} : x ∈ (bundle es).toList ↔
    (∃ e ∈ es, arcOf e = x.1) ∧ (bundle es).getD x.1 [] = x.2 := by
  rw [← mem_bundle, Std.TreeMap.mem_toList_iff_getElem?_eq_some, Std.TreeMap.mem_iff_isSome_getElem?,
    Std.TreeMap.getD_eq_getD_getElem?]
  cases (bundle es)[x.1]? <;> simp

-- An arrow joins two states just if some move does.
theorem exists_mem_bundle_iff {p q : State} : (∃ ls, (⟨p, q⟩, ls) ∈ (bundle es).toList) ↔
    ∃ l, ⟨p, l, q⟩ ∈ es := by
  constructor
  · intro h
    obtain ⟨ls, hls⟩ := h
    obtain ⟨⟨e, he, harc⟩, -⟩ := mem_toList_bundle.mp hls
    refine ⟨e.label, ?_⟩
    cases e
    cases harc
    exact he
  · intro h
    obtain ⟨l, hl⟩ := h
    exact ⟨_, mem_toList_bundle.mpr ⟨⟨⟨p, l, q⟩, hl, rfl⟩, Eq.refl ((bundle es).getD ⟨p, q⟩ [])⟩⟩

theorem merges_bundle (a : Automaton k) :
    Merges a a.finals.toList (bundle a.moves.edges.toList).toList where
  finals_ascend := by
    apply Std.ExtTreeSet.ordered_toList.imp
    intro p q h
    exact Int.compare_eq_lt.mp h
  mem_finals p := Std.ExtTreeSet.mem_toList
  arrows_ascend := by
    apply Std.TreeMap.ordered_keys_toList.imp
    intro x y h
    exact Arc.compare_eq_lt.mp h
  joined p q := by
    simp only [exists_mem_bundle_iff, MoveRelation.mem_targets, Ascending.mem_toList]
  mem_labels x hx l := by
    rw [← (mem_toList_bundle.mp hx).2, MoveRelation.mem_targets, ← Ascending.mem_toList]
    exact (mem_iff_label_mem_bundle (e := ⟨x.1.source, l, x.1.target⟩)).symm
  labels_ascend x hx := by
    rw [← (mem_toList_bundle.mp hx).2]
    apply (pairwise_bundle a.moves.edges.ascending x.1).imp
    intro l m h
    exact Label.compare_eq_lt.mp h

theorem render_eq_sheet (a : Automaton k) (name : String) (o : Options) :
    render a name o = sheet name o a.finals.toList (bundle a.moves.edges.toList).toList := by
  unfold render lines sheet preamble finalsLine
  simp only [List.isEmpty_iff]
  rfl

-- The drawing is the sheet with the final states and the merged arrows of the automaton.
theorem render?_eq_sheet {name : String} (hname : Text.isIdentifier name = true)
    (a : Automaton k) (o : Options) :
    ∃ finals arrows, Merges a finals arrows ∧ render? a name o = .ok (sheet name o finals arrows) := by
  refine ⟨_, _, merges_bundle a, ?_⟩
  rw [render?, if_pos hname, render_eq_sheet]

-- Two moves from one state to another share an arrow, though a third one lies between them.
theorem render?_eq_sheet_parallel :
    let a : NFA := ((((Automaton.blank 2).addMove ⟨0, some 'b', 1⟩).addMove ⟨0, some 'a', 0⟩).addMove
      ⟨0, none, 1⟩).addFinal 1
    Text.isIdentifier "g" = true ∧ ∃ finals arrows, Merges a finals arrows ∧
      sheet "g" .standard finals arrows =
        "digraph g \x7b\n  rankdir=LR;\n  node [shape = doublecircle]; q1;\n" ++
        "  node [shape = circle];\n  __start [shape = point]; __start -> q0;\n" ++
        "  q0 -> q0 [ label = \"a\" ];\n  q0 -> q1 [ label = \"ε,b\" ];\n\x7d\n" := by
  intro a
  have hname : Text.isIdentifier "g" = true := by decide +kernel
  obtain ⟨finals, arrows, hmerges, hsheet⟩ := render?_eq_sheet hname a .standard
  refine ⟨hname, finals, arrows, hmerges, ?_⟩
  rw [← Except.ok.injEq (ε := Error), ← hsheet, render?, if_pos hname, Except.ok.injEq]
  decide +kernel

end FiniteAutomata.Drawing
