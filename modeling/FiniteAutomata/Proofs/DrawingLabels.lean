import FiniteAutomata.Proofs.DrawingArrows
import Mathlib.Algebra.GroupWithZero.Nat

/-!
How labels are quoted in a drawing. A quoted text goes on to the first quotation mark behind it that
is not escaped (`Drawing.unquote?`). Symbols are written so that they are read back, but the label
of silent moves is written as it is. So an arrow's labels are read back just if that label holds
nothing to be escaped or is not among them (`Drawing.unquote?_labels_iff`), whatever drawing they
stand in (`Drawing.delimits_iff`).
-/

namespace FiniteAutomata.Drawing

-- The text up to the first quotation mark that is not escaped, with the escapes undone, and what
-- stands behind the mark.
def unquote? : List Char → Option (List Char × List Char)
  | [] => none
  | '"' :: rest => some ([], rest)
  | '\\' :: c :: rest => (unquote? rest).map fun (text, rest) => (c :: text, rest)
  | c :: rest => (unquote? rest).map fun (text, rest) => (c :: text, rest)

-- What a label says, before anything in it is escaped. A comma stands between apostrophes.
def saying (o : Options) : Label → String
  | none => o.silentLabel
  | some c => if c = ',' then "','" else String.singleton c

-- What has to be escaped.
def isMark (c : Char) : Bool := c = '\\' ∨ c = '"'

variable {o : Options} {s t u v : List Char}

theorem unquote?_cons {c : Char} (h : isMark c = false) (s : List Char) :
    unquote? (c :: s) = (unquote? s).map fun (text, rest) => (c :: text, rest) := by
  simp only [isMark, decide_eq_false_iff_not, not_or] at h
  rw [unquote?]
  · exact h.2
  · intro d rest hslash
    exact absurd hslash h.1

-- Spelling

-- Where `s` stands, `t` is read.
def Spells (s t : List Char) : Prop :=
  ∀ r, unquote? (s ++ r) = (unquote? r).map fun (text, rest) => (t ++ text, rest)

theorem spells_nil : Spells [] [] := by
  intro r
  simp

theorem Spells.append (hst : Spells s t) (huv : Spells u v) : Spells (s ++ u) (t ++ v) := by
  intro r
  rw [List.append_assoc, hst, huv, Option.map_map]
  simp [Function.comp_def]

theorem spells_singleton {c : Char} (h : isMark c = false) : Spells [c] [c] :=
  unquote?_cons h

theorem spells_of_not_isMark (h : ∀ c ∈ s, isMark c = false) : Spells s s := by
  induction s with
  | nil => exact spells_nil
  | cons c s ih =>
      obtain ⟨hc, hs⟩ := List.forall_mem_cons.mp h
      exact (spells_singleton hc).append (ih hs)

theorem spells_flatMap {α : Type} {f g : α → List Char} {xs : List α}
    (h : ∀ x ∈ xs, Spells (f x) (g x)) : Spells (xs.flatMap f) (xs.flatMap g) := by
  induction xs with
  | nil => exact spells_nil
  | cons x xs ih =>
      obtain ⟨hx, hxs⟩ := List.forall_mem_cons.mp h
      exact hx.append (ih hxs)

-- Symbols are escaped.
theorem spells_symbolLabel (o : Options) (c : Char) :
    Spells (label o (some c)).toList (saying o (some c)).toList := by
  rw [label, toList_symbolLabel, saying]
  by_cases hcomma : c = ','
  · rw [if_pos hcomma, if_pos hcomma]
    exact spells_of_not_isMark (by simp [isMark])
  · rw [if_neg hcomma, if_neg hcomma]
    by_cases hmark : c = '\\' ∨ c = '"'
    · rw [if_pos hmark]
      intro r
      simp [unquote?]
    · rw [if_neg hmark, String.toList_singleton]
      exact spells_singleton (by simpa [isMark] using hmark)

theorem spells_labels {ls : List Label}
    (h : none ∈ ls → ∀ c ∈ o.silentLabel.toList, isMark c = false) :
    Spells (",".intercalate (ls.map (label o))).toList
      (",".intercalate (ls.map (saying o))).toList := by
  have hlabel : ∀ l ∈ ls, Spells (label o l).toList (saying o l).toList := by
    intro l hl
    cases l with
    | none => exact spells_of_not_isMark (h hl)
    | some c => exact spells_symbolLabel o c
  cases ls with
  | nil => exact spells_nil
  | cons l ls =>
      obtain ⟨hl, hls⟩ := List.forall_mem_cons.mp hlabel
      rw [toList_commas_cons, toList_commas_cons]
      apply hl.append
      apply spells_flatMap
      intro m hm
      exact (spells_singleton (by decide)).append (hls m hm)

-- Lengths

-- How long a text is once all in it that has to be escaped is.
def escapedLength (s : List Char) : Nat := s.length + s.countP isMark

@[simp] theorem escapedLength_nil : escapedLength [] = 0 := rfl

@[simp] theorem escapedLength_cons (c : Char) (s : List Char) :
    escapedLength (c :: s) = escapedLength s + 1 + if isMark c then 1 else 0 := by
  simp only [escapedLength, List.length_cons, List.countP_cons]
  omega

@[simp] theorem escapedLength_append (s t : List Char) :
    escapedLength (s ++ t) = escapedLength s + escapedLength t := by
  simp only [escapedLength, List.length_append, List.countP_append]
  omega

-- What was read took at least this long to write.
theorem escapedLength_lt_of_unquote? (h : unquote? s = some (t, u)) :
    escapedLength t + u.length < s.length := by
  fun_induction unquote? s generalizing t with
  | case1 => exact nomatch h
  | case2 rest =>
      cases h
      simp
  | case3 c rest ih =>
      obtain ⟨⟨text, behind⟩, hrest, heq⟩ := Option.map_eq_some_iff.mp h
      cases heq
      have hshort := ih hrest
      have hmark : (if isMark c then 1 else 0) ≤ 1 := by split <;> omega
      simp only [escapedLength_cons, List.length_cons]
      omega
  | case4 c rest hquote hslash ih =>
      obtain ⟨⟨text, behind⟩, hrest, heq⟩ := Option.map_eq_some_iff.mp h
      cases heq
      have hplain : isMark c = false := by
        -- A backslash that nothing follows is before no quotation mark.
        have hlast : c ≠ '\\' := by
          intro hc
          cases rest with
          | nil => exact nomatch hrest
          | cons d rest => exact hslash d rest hc rfl
        exact decide_eq_false (not_or.mpr ⟨hlast, hquote⟩)
      have hshort := ih hrest
      simp only [escapedLength_cons, hplain, List.length_cons]
      simp only [Bool.false_eq_true, if_false]
      omega

-- How much is missing from a label because it is not escaped.
def shortage (o : Options) : Label → Nat
  | none => o.silentLabel.toList.countP isMark
  | some _ => 0

theorem length_label (o : Options) (l : Label) :
    (label o l).toList.length + shortage o l = escapedLength (saying o l).toList := by
  cases l with
  | none => rfl
  | some c =>
      rw [label, toList_symbolLabel, saying, shortage]
      by_cases hcomma : c = ','
      · simp [hcomma, isMark]
      · by_cases hmark : c = '\\' ∨ c = '"'
        · simp [hcomma, hmark, isMark]
        · simp [hcomma, hmark, isMark]

theorem length_labels (o : Options) (ls : List Label) :
    (",".intercalate (ls.map (label o))).toList.length + (ls.map (shortage o)).sum =
      escapedLength (",".intercalate (ls.map (saying o))).toList := by
  have hcomma : isMark ',' = false := by decide
  have hrest (ls : List Label) : (ls.flatMap fun l => ',' :: (label o l).toList).length +
      (ls.map (shortage o)).sum = escapedLength (ls.flatMap fun l => ',' :: (saying o l).toList) := by
    induction ls with
    | nil => rfl
    | cons l ls ih =>
        have hl := length_label o l
        simp only [List.flatMap_cons, List.length_append, List.length_cons, List.map_cons,
          List.sum_cons, escapedLength_append, escapedLength_cons, hcomma, Bool.false_eq_true, if_false]
        omega
  cases ls with
  | nil => rfl
  | cons l ls =>
      have hl := length_label o l
      have hls := hrest ls
      rw [toList_commas_cons, toList_commas_cons, List.length_append, List.map_cons, List.sum_cons,
        escapedLength_append]
      omega

-- The labels of an arrow are read back just if nothing is missing from them.
theorem unquote?_labels_iff {ls : List Label} {rest : List Char} :
    unquote? ((",".intercalate (ls.map (label o))).toList ++ '"' :: rest) =
        some ((",".intercalate (ls.map (saying o))).toList, rest) ↔
      (none ∈ ls → ∀ c ∈ o.silentLabel.toList, isMark c = false) := by
  constructor
  · intro h hsilent
    have hshort := escapedLength_lt_of_unquote? h
    rw [← length_labels, List.length_append, List.length_cons] at hshort
    have hsum : (ls.map (shortage o)).sum = 0 := by omega
    have hnone : shortage o none = 0 :=
      List.sum_eq_zero_iff_forall_eq_nat.mp hsum _ (List.mem_map_of_mem hsilent)
    simpa [shortage] using hnone
  · intro h
    rw [spells_labels h]
    simp [unquote?]

-- Drawings

theorem toList_sheet (name : String) (o : Options) (finals : List State)
    (arrows : List (Arc × List Label)) : (sheet name o finals arrows).toList =
      below (preamble name o finals) ++ below (drawn o arrows) ++ "\x7d\n".toList := by
  have hlines : (sheet name o finals arrows).toList =
      below (preamble name o finals ++ drawn o arrows ++ ["\x7d"]) := toList_join_lines _
  rw [hlines]
  simp only [below, List.flatMap_append]
  simp

-- Where an arrow stands, the drawing goes on with its labels and a quotation mark. They are read
-- back up to that mark just if the label of silent moves needs no escape or is not among them.
theorem delimits_iff {name : String} (hname : Text.isIdentifier name = true) {k : Kind}
    (a : Automaton k) (o : Options) :
    ∃ finals arrows, Merges a finals arrows ∧
      render? a name o = .ok (sheet name o finals arrows) ∧
      ∀ us x vs, arrows = us ++ x :: vs → ∃ before rest : List Char,
        (sheet name o finals us).toList = before ++ "\x7d\n".toList ∧
        " ];\n".toList <+: rest ∧
        (sheet name o finals arrows).toList = before ++
          ("  " ++ node o x.1.source ++ " -> " ++ node o x.1.target ++ " [ label = \"").toList ++
          (",".intercalate (x.2.map (label o))).toList ++ '"' :: rest ∧
        (unquote? ((",".intercalate (x.2.map (label o))).toList ++ '"' :: rest) =
            some ((",".intercalate (x.2.map (saying o))).toList, rest) ↔
          (none ∈ x.2 → ∀ c ∈ o.silentLabel.toList, isMark c = false)) := by
  refine ⟨_, _, merges_bundle a, by rw [render?, if_pos hname, render_eq_sheet], ?_⟩
  intro us x vs harrows
  refine ⟨below (preamble name o a.finals.toList) ++ below (drawn o us),
    " ];\n".toList ++ below (drawn o vs) ++ "\x7d\n".toList, toList_sheet _ _ _ us, ?_, ?_,
    unquote?_labels_iff⟩
  · rw [List.append_assoc]
    exact List.prefix_append _ _
  · rw [toList_sheet, harrows]
    simp [drawn, below, arrow]

-- Symbols that have to be escaped are read back, also next to a comma or at the end.
theorem delimits_iff_marks :
    let a : NFA := ((((Automaton.blank 2).addMove ⟨0, some '\\', 1⟩).addMove ⟨0, some '"', 1⟩).addMove
      ⟨0, none, 1⟩).addMove ⟨0, some ',', 1⟩
    let o : Options := .standard
    Text.isIdentifier "g" = true ∧ ∃ finals arrows, Merges a finals arrows ∧
      ∀ us x vs, arrows = us ++ x :: vs → ∃ rest, " ];\n".toList <+: rest ∧
        unquote? ((",".intercalate (x.2.map (label o))).toList ++ '"' :: rest) =
          some ((",".intercalate (x.2.map (saying o))).toList, rest) := by
  intro a o
  have hname : Text.isIdentifier "g" = true := by decide +kernel
  obtain ⟨finals, arrows, hmerges, -, harrows⟩ := delimits_iff hname a o
  refine ⟨hname, finals, arrows, hmerges, ?_⟩
  intro us x vs hsplit
  obtain ⟨-, rest, -, hclosing, -, hiff⟩ := harrows us x vs hsplit
  have hsilent : o.silentLabel.toList = ['ε'] := by decide
  have hplain : ∀ c ∈ o.silentLabel.toList, isMark c = false := by
    rw [hsilent, List.forall_mem_singleton]
    decide
  exact ⟨rest, hclosing, hiff.mpr fun _ => hplain⟩

-- Silent moves may be shown by a quotation mark. It is not escaped, and so it ends its own label.
theorem unquote?_silent_quote :
    let a : NFA := ((Automaton.blank 2).addMove ⟨0, none, 1⟩).addFinal 1
    let o : Options := ⟨.leftToRight, "q", "\"", isIdentifier_q, by decide⟩
    render? a "automaton" o = .ok
      ("digraph automaton \x7b\n  rankdir=LR;\n  node [shape = doublecircle]; q1;\n" ++
        "  node [shape = circle];\n  __start [shape = point]; __start -> q0;\n" ++
        "  q0 -> q1 [ label = \"" ++ "\"\" ];\n\x7d\n") ∧
      unquote? "\"\" ];\n\x7d\n".toList = some ([], "\" ];\n\x7d\n".toList) ∧
      unquote? "\"\" ];\n\x7d\n".toList ≠ some ((saying o none).toList, " ];\n\x7d\n".toList) := by
  intro a o
  refine ⟨?_, by decide, by decide⟩
  have hname : Text.isIdentifier "automaton" = true := by decide +kernel
  rw [render?, if_pos hname, Except.ok.injEq]
  decide +kernel

end FiniteAutomata.Drawing
