import FiniteAutomata.Proofs.Delimited
import FiniteAutomata.Proofs.SameParts
import Mathlib.Data.List.Forall2

/-!
How tables are laid out. The only blanks in a table are spaces and the ends of lines
(`Table.plain_headers`, `Table.plain_row`), so the lines can be told from the text
(`Table.splitOn_render`). Every text fits the width of its column (`Table.fits_widths`). At its end a
line has lost nothing but spaces (`Table.exists_line_append`).
-/

namespace FiniteAutomata.Table

-- Blanks

-- The text has no blanks but spaces.
def Plain (s : List Char) : Prop := ∀ c ∈ s, Text.isBlank c = true → c = ' '

instance (s : List Char) : Decidable (Plain s) := List.decidableBAll _ _

-- The text has no blanks at all.
def Unbroken (s : List Char) : Prop := ∀ c ∈ s, Text.isBlank c = false

instance (s : List Char) : Decidable (Unbroken s) := List.decidableBAll _ _

theorem Unbroken.plain {s : List Char} (h : Unbroken s) : Plain s := by
  intro c hc hblank
  simp [h c hc] at hblank

theorem Plain.not_mem_newline {s : List Char} (h : Plain s) : '\n' ∉ s := by
  intro hmem
  exact absurd (h '\n' hmem (by decide)) (by decide)

theorem not_isBlank_of_isDigit {c : Char} (h : c.isDigit = true) : Text.isBlank c = false := by
  have hc : 48 ≤ c.toNat ∧ c.toNat ≤ 57 := by
    simpa [Char.isDigit, UInt32.le_iff_toNat_le] using h
  simp only [Text.isBlank, Text.blankRanges, Text.Ranges.contains]
  grind

-- The space is the only blank that has a glyph of its own.
theorem eq_space_of_isPrintable {c : Char} (hprintable : Text.isPrintable c = true)
    (hblank : Text.isBlank c = true) : c = ' ' := by
  have hranges : ∀ range ∈ Text.blankRanges, ∀ n ∈ List.range' range.1 (range.2 + 1 - range.1),
      n = 0x20 ∨ Text.unprintableRanges.contains n = true := by decide +kernel
  obtain ⟨range, hrange, hfirst, hlast⟩ := Text.Ranges.exists_of_contains hblank
  have hmem : c.toNat ∈ List.range' range.1 (range.2 + 1 - range.1) := by
    rw [List.mem_range'_1]
    omega
  cases hranges range hrange c.toNat hmem with
  | inl hspace => exact Char.toNat_inj.mp hspace
  | inr hno => simp [Text.isPrintable, hno] at hprintable

-- Texts

theorem isBlank_digitChar (n : Nat) : Text.isBlank (Nat.digitChar (n % 16)) = false := by
  have hdigits : ∀ m < 16, Text.isBlank (Nat.digitChar m) = false := by decide
  exact hdigits (n % 16) (by omega)

theorem unbroken_hexDigits (width n : Nat) : Unbroken (Text.hexDigits width n) := by
  induction width generalizing n with
  | zero => exact nofun
  | succ width ih =>
      intro c hc
      rw [Text.hexDigits, List.mem_append] at hc
      cases hc with
      | inl hc => exact ih (n / 16) c hc
      | inr hc => exact List.mem_singleton.mp hc ▸ isBlank_digitChar n

-- The letters that stand for characters in escapes.
def letters : List (Char × Char) := [('\\', '\\'), ('n', '\n'), ('r', '\r'), ('t', '\t')]

-- The letters before the number of a character, each with the length of the number and with what
-- it stays below.
def numbered : List (Char × Nat × Nat) :=
  [('x', 2, 0x100), ('u', 4, 0x10000), ('U', 8, 0x100000000)]

-- A character by itself is no reason to escape quotes.
theorem escaped_cases (c : Char) :
    (Text.isPrintable c = true ∧ Text.escaped [c] = [c]) ∨
      (∃ l ∈ letters, l.2 = c ∧ Text.escaped [c] = ['\\', l.1]) ∨
      ∃ x ∈ numbered, c.toNat < x.2.2 ∧
        Text.escaped [c] = '\\' :: x.1 :: Text.hexDigits x.2.1 c.toNat := by
  have hmark : c ≠ Text.quoteMark [c] := by
    unfold Text.quoteMark
    grind
  have hescaped : Text.escaped [c] = Text.escapeChar (Text.quoteMark [c]) c :=
    List.append_nil _
  rw [hescaped]
  unfold Text.escapeChar
  simp only [hmark, false_or]
  by_cases hslash : c = '\\'
  · exact .inr (.inl ⟨('\\', '\\'), by decide, hslash.symm, by simp [hslash]⟩)
  by_cases hline : c = '\n'
  · exact .inr (.inl ⟨('n', '\n'), by decide, hline.symm, by simp [hline]⟩)
  by_cases hreturn : c = '\r'
  · exact .inr (.inl ⟨('r', '\r'), by decide, hreturn.symm, by simp [hreturn]⟩)
  by_cases htab : c = '\t'
  · exact .inr (.inl ⟨('t', '\t'), by decide, htab.symm, by simp [htab]⟩)
  simp only [hslash, hline, hreturn, htab, if_false]
  by_cases hprintable : Text.isPrintable c = true
  · exact .inl ⟨hprintable, if_pos hprintable⟩
  rw [if_neg hprintable]
  by_cases hshort : c.toNat < 0x100
  · exact .inr (.inr ⟨('x', 2, 0x100), by decide, hshort, if_pos hshort⟩)
  rw [if_neg hshort]
  by_cases hmiddle : c.toNat < 0x10000
  · exact .inr (.inr ⟨('u', 4, 0x10000), by decide, hmiddle, if_pos hmiddle⟩)
  rw [if_neg hmiddle]
  have hlong : c.toNat < 0x100000000 := c.val.toNat_lt
  exact .inr (.inr ⟨('U', 8, 0x100000000), by decide, hlong, rfl⟩)

-- A header is the symbol itself or has no blanks at all.
theorem escaped_eq_or_unbroken (c : Char) :
    (Text.isPrintable c = true ∧ Text.escaped [c] = [c]) ∨ Unbroken (Text.escaped [c]) := by
  have hletters : ∀ l ∈ letters, Unbroken ['\\', l.1] := by decide
  have hnumbered : ∀ x ∈ numbered, Unbroken ['\\', x.1] := by decide
  rcases escaped_cases c with h | ⟨l, hl, _, h⟩ | ⟨x, hx, _, h⟩
  · exact .inl h
  · exact .inr (h ▸ hletters l hl)
  · refine .inr ?_
    intro d hd
    have hparts : d ∈ ['\\', x.1] ++ Text.hexDigits x.2.1 c.toNat := by
      rw [h] at hd
      exact hd
    cases List.mem_append.mp hparts with
    | inl hd => exact hnumbered x hx d hd
    | inr hd => exact unbroken_hexDigits x.2.1 c.toNat d hd

theorem plain_escaped (c : Char) : Plain (Text.escaped [c]) := by
  cases escaped_eq_or_unbroken c with
  | inl h =>
      rw [h.2]
      intro d hd hblank
      rw [List.mem_singleton] at hd
      subst hd
      exact eq_space_of_isPrintable h.1 hblank
  | inr h => exact h.plain

-- The targets of a cell, each with its number.
def numbers (qs : List State) : List (List Char) := qs.map fun q => (toString q).toList

theorem cell_cases (qs : Ascending State) :
    (qs.toList = [] ∧ (cell qs).toList = ['-']) ∨
      (∃ q, qs.toList = [q] ∧ (cell qs).toList = (toString q).toList) ∨
      (qs.toList ≠ [] ∧
        (cell qs).toList = '\x7b' :: ([','].intercalate (numbers qs.toList) ++ ['\x7d'])) := by
  have hcomma : ",".toList = [','] := by decide
  unfold cell
  split
  case h_1 h => exact .inl ⟨h, by decide⟩
  case h_2 q h => exact .inr (.inl ⟨q, h, rfl⟩)
  case h_3 h _ =>
      refine .inr (.inr ⟨h, ?_⟩)
      simp [numbers, hcomma, Function.comp_def]

theorem mem_cell {qs : Ascending State} {c : Char} (hc : c ∈ (cell qs).toList) :
    c.isDigit = true ∨ c ∈ ['-', ',', '\x7b', '\x7d'] := by
  have hnumber (q : State) (hq : c ∈ (toString q).toList) :
      c.isDigit = true ∨ c ∈ ['-', ',', '\x7b', '\x7d'] := by
    cases Text.mem_toString_int hq with
    | inl hsign => exact .inr (by simp [hsign])
    | inr hdigit => exact .inl hdigit
  rcases cell_cases qs with ⟨_, h⟩ | ⟨q, _, h⟩ | ⟨_, h⟩
  · rw [h] at hc
    exact .inr (by simp_all)
  · exact hnumber q (h ▸ hc)
  · rw [h, List.mem_cons, List.mem_append] at hc
    rcases hc with hopen | hlist | hclose
    · exact .inr (by simp [hopen])
    · cases Text.mem_intercalate hlist with
      | inl hcomma => exact .inr (by simp_all)
      | inr hitem =>
          obtain ⟨s, hs, hmem⟩ := hitem
          obtain ⟨q, _, rfl⟩ := List.mem_map.mp hs
          exact hnumber q hmem
    · exact .inr (by simp_all)

theorem mem_marker {k : Kind} {a : Automaton k} {p : State} {c : Char}
    (hc : c ∈ (marker a p).toList) : c.isDigit = true ∨ c ∈ ['-', '>', '*', ' '] := by
  simp only [marker, String.toList_append, List.mem_append] at hc
  rcases hc with ((harrow | hstar) | hblank) | hnumber
  · split at harrow
    · exact .inr (by grind)
    · exact .inr (by grind)
  · split at hstar
    · exact .inr (by grind)
    · exact .inr (by grind)
  · exact .inr (by grind)
  · cases Text.mem_toString_int hnumber with
    | inl hsign => exact .inr (by simp [hsign])
    | inr hdigit => exact .inl hdigit

theorem unbroken_cell (qs : Ascending State) : Unbroken (cell qs).toList := by
  have hmarks : Unbroken ['-', ',', '\x7b', '\x7d'] := by decide
  intro c hc
  cases mem_cell hc with
  | inl hdigit => exact not_isBlank_of_isDigit hdigit
  | inr hmark => exact hmarks c hmark

theorem plain_marker {k : Kind} (a : Automaton k) (p : State) : Plain (marker a p).toList := by
  have hmarks : Plain ['-', '>', '*', ' '] := by decide
  intro c hc hblank
  cases mem_marker hc with
  | inl hdigit => simp [not_isBlank_of_isDigit hdigit] at hblank
  | inr hmark => exact hmarks c hmark hblank

section Plain

variable {silentLabel : String}

theorem plain_header (h : Plain silentLabel.toList) (l : Label) :
    Plain (header silentLabel l).toList := by
  cases l with
  | none => exact h
  | some c =>
      rw [header, String.toList_ofList]
      exact plain_escaped c

theorem plain_headers (h : Plain silentLabel.toList) (ls : List Label) :
    ∀ t ∈ headers silentLabel ls, Plain t.toList := by
  intro t ht
  cases List.mem_cons.mp ht with
  | inl hfirst =>
      subst hfirst
      decide
  | inr hother =>
      obtain ⟨l, _, rfl⟩ := List.mem_map.mp hother
      exact plain_header h l

theorem plain_row {k : Kind} (a : Automaton k) (ls : List Label) (p : State) :
    ∀ t ∈ row a ls p, Plain t.toList := by
  intro t ht
  cases List.mem_cons.mp ht with
  | inl hfirst => exact hfirst ▸ plain_marker a p
  | inr hother =>
      obtain ⟨l, _, rfl⟩ := List.mem_map.mp hother
      exact (unbroken_cell _).plain

end Plain

-- Widths

-- No text is longer than its column is wide.
def Fits (texts : List String) (widths : List Nat) : Prop :=
  List.Forall₂ (fun t w => t.length ≤ w) texts widths

-- The widths after one more row.
def grow (widths : List Nat) (texts : List String) : List Nat :=
  List.zipWith (fun w t => max w t.length) widths texts

theorem length_grow {ws : List Nat} {ts : List String} (h : ts.length = ws.length) :
    (grow ws ts).length = ws.length := by
  simp [grow, h]

theorem Fits.grow {ws : List Nat} {ts us : List String} (h : Fits ts ws)
    (hlength : us.length = ws.length) : Fits ts (grow ws us) := by
  induction h generalizing us with
  | nil => exact .nil
  | cons hfit _ ih =>
      cases us with
      | nil => simp at hlength
      | cons u us =>
          have hgrown := Nat.le_trans hfit (Nat.le_max_left _ u.length)
          exact .cons hgrown (ih (by simpa using hlength))

theorem fits_grow {ws : List Nat} {ts : List String} (h : ts.length = ws.length) :
    Fits ts (grow ws ts) := by
  induction ts generalizing ws with
  | nil =>
      cases ws with
      | nil => exact .nil
      | cons w ws => simp at h
  | cons t ts ih =>
      cases ws with
      | nil => simp at h
      | cons w ws => exact .cons (Nat.le_max_right _ _) (ih (by simpa using h))

-- What fits goes on to fit, and so does every row that is looked at.
theorem fits_foldl_grow {ws : List Nat} {rows : List (List String)}
    (h : ∀ r ∈ rows, r.length = ws.length) :
    (∀ ts, Fits ts ws → Fits ts (rows.foldl grow ws)) ∧ ∀ r ∈ rows, Fits r (rows.foldl grow ws) := by
  induction rows generalizing ws with
  | nil => exact ⟨fun _ hfits => hfits, nofun⟩
  | cons r rows ih =>
      obtain ⟨hr, hrows⟩ := List.forall_mem_cons.mp h
      have hgrown : ∀ r' ∈ rows, r'.length = (grow ws r).length := by
        intro r' hr'
        rw [length_grow hr, hrows r' hr']
      obtain ⟨hkeep, hall⟩ := ih hgrown
      constructor
      · intro ts hfits
        exact hkeep ts (hfits.grow hr)
      · exact List.forall_mem_cons.mpr ⟨hkeep r (fits_grow hr), hall⟩

theorem fits_widths {headers : List String} {rows : List (List String)}
    (h : ∀ r ∈ rows, r.length = headers.length) :
    Fits headers (widths headers rows) ∧ ∀ r ∈ rows, Fits r (widths headers rows) := by
  have hself : Fits headers (headers.map String.length) := by
    apply List.forall₂_map_right_iff.mpr
    exact List.forall₂_same.mpr fun t _ => Nat.le_refl t.length
  have hlength : ∀ r ∈ rows, r.length = (headers.map String.length).length := by simpa using h
  obtain ⟨hkeep, hall⟩ := fits_foldl_grow hlength
  exact ⟨hkeep headers hself, hall⟩

-- Lines

-- A line as long as its columns are wide.
def joined (widths : List Nat) (texts : List String) : List Char :=
  (" | ".intercalate (List.zipWith pad texts widths)).toList

section Lines

variable {w v : Nat} {ws : List Nat} {t u : String} {ts us : List String}

theorem toList_pad (t : String) (w : Nat) :
    (pad t w).toList = t.toList ++ List.replicate (w - t.length) ' ' := by
  simp [pad]

theorem joined_singleton : joined [w] [t] = (pad t w).toList := by
  simp [joined]

theorem joined_cons_cons : joined (w :: v :: ws) (t :: u :: ts) =
    (pad t w).toList ++ ' ' :: '|' :: ' ' :: joined (v :: ws) (u :: ts) := by
  simp [joined, String.toList_intercalate]

theorem plain_joined (h : ∀ t ∈ ts, Plain t.toList) (ws : List Nat) : Plain (joined ws ts) := by
  intro c hc hblank
  rw [joined, String.toList_intercalate] at hc
  cases Text.mem_intercalate hc with
  | inl hbar =>
      have hplain : Plain " | ".toList := by decide
      exact hplain c hbar hblank
  | inr htext =>
      obtain ⟨s, hs, hmem⟩ := htext
      rw [← List.map_uncurry_zip_eq_zipWith, List.map_map] at hs
      obtain ⟨⟨t, w⟩, htw, rfl⟩ := List.mem_map.mp hs
      have hpad : c ∈ t.toList ++ List.replicate (w - t.length) ' ' := toList_pad t w ▸ hmem
      cases List.mem_append.mp hpad with
      | inl hc => exact h t (List.of_mem_zip htw).1 c hc hblank
      | inr hc => exact List.eq_of_mem_replicate hc

theorem toList_line (ws : List Nat) (ts : List String) :
    (line ws ts).toList = Text.trimEnd (joined ws ts) := by
  rw [line, String.toList_ofList, joined]

theorem exists_trimEnd_append {s : List Char} (h : Plain s) :
    ∃ n, Text.trimEnd s ++ List.replicate n ' ' = s := by
  have hblanks : ∀ c ∈ s.reverse.takeWhile Text.isBlank, c = ' ' := by
    intro c hc
    have hmem : c ∈ s := List.mem_reverse.mp ((List.takeWhile_subset _) hc)
    exact h c hmem (List.all_eq_true.mp List.all_takeWhile c hc)
  have hspaces := List.eq_replicate_iff.mpr ⟨rfl, hblanks⟩
  refine ⟨(s.reverse.takeWhile Text.isBlank).length, ?_⟩
  calc Text.trimEnd s ++ List.replicate (s.reverse.takeWhile Text.isBlank).length ' '
      = (s.reverse.dropWhile Text.isBlank).reverse ++ (s.reverse.takeWhile Text.isBlank).reverse := by
        rw [hspaces, List.reverse_replicate, Text.trimEnd, List.length_replicate]
    _ = s := by rw [← List.reverse_append, List.takeWhile_append_dropWhile, List.reverse_reverse]

-- At its end, a line has lost nothing but spaces.
theorem exists_line_append (h : ∀ t ∈ ts, Plain t.toList) (ws : List Nat) :
    ∃ n, (line ws ts).toList ++ List.replicate n ' ' = joined ws ts := by
  rw [toList_line]
  exact exists_trimEnd_append (plain_joined h ws)

theorem plain_line (h : ∀ t ∈ ts, Plain t.toList) (ws : List Nat) : Plain (line ws ts).toList := by
  obtain ⟨n, hline⟩ := exists_line_append h ws
  intro c hc
  exact plain_joined h ws c (hline ▸ List.mem_append_left _ hc)

end Lines

-- The whole table

variable {j k : Kind} {a : Automaton j} {b : Automaton k} {silentLabel : String}

-- There is a column for each label of a move.
theorem mem_columns {l : Label} : l ∈ columns a ↔ ∃ e ∈ a.moves.edges, e.label = l := by
  have halphabet (c : Char) : c ∈ a.alphabet ↔ ∃ e ∈ a.moves.edges, e.label = some c :=
    MoveRelation.mem_symbols
  cases l with
  | none =>
      rw [← MoveRelation.any_written_eq_true_iff, columns]
      split <;> simp_all
  | some c =>
      rw [← halphabet, columns]
      split <;> simp

-- How wide the columns of the table are.
def columnWidths (a : Automaton k) (silentLabel : String) : List Nat :=
  widths (headers silentLabel (columns a)) (a.states.map (row a (columns a)))

theorem fits_columnWidths (a : Automaton k) (silentLabel : String) :
    Fits (headers silentLabel (columns a)) (columnWidths a silentLabel) ∧
      ∀ p ∈ a.states, Fits (row a (columns a) p) (columnWidths a silentLabel) := by
  have hlength : ∀ r ∈ a.states.map (row a (columns a)),
      r.length = (headers silentLabel (columns a)).length := by
    intro r hr
    obtain ⟨p, _, rfl⟩ := List.mem_map.mp hr
    simp [row, headers]
  obtain ⟨hheaders, hrows⟩ := fits_widths hlength
  exact ⟨hheaders, fun p hp => hrows _ (List.mem_map_of_mem hp)⟩

theorem lines_eq (a : Automaton k) (silentLabel : String) :
    lines a silentLabel =
      let first := line (columnWidths a silentLabel) (headers silentLabel (columns a))
      first :: String.ofList (List.replicate first.length '-') ::
        a.states.map fun p => line (columnWidths a silentLabel) (row a (columns a) p) := by
  simp only [lines, List.map_map]
  rfl

theorem plain_of_mem_lines (h : Plain silentLabel.toList) {l : String}
    (hl : l ∈ lines a silentLabel) : Plain l.toList := by
  simp only [lines_eq, List.mem_cons, List.mem_map] at hl
  rcases hl with rfl | rfl | ⟨p, _, rfl⟩
  · exact plain_line (plain_headers h _) _
  · rw [String.toList_ofList]
    intro c hc hblank
    rw [List.eq_of_mem_replicate hc] at hblank
    exact absurd hblank (by decide)
  · exact plain_line (plain_row a _ p) _

-- No line holds the end of another one.
theorem splitOn_render (hplain : Plain silentLabel.toList) (a : Automaton k) :
    (render a silentLabel).toList.splitOn '\n' = (lines a silentLabel).map String.toList := by
  have hbreak : "\n".toList = ['\n'] := by decide
  rw [render, String.toList_intercalate, hbreak]
  apply List.splitOn_intercalate
  · intro s hs
    obtain ⟨l, hl, rfl⟩ := List.mem_map.mp hs
    exact (plain_of_mem_lines hplain hl).not_mem_newline
  · simp [lines]

theorem lines_inj (hplain : Plain silentLabel.toList)
    (h : render a silentLabel = render b silentLabel) : lines a silentLabel = lines b silentLabel := by
  have hmap : (lines a silentLabel).map String.toList = (lines b silentLabel).map String.toList := by
    rw [← splitOn_render hplain, ← splitOn_render hplain, h]
  exact (List.map_inj_right fun _ _ => String.toList_inj.mp).mp hmap

end FiniteAutomata.Table
