import FiniteAutomata.Proofs.TableText

/-!
Where the columns of a table are. There are offsets at which the columns of every line begin, with
a bar between blanks before all but the first one (`Table.Aligned`). They come from the widths of
the columns, which nothing in a column exceeds (`Table.aligned_line`). Blanks at the end of a line
are dropped, but a line is never longer than the table is wide. So the table has a line for its
headers, one of dashes and one for each state, all with the same columns
(`Table.exists_aligned`).
-/

namespace FiniteAutomata.Table

-- Columns of a line

-- The part of a text from one position to another.
def slice (s : List Char) (i j : Nat) : List Char := (s.take j).drop i

-- A line with blanks behind it, up to a width.
def padded (s : List Char) (width : Nat) : List Char := s ++ List.replicate (width - s.length) ' '

-- Where columns begin and end. Three characters before the next one begins, a column ends.
def spans (width : Nat) : List Nat → List (Nat × Nat)
  | [] => []
  | [i] => [(i, width)]
  | i :: j :: offsets => (i, j - 3) :: spans width (j :: offsets)

-- A line has these texts in columns with these offsets: padded to the width, it has in each column
-- the text and then spaces, and a bar before each column but the first one.
structure Aligned (offsets : List Nat) (width : Nat) (s : List Char) (texts : List String) :
    Prop where
  length_le : s.length ≤ width
  slices : List.Forall₂
    (fun (i, j) t => ∃ n, slice (padded s width) i j = t.toList ++ List.replicate n ' ')
    (spans width offsets) texts
  bars : ∀ i ∈ offsets.tail, slice (padded s width) (i - 3) i = " | ".toList

-- Where columns of these widths begin when the first one begins at `start`.
def offsetsFrom (start : Nat) : List Nat → List Nat
  | [] => []
  | w :: ws => start :: offsetsFrom (start + w + 3) ws

-- Where the last of these columns ends.
def endFrom (start : Nat) : List Nat → Nat
  | [] => start
  | [w] => start + w
  | w :: v :: ws => endFrom (start + w + 3) (v :: ws)

variable {ws : List Nat} {ts : List String}

theorem head?_offsetsFrom {t : String} (hfits : Fits (t :: ts) ws) (start : Nat) :
    (offsetsFrom start ws).head? = some start := by
  cases hfits with
  | cons _ _ => rfl

theorem slice_append (before s after : List Char) :
    slice (before ++ (s ++ after)) before.length (before.length + s.length) = s := by
  rw [slice, ← List.append_assoc, ← List.length_append, List.take_left, List.drop_left]

-- The columns of a line of full length that stands behind other text.
theorem slices_joined (hfits : Fits ts ws) {s before : List Char}
    (hs : s = before ++ joined ws ts) :
    s.length = endFrom before.length ws ∧
      List.Forall₂ (fun (i, j) t => ∃ n, slice s i j = t.toList ++ List.replicate n ' ')
        (spans (endFrom before.length ws) (offsetsFrom before.length ws)) ts ∧
      ∀ i ∈ (offsetsFrom before.length ws).tail, slice s (i - 3) i = " | ".toList := by
  induction hfits generalizing before with
  | nil =>
      refine ⟨?_, .nil, nofun⟩
      rw [hs]
      exact congrArg List.length (List.append_nil before)
  | @cons t w ts ws hw hfits ih =>
      have hlength : (pad t w).toList.length = w := length_pad hw
      cases hfits with
      | nil =>
          have hslice := slice_append before (pad t w).toList []
          rw [joined_singleton] at hs
          rw [List.append_nil, ← hs, hlength] at hslice
          refine ⟨?_, .cons ⟨w - t.length, hslice.trans (toList_pad t w)⟩ .nil, nofun⟩
          rw [hs, List.length_append, hlength, endFrom]
      | @cons u v us vs hv hrest =>
          let next := before ++ (pad t w).toList ++ " | ".toList
          have hnext : next.length = before.length + w + 3 := by
            simp only [next, List.length_append, hlength]
            rfl
          have hsplit : s = next ++ joined (v :: vs) (u :: us) := by
            rw [hs, joined_cons_cons]
            simp [next]
          obtain ⟨hend, hslices, hbars⟩ := ih hsplit
          rw [hnext] at hend hslices hbars
          have hfirst : slice s before.length (before.length + w) = (pad t w).toList := by
            have hslice := slice_append before (pad t w).toList
              (" | ".toList ++ joined (v :: vs) (u :: us))
            rwa [hlength, ← List.append_assoc, ← List.append_assoc, ← hsplit] at hslice
          have hbar : slice s (before.length + w) (before.length + w + 3) = " | ".toList := by
            have hslice := slice_append (before ++ (pad t w).toList) " | ".toList
              (joined (v :: vs) (u :: us))
            rwa [List.length_append, hlength, ← List.append_assoc, ← hsplit] at hslice
          refine ⟨hend, ?_, ?_⟩
          · exact .cons ⟨w - t.length, hfirst.trans (toList_pad t w)⟩ hslices
          · exact List.forall_mem_cons.mpr ⟨hbar, hbars⟩

-- The columns are still there when the blanks at the end of the line are put back.
theorem aligned_line (hfits : Fits ts ws) (hplain : ∀ t ∈ ts, Plain t.toList) :
    Aligned (offsetsFrom 0 ws) (endFrom 0 ws) (line ws ts).toList ts := by
  obtain ⟨n, hline⟩ := exists_line_append hplain ws
  obtain ⟨hlength, hslices, hbars⟩ := slices_joined hfits (List.nil_append (joined ws ts)).symm
  rw [← hline, List.length_append, List.length_replicate, List.length_nil] at hlength
  have hpadded : padded (line ws ts).toList (endFrom 0 ws) = joined ws ts := by
    rw [padded, ← hlength, Nat.add_sub_cancel_left, hline]
  constructor
  case length_le => omega
  case slices =>
      rw [hpadded]
      exact hslices
  case bars =>
      rw [hpadded]
      exact hbars

-- Cells

-- A cell tells which states a state has moves to: a dash stands for none, a single one is given by
-- its number, and several are listed in ascending order between braces.
structure Tells (targets : Ascending State) (text : String) : Prop where
  dash : text = "-" ↔ ∀ q, q ∉ targets
  single : ∀ q, text = toString q ↔ ∀ r, r ∈ targets ↔ r = q
  several : (∃ p ∈ targets, ∃ q ∈ targets, p ≠ q) → ∃ qs : List State,
    qs.Pairwise (· < ·) ∧ (∀ q, q ∈ qs ↔ q ∈ targets) ∧
      text = "\x7b" ++ ",".intercalate (qs.map toString) ++ "\x7d"

theorem tells_cell (targets : Ascending State) : Tells targets (cell targets) where
  dash := by
    have hempty : cell ∅ = "-" := rfl
    rw [← hempty]
    constructor
    · intro h q
      rw [cell_inj h]
      exact Ascending.not_mem_empty
    · intro h
      exact congrArg cell (Ascending.ext fun q => by simp [h q])
  single q := by
    have hsingle : cell (.singleton q) = toString q := rfl
    rw [← hsingle]
    constructor
    · intro h r
      rw [cell_inj h]
      exact Ascending.mem_singleton
    · intro h
      exact congrArg cell (Ascending.ext fun r => by rw [h r, Ascending.mem_singleton])
  several h := by
    obtain ⟨p, hp, q, hq, hne⟩ := h
    refine ⟨targets.toList, ?_, fun _ => Ascending.mem_toList, ?_⟩
    · exact targets.ascending.imp Int.compare_eq_lt.mp
    · unfold cell
      split
      case h_1 hnil => simp [← Ascending.mem_toList, hnil] at hp
      case h_2 r hr =>
          rw [← Ascending.mem_toList, hr, List.mem_singleton] at hp hq
          exact absurd (hp.trans hq.symm) hne
      case h_3 => rfl

-- Tables

variable {k : Kind} {a : Automaton k} {silentLabel : String}

-- The labels that have columns: the silent one if it is written on a move, then the alphabet.
structure Heads (a : Automaton k) (labels : List Label) : Prop where
  ascend : labels.Pairwise Label.Precedes
  mem_none : none ∈ labels ↔ ∃ p q, q ∈ a.moves.targets p none
  mem_some : ∀ c, some c ∈ labels ↔ c ∈ a.alphabet

theorem heads_columns (a : Automaton k) : Heads a (columns a) where
  ascend := by
    rw [columns, List.pairwise_append]
    refine ⟨?_, ?_, ?_⟩
    · split <;> simp
    · apply List.Pairwise.map
      · exact fun c d hcd => compareOfLessAndEq_eq_lt.mp hcd
      · exact a.alphabet.ascending
    · intro l hl m hm
      obtain ⟨c, _, rfl⟩ := List.mem_map.mp hm
      split at hl
      · rw [List.mem_singleton.mp hl]
        trivial
      · exact absurd hl List.not_mem_nil
  mem_none := by
    rw [mem_columns]
    constructor
    · intro h
      obtain ⟨⟨p, l, q⟩, he, rfl⟩ := h
      exact ⟨p, q, MoveRelation.mem_targets.mpr he⟩
    · intro h
      obtain ⟨p, q, hq⟩ := h
      exact ⟨_, MoveRelation.mem_targets.mp hq, rfl⟩
  mem_some c := mem_columns.trans MoveRelation.mem_symbols.symm

-- A table has a line for the headers, one of dashes and one for each state, and the lines but for
-- the dashes have the same columns, one for the states and one for each label.
theorem exists_aligned (hplain : Plain silentLabel.toList) (a : Automaton k) :
    ∃ labels offsets width first rows,
      (render a silentLabel).toList.splitOn '\n' =
        first :: List.replicate first.length '-' :: rows ∧
      rows.length = a.size ∧ Heads a labels ∧ offsets.head? = some 0 ∧
      Aligned offsets width first ("State" :: labels.map (header silentLabel)) ∧
      ∀ p : Nat, p < a.size → ∃ row cells, rows[p]? = some row ∧
        Aligned offsets width row (marker a p :: cells) ∧
        List.Forall₂ (fun l t => Tells (a.moves.targets p l) t) labels cells := by
  obtain ⟨hheaders, hrows⟩ := fits_columnWidths a silentLabel
  let ws := columnWidths a silentLabel
  refine ⟨columns a, offsetsFrom 0 ws, endFrom 0 ws, (line ws (headers silentLabel (columns a))).toList,
    a.states.map fun p => (line ws (row a (columns a) p)).toList, ?_, ?_, heads_columns a,
    head?_offsetsFrom hheaders 0, ?_, ?_⟩
  · rw [splitOn_render hplain, lines_eq]
    simp only [List.map_cons, String.toList_ofList, List.map_map, String.length_toList, ws]
    rfl
  · simp [Automaton.states]
  · exact aligned_line hheaders (plain_headers hplain _)
  · intro p hp
    have hmem : (p : State) ∈ a.states := Automaton.mem_states.mpr ⟨Int.natCast_nonneg p, Int.ofNat_lt.mpr hp⟩
    refine ⟨(line ws (row a (columns a) p)).toList,
      (columns a).map fun l => cell (a.moves.targets p l), ?_, ?_, ?_⟩
    · simp [Automaton.states, hp]
    · exact aligned_line (hrows p hmem) (plain_row a _ p)
    · apply List.forall₂_map_right_iff.mpr
      exact List.forall₂_same.mpr fun l _ => tells_cell _

-- The last column is headed by a bar and as wide as a cell below it; the first label has a space.
theorem exists_aligned_bar :
    let a : NFA := ((((Automaton.blank 2).addMove ⟨0, some '|', 1⟩).addMove ⟨0, none, 1⟩).addMove
      ⟨0, some '|', 0⟩).addMove ⟨1, some '\n', 0⟩
    Plain "no symbol".toList ∧ ∃ labels offsets width,
      Aligned offsets width "State | no symbol | \\n | |".toList
        ("State" :: labels.map (header "no symbol")) ∧
      ∃ cells, Aligned offsets width "->  0 | 1         | -  | \x7b0,1\x7d".toList
          (marker a 0 :: cells) ∧
        List.Forall₂ (fun l t => Tells (a.moves.targets 0 l) t) labels cells := by
  intro a
  have hplain : Plain "no symbol".toList := by decide
  have htext : (render a "no symbol").toList.splitOn '\n' =
      ["State | no symbol | \\n | |", "--------------------------",
        "->  0 | 1         | -  | \x7b0,1\x7d", "    1 | -         | 0  | -"].map String.toList := by
    rw [splitOn_render hplain]
    decide +kernel
  obtain ⟨labels, offsets, width, first, rows, hlines, -, -, -, hfirst, hrows⟩ :=
    exists_aligned hplain a
  obtain ⟨row, cells, hrow, haligned, hcells⟩ := hrows 0 (by decide)
  rw [htext, List.map_cons, List.cons.injEq, List.map_cons, List.cons.injEq] at hlines
  obtain ⟨rfl, -, rfl⟩ := hlines
  cases hrow
  exact ⟨hplain, labels, offsets, width, hfirst, cells, haligned, hcells⟩

end FiniteAutomata.Table
