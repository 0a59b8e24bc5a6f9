import FiniteAutomata.Proofs.Reachable
import FiniteAutomata.Proofs.TableLayout

/-!
A table shows all of an automaton. A symbol may head its column with a bar or a space, so the
columns are found in the rows below: no entry holds a bar, and a row tells the widths of all columns
but the last (`Table.entries_inj`). The headers are then cut from their line at these widths
(`Table.headers_inj`). What was written in a header or a cell is known from it (`Table.header_inj`,
`Table.cell_inj`). Hence automata with the same table have as many states, the same final states and
the same moves (`Table.parts_eq_of_render_eq`).
-/

namespace FiniteAutomata.Table

-- Spaces at the end

-- A text that does not end with spaces, unless it is one space.
def Solid (s : List Char) : Prop := s ≠ [] ∧ ∀ t, s = t ++ [' '] → t = []

theorem solid_singleton (c : Char) : Solid [c] := by
  refine ⟨List.cons_ne_nil c [], ?_⟩
  intro t h
  have hlength := congrArg List.length h
  simp only [List.length_append, List.length_cons, List.length_nil] at hlength
  exact List.eq_nil_of_length_eq_zero (by omega)

theorem solid_append (s : List Char) {t : List Char} (ht : t ≠ []) (hblank : Unbroken t) :
    Solid (s ++ t) := by
  refine ⟨List.append_ne_nil_of_right_ne_nil s ht, ?_⟩
  intro u h
  have hlast := congrArg List.getLast? h
  rw [List.getLast?_append_of_ne_nil s ht, List.getLast?_concat] at hlast
  exact absurd (hblank ' ' (List.mem_of_getLast? hlast)) (by decide)

theorem Solid.eq_of_append {s t : List Char} (hs : Solid s) (ht : Solid t) {n : Nat}
    (h : s = t ++ List.replicate n ' ') : s = t := by
  cases n with
  | zero => simpa using h
  | succ n =>
      rw [List.replicate_succ', ← List.append_assoc] at h
      exact absurd (List.append_eq_nil_iff.mp (hs.2 _ h)).1 ht.1

-- Spaces behind a text do not hide where it ends.
theorem Solid.append_inj {s t : List Char} (hs : Solid s) (ht : Solid t) {m n : Nat}
    (h : s ++ List.replicate m ' ' = t ++ List.replicate n ' ') : s = t := by
  by_cases hmn : m ≤ n
  · have hsplit : List.replicate n ' ' = List.replicate (n - m) ' ' ++ List.replicate m ' ' := by
      rw [List.replicate_append_replicate, Nat.sub_add_cancel hmn]
    rw [hsplit, ← List.append_assoc] at h
    exact hs.eq_of_append ht (List.append_cancel_right h)
  · have hsplit : List.replicate m ' ' = List.replicate (m - n) ' ' ++ List.replicate n ' ' := by
      rw [List.replicate_append_replicate, Nat.sub_add_cancel (by omega)]
    rw [hsplit, ← List.append_assoc] at h
    exact (ht.eq_of_append hs (List.append_cancel_right h).symm).symm

-- Headers

theorem digitChar_inj {m n : Nat} (hm : m < 16) (hn : n < 16)
    (h : Nat.digitChar m = Nat.digitChar n) : m = n := by
  have hdigits : ∀ m < 16, ∀ n < 16, Nat.digitChar m = Nat.digitChar n → m = n := by decide
  exact hdigits m hm n hn h

theorem hexDigits_inj {width m n : Nat} (hm : m < 16 ^ width) (hn : n < 16 ^ width)
    (h : Text.hexDigits width m = Text.hexDigits width n) : m = n := by
  induction width generalizing m n with
  | zero =>
      rw [Nat.pow_zero] at hm hn
      omega
  | succ width ih =>
      rw [Nat.pow_succ] at hm hn
      obtain ⟨hfirst, hlast⟩ := List.append_inj' h rfl
      have hquotient : m / 16 = n / 16 :=
        ih (Nat.div_lt_of_lt_mul (by omega)) (Nat.div_lt_of_lt_mul (by omega)) hfirst
      have hremainder : m % 16 = n % 16 :=
        digitChar_inj (by omega) (by omega) (List.singleton_inj.mp hlast)
      omega

-- The second character of an escape tells of which form it is.
theorem escaped_inj {c d : Char} (h : Text.escaped [c] = Text.escaped [d]) : c = d := by
  have hletters : ∀ l ∈ letters, ∀ m ∈ letters, l.1 = m.1 → l.2 = m.2 := by decide
  have hnumbered : ∀ x ∈ numbered, ∀ y ∈ numbered, x.1 = y.1 → x.2 = y.2 := by decide
  have hbound : ∀ x ∈ numbered, x.2.2 = 16 ^ x.2.1 := by decide
  have hapart : ∀ l ∈ letters, ∀ x ∈ numbered, l.1 ≠ x.1 := by decide
  rcases escaped_cases c with ⟨_, hc⟩ | ⟨l, hl, rfl, hc⟩ | ⟨x, hx, hcx, hc⟩
  · rcases escaped_cases d with ⟨_, hd⟩ | ⟨m, _, rfl, hd⟩ | ⟨y, _, _, hd⟩
    · rw [hc, hd] at h
      exact List.singleton_inj.mp h
    · simp [hc, hd] at h
    · simp [hc, hd] at h
  · rcases escaped_cases d with ⟨_, hd⟩ | ⟨m, hm, rfl, hd⟩ | ⟨y, hy, _, hd⟩
    · simp [hc, hd] at h
    · rw [hc, hd] at h
      exact hletters l hl m hm (by simpa using h)
    · rw [hc, hd] at h
      exact absurd (List.cons.inj (List.cons.inj h).2).1 (hapart l hl y hy)
  · rcases escaped_cases d with ⟨_, hd⟩ | ⟨m, hm, rfl, hd⟩ | ⟨y, hy, hdy, hd⟩
    · simp [hc, hd] at h
    · rw [hc, hd] at h
      exact absurd (List.cons.inj (List.cons.inj h).2).1.symm (hapart m hm x hx)
    · rw [hc, hd] at h
      simp only [List.cons.injEq, true_and] at h
      have hwidth := hnumbered x hx y hy h.1
      rw [← hwidth] at h hdy
      rw [hbound x hx] at hcx hdy
      exact Char.toNat_inj.mp (hexDigits_inj hcx hdy h.2)

theorem escaped_ne_nil (c : Char) : Text.escaped [c] ≠ [] := by
  rcases escaped_cases c with ⟨_, h⟩ | ⟨_, _, _, h⟩ | ⟨_, _, _, h⟩ <;> simp [h]

theorem solid_escaped (c : Char) : Solid (Text.escaped [c]) := by
  cases escaped_eq_or_unbroken c with
  | inl h =>
      rw [h.2]
      exact solid_singleton c
  | inr h => exact solid_append [] (escaped_ne_nil c) h

-- The silent label can be told from blanks and from all other headers.
structure Clear (silentLabel : String) (cs : Ascending Char) : Prop where
  ne_empty : silentLabel ≠ ""
  unbroken : Unbroken silentLabel.toList
  ne_header : ∀ c ∈ cs.toList, silentLabel ≠ header silentLabel (some c)

instance (silentLabel : String) (cs : Ascending Char) : Decidable (Clear silentLabel cs) :=
  haveI : Decidable (∀ c ∈ cs.toList, silentLabel ≠ header silentLabel (some c)) :=
    List.decidableBAll _ _
  decidable_of_iff
    (silentLabel ≠ "" ∧ Unbroken silentLabel.toList ∧
      ∀ c ∈ cs.toList, silentLabel ≠ header silentLabel (some c))
    ⟨fun h => ⟨h.1, h.2.1, h.2.2⟩, fun h => ⟨h.ne_empty, h.unbroken, h.ne_header⟩⟩

variable {silentLabel : String} {cs : Ascending Char}

theorem Clear.solid_header (h : Clear silentLabel cs) (l : Label) :
    Solid (header silentLabel l).toList := by
  cases l with
  | none =>
      have hne : silentLabel.toList ≠ [] := by simpa using h.ne_empty
      exact solid_append [] hne h.unbroken
  | some c =>
      rw [header, String.toList_ofList]
      exact solid_escaped c

theorem header_inj {l m : Label} (hl : ∀ c, l = some c → silentLabel ≠ header silentLabel (some c))
    (hm : ∀ c, m = some c → silentLabel ≠ header silentLabel (some c))
    (h : header silentLabel l = header silentLabel m) : l = m := by
  cases l with
  | none =>
      cases m with
      | none => rfl
      | some d => exact absurd h (hm d rfl)
  | some c =>
      cases m with
      | none => exact absurd h.symm (hl c rfl)
      | some d => exact congrArg some (escaped_inj (String.ofList_injective h))

-- Cells

theorem bar_not_mem_cell (qs : Ascending State) : '|' ∉ (cell qs).toList := by
  intro h
  exact absurd (mem_cell h) (by decide)

theorem bar_not_mem_marker {k : Kind} (a : Automaton k) (p : State) :
    '|' ∉ (marker a p).toList := by
  intro h
  exact absurd (mem_marker h) (by decide)

theorem toString_ne_nil (q : State) : (toString q).toList ≠ [] := by
  rw [Json.toList_toString]
  exact List.append_ne_nil_of_right_ne_nil _ Nat.toDigits_ne_nil

theorem solid_cell (qs : Ascending State) : Solid (cell qs).toList := by
  apply solid_append [] _ (unbroken_cell qs)
  rcases cell_cases qs with ⟨_, h⟩ | ⟨q, _, h⟩ | ⟨_, h⟩
  · simp [h]
  · exact h ▸ toString_ne_nil q
  · simp [h]

theorem solid_marker {k : Kind} (a : Automaton k) (p : State) : Solid (marker a p).toList := by
  rw [marker, String.toList_append]
  apply solid_append _ (toString_ne_nil p)
  intro c hc
  cases Text.mem_toString_int hc with
  | inl hsign => exact hsign ▸ by decide
  | inr hdigit => exact not_isBlank_of_isDigit hdigit

theorem isFinal_eq_of_marker_eq {j k : Kind} {a : Automaton j} {b : Automaton k} {p : State}
    (h : marker a p = marker b p) : a.isFinal p = b.isFinal p := by
  have htext := congrArg String.toList h
  simp only [marker, String.toList_append, List.append_assoc] at htext
  have hstar := congrArg List.head? (List.append_cancel_left htext)
  by_cases ha : a.isFinal p
  · by_cases hb : b.isFinal p
    · rw [ha, hb]
    · simp [ha, hb] at hstar
  · by_cases hb : b.isFinal p
    · simp [ha, hb] at hstar
    · simp [ha, hb]

theorem toString_ne_sign (q : State) : (toString q).toList ≠ ['-'] := by
  intro h
  obtain ⟨d, ds, hdigits, hd⟩ := Json.exists_toDigits_eq_cons q.natAbs
  have hmem : d ∈ (toString q).toList := by
    rw [Json.toList_toString, hdigits]
    exact List.mem_append_right _ List.mem_cons_self
  rw [h, List.mem_singleton] at hmem
  exact absurd (hmem ▸ hd) (by decide)

theorem toString_ne_brace (q : State) (s : List Char) : (toString q).toList ≠ '\x7b' :: s := by
  intro h
  have hmem : '\x7b' ∈ (toString q).toList := h ▸ List.mem_cons_self
  exact Text.not_mem_toString_int (by decide) (by decide) hmem

theorem numbers_inj {ps qs : List State} (hps : ps ≠ []) (hqs : qs ≠ [])
    (h : [','].intercalate (numbers ps) = [','].intercalate (numbers qs)) : ps = qs := by
  have hcomma (ps : List State) : ∀ s ∈ numbers ps, ',' ∉ s := by
    intro s hs
    obtain ⟨p, _, rfl⟩ := List.mem_map.mp hs
    exact Text.not_mem_toString_int (by decide) (by decide)
  have hmap : numbers ps = numbers qs :=
    Text.intercalate_inj (hcomma ps) (hcomma qs) (by simpa [numbers] using hps)
      (by simpa [numbers] using hqs) h
  refine (List.map_inj_right ?_).mp hmap
  intro p q hpq
  exact Text.toString_int_inj.mp (String.toList_inj.mp hpq)

theorem cell_inj {qs rs : Ascending State} (h : cell qs = cell rs) : qs = rs := by
  have htext := congrArg String.toList h
  have hlists : qs.toList = rs.toList := by
    rcases cell_cases qs with ⟨hqs, hq⟩ | ⟨q, hqs, hq⟩ | ⟨hqs, hq⟩
    · rcases cell_cases rs with ⟨hrs, hr⟩ | ⟨r, hrs, hr⟩ | ⟨_, hr⟩
      · rw [hqs, hrs]
      · exact absurd (hr.symm.trans (htext.symm.trans hq)) (toString_ne_sign r)
      · simp [hq, hr] at htext
    · rcases cell_cases rs with ⟨_, hr⟩ | ⟨r, hrs, hr⟩ | ⟨_, hr⟩
      · exact absurd (hq.symm.trans (htext.trans hr)) (toString_ne_sign q)
      · have hnumber : q = r :=
          Text.toString_int_inj.mp (String.toList_inj.mp (hq.symm.trans (htext.trans hr)))
        rw [hqs, hrs, hnumber]
      · exact absurd (hq.symm.trans (htext.trans hr)) (toString_ne_brace q _)
    · rcases cell_cases rs with ⟨_, hr⟩ | ⟨r, _, hr⟩ | ⟨hrs, hr⟩
      · simp [hq, hr] at htext
      · exact absurd (hr.symm.trans (htext.symm.trans hq)) (toString_ne_brace r _)
      · rw [hq, hr, List.cons.injEq] at htext
        exact numbers_inj hqs hrs (List.append_cancel_right htext.2)
  apply Ascending.ext
  intro q
  rw [← Ascending.mem_toList, hlists, Ascending.mem_toList]

-- Columns

variable {w v : Nat} {ws vs : List Nat} {t u : String} {ts us : List String}

theorem length_pad (h : t.length ≤ w) : (pad t w).toList.length = w := by
  rw [toList_pad, List.length_append, List.length_replicate, String.length_toList]
  omega

theorem bar_not_mem_pad (h : '|' ∉ t.toList) (w : Nat) : '|' ∉ (pad t w).toList := by
  rw [toList_pad, List.mem_append]
  intro hbar
  cases hbar with
  | inl hbar => exact h hbar
  | inr hbar => exact absurd (List.eq_of_mem_replicate hbar) (by decide)

theorem eq_of_pad_append_eq (ht : Solid t.toList) (hu : Solid u.toList) {m n : Nat}
    (h : (pad t w).toList ++ List.replicate m ' ' = (pad u v).toList ++ List.replicate n ' ') :
    t = u := by
  rw [toList_pad, toList_pad, List.append_assoc, List.append_assoc,
    List.replicate_append_replicate, List.replicate_append_replicate] at h
  exact String.toList_inj.mp (ht.append_inj hu h)

theorem eq_of_pad_eq (ht : Solid t.toList) (hu : Solid u.toList)
    (h : (pad t w).toList = (pad u v).toList) : t = u := by
  have hnone : (pad t w).toList ++ List.replicate 0 ' ' = (pad u v).toList ++ List.replicate 0 ' ' :=
    congrArg (· ++ []) h
  exact eq_of_pad_append_eq ht hu hnone

-- What stands in a column below its header.
structure Entry (t : String) : Prop where
  solid : Solid t.toList
  not_mem_bar : '|' ∉ t.toList

-- A bar tells that there are more columns.
theorem joined_singleton_ne {v' : Nat} {u' : String} (h : '|' ∉ t.toList) (w m : Nat)
    (s : List Char) :
    joined [w] [t] ++ List.replicate m ' ' ≠ joined (v :: v' :: vs) (u :: u' :: us) ++ s := by
  intro heq
  have hbar : '|' ∈ joined [w] [t] ++ List.replicate m ' ' := by
    rw [heq, joined_cons_cons]
    simp
  rw [joined_singleton, List.mem_append] at hbar
  cases hbar with
  | inl hbar => exact bar_not_mem_pad h w hbar
  | inr hbar => exact absurd (List.eq_of_mem_replicate hbar) (by decide)

-- The first of several columns ends at the first bar.
theorem joined_cons_cons_inj {w' v' : Nat} {t' u' : String} {r s : List Char}
    (ht : '|' ∉ t.toList) (hu : '|' ∉ u.toList)
    (h : joined (w :: w' :: ws) (t :: t' :: ts) ++ r = joined (v :: v' :: vs) (u :: u' :: us) ++ s) :
    (pad t w).toList = (pad u v).toList ∧
      joined (w' :: ws) (t' :: ts) ++ r = joined (v' :: vs) (u' :: us) ++ s := by
  have hspace (t : String) (w : Nat) (ht : '|' ∉ t.toList) : '|' ∉ (pad t w).toList ++ [' '] := by
    simpa using bar_not_mem_pad ht w
  have hsplit (t t' : String) (w w' : Nat) (ws : List Nat) (ts : List String) (r : List Char) :
      joined (w :: w' :: ws) (t :: t' :: ts) ++ r =
        (pad t w).toList ++ [' '] ++ '|' :: ' ' :: (joined (w' :: ws) (t' :: ts) ++ r) := by
    simp [joined_cons_cons]
  rw [hsplit, hsplit] at h
  obtain ⟨hpads, hrest⟩ := Text.append_mark_inj (hspace t w ht) (hspace u v hu) h
  exact ⟨List.append_cancel_right hpads, (List.cons.inj hrest).2⟩

-- Entries and, but for the last one, the widths of their columns are known from a row.
theorem entries_inj (hfits : Fits ts ws) (hfits' : Fits us vs) (hne : ts ≠ []) (hne' : us ≠ [])
    (hts : ∀ t ∈ ts, Entry t) (hus : ∀ u ∈ us, Entry u) {m n : Nat}
    (h : joined ws ts ++ List.replicate m ' ' = joined vs us ++ List.replicate n ' ') :
    ts = us ∧ ws.dropLast = vs.dropLast := by
  induction hfits generalizing us vs with
  | nil => exact absurd rfl hne
  | @cons t w ts ws hw hfits ih =>
      cases hfits' with
      | nil => exact absurd rfl hne'
      | @cons u v us vs hv hfits' =>
          obtain ⟨ht, hts⟩ := List.forall_mem_cons.mp hts
          obtain ⟨hu, hus⟩ := List.forall_mem_cons.mp hus
          cases hfits with
          | nil =>
              cases hfits' with
              | nil =>
                  rw [joined_singleton, joined_singleton] at h
                  exact ⟨by rw [eq_of_pad_append_eq ht.solid hu.solid h], rfl⟩
              | cons _ _ => exact absurd h (joined_singleton_ne ht.not_mem_bar w m _)
          | cons hw' hrest =>
              cases hfits' with
              | nil => exact absurd h.symm (joined_singleton_ne hu.not_mem_bar v n _)
              | cons hv' hrest' =>
                  obtain ⟨hpads, h⟩ := joined_cons_cons_inj ht.not_mem_bar hu.not_mem_bar h
                  obtain ⟨htail, hwidths⟩ := ih (.cons hv' hrest') (List.cons_ne_nil _ _)
                    (List.cons_ne_nil _ _) hts hus h
                  have hwidth : w = v := by
                    have hlength := congrArg List.length hpads
                    rwa [length_pad hw, length_pad hv] at hlength
                  rw [eq_of_pad_eq ht.solid hu.solid hpads, htail, hwidth]
                  exact ⟨rfl, congrArg (v :: ·) hwidths⟩

-- Headers may hold bars; they are known from a line with columns of known widths.
theorem headers_inj (hfits : Fits ts ws) (hfits' : Fits us vs) (hlength : ts.length = us.length)
    (hwidths : ws.dropLast = vs.dropLast) (hts : ∀ t ∈ ts, Solid t.toList)
    (hus : ∀ u ∈ us, Solid u.toList) {m n : Nat}
    (h : joined ws ts ++ List.replicate m ' ' = joined vs us ++ List.replicate n ' ') : ts = us := by
  induction hfits generalizing us vs with
  | nil =>
      cases hfits' with
      | nil => rfl
      | cons _ _ => simp at hlength
  | @cons t w ts ws hw hfits ih =>
      cases hfits' with
      | nil => simp at hlength
      | @cons u v us vs hv hfits' =>
          obtain ⟨ht, hts⟩ := List.forall_mem_cons.mp hts
          obtain ⟨hu, hus⟩ := List.forall_mem_cons.mp hus
          cases hfits with
          | nil =>
              cases hfits' with
              | nil =>
                  rw [joined_singleton, joined_singleton] at h
                  rw [eq_of_pad_append_eq ht hu h]
              | cons _ _ => simp at hlength
          | cons hw' hrest =>
              cases hfits' with
              | nil => simp at hlength
              | cons hv' hrest' =>
                  simp only [List.dropLast_cons_cons, List.cons.injEq] at hwidths
                  rw [joined_cons_cons, joined_cons_cons, List.append_assoc, List.append_assoc] at h
                  have hpad : (pad t w).toList.length = (pad u v).toList.length := by
                    rw [length_pad hw, length_pad hv, hwidths.1]
                  obtain ⟨hpads, h⟩ := List.append_inj h hpad
                  simp only [List.cons_append, List.cons.injEq, true_and] at h
                  rw [eq_of_pad_eq ht hu hpads,
                    ih (.cons hv' hrest') (by simpa using hlength) hwidths.2 hts hus h]

-- Tables

theorem exists_joined_eq (hts : ∀ t ∈ ts, Plain t.toList) (hus : ∀ u ∈ us, Plain u.toList)
    (h : line ws ts = line vs us) :
    ∃ m n, joined ws ts ++ List.replicate m ' ' = joined vs us ++ List.replicate n ' ' := by
  obtain ⟨n, hn⟩ := exists_line_append hts ws
  obtain ⟨m, hm⟩ := exists_line_append hus vs
  refine ⟨m, n, ?_⟩
  rw [← hn, ← hm, h, List.append_assoc, List.append_assoc, List.replicate_append_replicate,
    List.replicate_append_replicate, Nat.add_comm]

section

variable {j k : Kind} {a : Automaton j} {b : Automaton k}

theorem entry_of_mem_row (a : Automaton k) (ls : List Label) (p : State) :
    ∀ t ∈ row a ls p, Entry t := by
  intro t ht
  cases List.mem_cons.mp ht with
  | inl hfirst => exact hfirst ▸ ⟨solid_marker a p, bar_not_mem_marker a p⟩
  | inr hother =>
      obtain ⟨l, _, rfl⟩ := List.mem_map.mp hother
      exact ⟨solid_cell _, bar_not_mem_cell _⟩

theorem Clear.solid_headers (h : Clear silentLabel cs) (ls : List Label) :
    ∀ t ∈ headers silentLabel ls, Solid t.toList := by
  intro t ht
  cases List.mem_cons.mp ht with
  | inl hfirst =>
      subst hfirst
      exact solid_append [] (by decide) (by decide)
  | inr hother =>
      obtain ⟨l, _, rfl⟩ := List.mem_map.mp hother
      exact h.solid_header l

-- A row tells the entries and the widths of the columns but for the last one.
theorem row_inj {p : State} (hpa : p ∈ a.states) (hpb : p ∈ b.states)
    (h : line (columnWidths a silentLabel) (row a (columns a) p) =
      line (columnWidths b silentLabel) (row b (columns b) p)) :
    row a (columns a) p = row b (columns b) p ∧
      (columnWidths a silentLabel).dropLast = (columnWidths b silentLabel).dropLast := by
  obtain ⟨m, n, hjoined⟩ := exists_joined_eq (plain_row a _ p) (plain_row b _ p) h
  exact entries_inj ((fits_columnWidths a silentLabel).2 p hpa)
    ((fits_columnWidths b silentLabel).2 p hpb) (List.cons_ne_nil _ _) (List.cons_ne_nil _ _)
    (entry_of_mem_row a _ p) (entry_of_mem_row b _ p) hjoined

theorem columns_inj (ha : Clear silentLabel a.alphabet) (hb : Clear silentLabel b.alphabet)
    (h : headers silentLabel (columns a) = headers silentLabel (columns b)) :
    columns a = columns b := by
  have hmap := (List.cons.inj h).2
  have hsymbols {i : Kind} {a : Automaton i} (ha : Clear silentLabel a.alphabet) {l : Label}
      (hl : l ∈ columns a) (c : Char) (hc : l = some c) :
      silentLabel ≠ header silentLabel (some c) := by
    subst hc
    exact ha.ne_header c (MoveRelation.mem_symbols.mpr (mem_columns.mp hl))
  apply List.ext_getElem
  · simpa using congrArg List.length hmap
  · intro i hia hib
    apply header_inj (hsymbols ha (List.getElem_mem hia)) (hsymbols hb (List.getElem_mem hib))
    have hget := congrArg (·[i]?) hmap
    simpa [hia, hib] using hget

-- The lines of two tables are compared one by one.
theorem lines_of_render_eq (hplain : Plain silentLabel.toList)
    (h : render a silentLabel = render b silentLabel) :
    a.size = b.size ∧
      line (columnWidths a silentLabel) (headers silentLabel (columns a)) =
        line (columnWidths b silentLabel) (headers silentLabel (columns b)) ∧
      ∀ p ∈ a.states, line (columnWidths a silentLabel) (row a (columns a) p) =
        line (columnWidths b silentLabel) (row b (columns b) p) := by
  have hlines := lines_inj hplain h
  simp only [lines_eq, List.cons.injEq] at hlines
  obtain ⟨hfirst, _, hrows⟩ := hlines
  have hsize : a.size = b.size := by
    have hlength := congrArg List.length hrows
    simpa [Automaton.states] using hlength
  have hstates : a.states = b.states := by rw [Automaton.states, Automaton.states, hsize]
  rw [← hstates] at hrows
  exact ⟨hsize, hfirst, List.map_inj_left.mp hrows⟩

-- What stands in the columns, taken for each state, is all of a well-formed automaton.
theorem sameParts_of_rows_eq (ha : a.WellFormed) (hb : b.WellFormed) (hsize : a.size = b.size)
    (hcolumns : columns a = columns b)
    (hrows : ∀ p, a.Valid p → row a (columns a) p = row b (columns b) p) : a.SameParts b := by
  have hvalid (p : State) : a.Valid p ↔ b.Valid p := by
    rw [Automaton.Valid, Automaton.Valid, hsize]
  have hfinal (p : State) (hp : a.Valid p) : p ∈ a.finals ↔ p ∈ b.finals := by
    have hmarker := isFinal_eq_of_marker_eq (List.cons.inj (hrows p hp)).1
    rw [Automaton.mem_finals_iff_isFinal, Automaton.mem_finals_iff_isFinal, hmarker]
  have htargets (p : State) (hp : a.Valid p) (l : Label) (hl : l ∈ columns a) :
      a.moves.targets p l = b.moves.targets p l := by
    have hcells := (List.cons.inj (hrows p hp)).2
    rw [← hcolumns] at hcells
    exact cell_inj (List.map_inj_left.mp hcells l hl)
  constructor
  case size => exact hsize
  case mem_finals =>
      intro p
      by_cases hp : a.Valid p
      · exact hfinal p hp
      · constructor
        · intro hmem
          exact absurd (ha.finals_valid p hmem) hp
        · intro hmem
          exact absurd ((hvalid p).mpr (hb.finals_valid p hmem)) hp
  case mem_edges =>
      intro e
      constructor
      · intro he
        have hl : e.label ∈ columns a := mem_columns.mpr ⟨e, he, rfl⟩
        have hsame := htargets e.source (ha.moves_valid e he).1 e.label hl
        exact MoveRelation.mem_targets.mp (hsame ▸ MoveRelation.mem_targets.mpr he)
      · intro he
        have hl : e.label ∈ columns a := by
          rw [hcolumns]
          exact mem_columns.mpr ⟨e, he, rfl⟩
        have hsame := htargets e.source ((hvalid _).mpr (hb.moves_valid e he).1) e.label hl
        exact MoveRelation.mem_targets.mp (hsame ▸ MoveRelation.mem_targets.mpr he)

-- Automata with the same table have as many states, the same final states and the same moves.
theorem parts_eq_of_render_eq (ha : Reachable a) (hb : Reachable b)
    (hcleara : Clear silentLabel a.alphabet) (hclearb : Clear silentLabel b.alphabet)
    (h : render a silentLabel = render b silentLabel) :
    a.size = b.size ∧ a.finals = b.finals ∧ a.moves.sameMoves b.moves = true := by
  have hplain : Plain silentLabel.toList := hcleara.unbroken.plain
  obtain ⟨hsize, hfirst, hlines⟩ := lines_of_render_eq hplain h
  have hrows : ∀ p, a.Valid p → row a (columns a) p = row b (columns b) p ∧
      (columnWidths a silentLabel).dropLast = (columnWidths b silentLabel).dropLast := by
    intro p hp
    have hpa : p ∈ a.states := Automaton.mem_states.mpr hp
    have hpb : p ∈ b.states := by
      rw [Automaton.mem_states, Automaton.Valid, ← hsize]
      exact hp
    exact row_inj hpa hpb (hlines p hpa)
  -- The row of the start state tells how wide the columns are, which the headers do not.
  have hzero : a.Valid 0 := ⟨Int.le_refl 0, Int.natCast_pos.mpr ha.wellFormed.size_pos⟩
  obtain ⟨hrow, hwidths⟩ := hrows 0 hzero
  have hlength : (headers silentLabel (columns a)).length =
      (headers silentLabel (columns b)).length := by
    simpa [row, headers] using congrArg List.length hrow
  obtain ⟨m, n, hjoined⟩ :=
    exists_joined_eq (plain_headers hplain (columns a)) (plain_headers hplain (columns b)) hfirst
  have hheaders := headers_inj (fits_columnWidths a silentLabel).1 (fits_columnWidths b silentLabel).1
    hlength hwidths (hcleara.solid_headers _) (hclearb.solid_headers _) hjoined
  have hcolumns := columns_inj hcleara hclearb hheaders
  have hparts := sameParts_of_rows_eq ha.wellFormed hb.wellFormed hsize hcolumns
    fun p hp => (hrows p hp).1
  refine ⟨hsize, hparts.finals_eq, ?_⟩
  rw [MoveRelation.sameMoves, decide_eq_true_eq]
  exact hparts.edges_eq

-- Columns that are headed by a bar, by a space and by an escape, for moves written in either order.
theorem parts_eq_of_render_eq_bars :
    let a : NFA := ((((Automaton.blank 2).addMove ⟨0, some ' ', 1⟩).addMove
      ⟨1, some '|', 0⟩).addMove ⟨0, some '\n', 1⟩).addFinal 1
    let b : DFA := ((((Automaton.blank 2).setMove 0 '\n' 1).setMove 1 '|' 0).setMove
      0 ' ' 1).addFinal 1
    render a "ε" = render b "ε" ∧
      a.size = b.size ∧ a.finals = b.finals ∧ a.moves.sameMoves b.moves = true := by
  intro a b
  have ha : Reachable a :=
    ⟨[.make (.listed .nfa 2 [(0, .text " ", 1), (1, .text "|", 0), (0, .text "\n", 1)] [1]) "a"],
      "a", rfl⟩
  have hb : Reachable b :=
    ⟨[.make (.listed .dfa 2 [(0, .text "\n", 1), (1, .text "|", 0), (0, .text " ", 1)] [1]) "b"],
      "b", rfl⟩
  have hcleara : Clear "ε" a.alphabet := by decide +kernel
  have hclearb : Clear "ε" b.alphabet := by decide +kernel
  have h : render a "ε" = render b "ε" := by decide +kernel
  exact ⟨h, parts_eq_of_render_eq ha hb hcleara hclearb h⟩

end

end FiniteAutomata.Table
