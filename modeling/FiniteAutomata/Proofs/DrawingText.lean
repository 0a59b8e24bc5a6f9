import FiniteAutomata.Proofs.Delimited
import FiniteAutomata.Proofs.SameParts

/-!
A drawing shows all moves and final states. Its text can be read from the front: the names of
states end at a blank, and the labels of an arrow at the first quotation mark that is not escaped
(`Drawing.Closed.append_quote_inj`). A comma between apostrophes may be the symbol or stand between
two of them; but the labels ascend, so that no two lists are written alike
(`Drawing.Listed.labels_inj`). Hence automata that are drawn alike have the same final states and
the same moves (`Drawing.parts_eq_of_render?_eq`).
-/

namespace FiniteAutomata.Drawing

-- Quotation

-- A text in which each quotation mark, and each backslash that stands for itself, is escaped.
inductive Closed : List Char → Prop where
  | nil : Closed []
  | plain {c : Char} {cs : List Char} (hquote : c ≠ '"') (hslash : c ≠ '\\') (h : Closed cs) :
      Closed (c :: cs)
  | escaped {c : Char} {cs : List Char} (h : Closed cs) : Closed ('\\' :: c :: cs)

theorem Closed.append {s t : List Char} (hs : Closed s) (ht : Closed t) : Closed (s ++ t) := by
  induction hs with
  | nil => exact ht
  | plain hquote hslash _ ih => exact .plain hquote hslash ih
  | escaped _ ih => exact .escaped ih

theorem closed_of_plain {s : List Char} (h : ∀ c ∈ s, c ≠ '"' ∧ c ≠ '\\') : Closed s := by
  induction s with
  | nil => exact .nil
  | cons c s ih =>
      obtain ⟨hc, hs⟩ := List.forall_mem_cons.mp h
      exact .plain hc.1 hc.2 (ih hs)

theorem closed_intercalate {l : List (List Char)} (h : ∀ s ∈ l, Closed s) :
    Closed ([','].intercalate l) := by
  induction l with
  | nil => exact .nil
  | cons s l ih =>
      obtain ⟨hs, hl⟩ := List.forall_mem_cons.mp h
      cases l with
      | nil => simpa using hs
      | cons t l =>
          have hcomma : Closed [','] := closed_of_plain (by simp)
          rw [List.intercalate_cons_cons]
          exact (hs.append hcomma).append (ih hl)

-- The first quotation mark that is not escaped ends the text.
theorem Closed.append_quote_inj {s t u v : List Char} (hs : Closed s) (ht : Closed t)
    (h : s ++ '"' :: u = t ++ '"' :: v) : s = t ∧ u = v := by
  induction hs generalizing t with
  | nil =>
      cases ht with
      | nil => simpa using h
      | plain hquote _ _ => exact absurd (List.cons.inj h).1.symm hquote
      | escaped _ => simp at h
  | plain hquote hslash _ ih =>
      cases ht with
      | nil => exact absurd (List.cons.inj h).1 hquote
      | plain _ _ ht =>
          obtain ⟨rfl, hrest⟩ := List.cons.inj h
          obtain ⟨rfl, huv⟩ := ih ht hrest
          exact ⟨rfl, huv⟩
      | escaped _ => exact absurd (List.cons.inj h).1 hslash
  | escaped _ ih =>
      cases ht with
      | nil => simp at h
      | plain _ hslash _ => exact absurd (List.cons.inj h).1.symm hslash
      | escaped ht =>
          simp only [List.cons_append, List.cons.injEq, true_and] at h
          obtain ⟨rfl, hrest⟩ := h
          obtain ⟨rfl, huv⟩ := ih ht hrest
          exact ⟨rfl, huv⟩

-- Labels

variable {o : Options} {k : Label} {ks ls : List Label} {c : Char}

theorem toList_symbolLabel (c : Char) : (symbolLabel c).toList =
    if c = ',' then ['\'', ',', '\''] else if c = '\\' ∨ c = '"' then ['\\', c] else [c] := by
  unfold symbolLabel
  split
  · rfl
  · split <;> simp

theorem closed_symbolLabel (c : Char) : Closed (symbolLabel c).toList := by
  rw [toList_symbolLabel]
  by_cases hcomma : c = ','
  · rw [if_pos hcomma]
    exact closed_of_plain (by simp)
  · rw [if_neg hcomma]
    by_cases hescape : c = '\\' ∨ c = '"'
    · rw [if_pos hescape]
      exact .escaped .nil
    · rw [if_neg hescape]
      exact .plain (fun h => hescape (.inr h)) (fun h => hescape (.inl h)) .nil

theorem label_ne_nil (o : Options) (l : Label) : (label o l).toList ≠ [] := by
  cases l with
  | none => simpa [label] using o.silentLabel_ne_empty
  | some c =>
      rw [label, toList_symbolLabel]
      split
      · simp
      · split <;> simp

-- The silent label holds no character that marks off labels, and no symbol.
def Options.Clear (o : Options) (cs : Ascending Char) : Prop :=
  ∀ c ∈ o.silentLabel.toList, c ∉ ['"', '\\', '\'', ','] ∧ c ∉ cs

instance (o : Options) (cs : Ascending Char) : Decidable (o.Clear cs) := List.decidableBAll _ _

-- What an arrow's labels are like: they ascend, and the silent label can be told from the others.
structure Listed (o : Options) (ls : List Label) : Prop where
  ascending : ls.Pairwise (compare · · = .lt)
  not_mem_silent : ∀ c, some c ∈ ls → c ∉ o.silentLabel.toList
  marks : ∀ c ∈ o.silentLabel.toList, c ∉ ['"', '\\', '\'', ',']

theorem Listed.tail (h : Listed o (k :: ks)) : Listed o ks where
  ascending := h.ascending.of_cons
  not_mem_silent c hc := h.not_mem_silent c (List.mem_cons_of_mem k hc)
  marks := h.marks

theorem Listed.closed_label (h : Listed o ls) (l : Label) : Closed (label o l).toList := by
  cases l with
  | some c => exact closed_symbolLabel c
  | none =>
      apply closed_of_plain
      intro c hc
      have hmarks := h.marks c hc
      simp only [List.mem_cons, not_or] at hmarks
      exact ⟨hmarks.1, hmarks.2.1⟩

-- What a label begins with: symbols with the same beginning are the comma and the apostrophe, or
-- the two that are escaped.
def opening (c : Char) : Char :=
  if c = ',' then '\'' else if c = '\\' ∨ c = '"' then '\\' else c

theorem head?_symbolLabel (c : Char) : (symbolLabel c).toList.head? = some (opening c) := by
  rw [toList_symbolLabel, opening]
  split
  · rfl
  · split <;> rfl

-- Only the apostrophe and the comma have labels that begin with an apostrophe.
theorem Listed.eq_of_apostrophe (h : Listed o ls) {s t : List Char}
    (hk : (label o k).toList ++ s = '\'' :: t) : k = some '\'' ∨ k = some ',' := by
  cases k with
  | none =>
      have hhead := congrArg List.head? hk
      cases hsilent : o.silentLabel.toList with
      | nil => exact absurd hsilent (label_ne_nil o none)
      | cons c cs =>
          have hmarks := h.marks c (hsilent ▸ List.mem_cons_self)
          simp [label, hsilent] at hhead
          simp [hhead] at hmarks
  | some c =>
      rw [label, toList_symbolLabel] at hk
      grind

-- The labels behind the first one, each with its comma.
def others (o : Options) (ls : List Label) : List Char :=
  ls.flatMap fun l => ',' :: (label o l).toList

theorem others_cons (o : Options) (l : Label) (ls : List Label) :
    others o (l :: ls) = ',' :: ((label o l).toList ++ others o ls) := rfl

-- Behind a comma, no label begins with an apostrophe; behind an apostrophe, only the comma does.
theorem Listed.comma_ne_apostrophe (hks : Listed o (some ',' :: ks))
    (hls : Listed o (some '\'' :: ls)) :
    (label o (some ',')).toList ++ others o ks ≠ (label o (some '\'')).toList ++ others o ls := by
  intro h
  have hquoted : ',' :: '\'' :: others o ks = others o ls := by
    simpa [label, toList_symbolLabel] using h
  cases ls with
  | nil => exact absurd hquoted (List.cons_ne_nil _ _)
  | cons l ls =>
      have hfirst : compare (some '\'') l = .lt := List.rel_of_pairwise_cons hls.ascending (by simp)
      rw [others_cons, List.cons.injEq] at hquoted
      cases hls.tail.eq_of_apostrophe hquoted.2.symm with
      | inl hl => exact absurd (hl ▸ hfirst) (by decide)
      | inr hl =>
          subst hl
          have hrest : others o ks = ',' :: '\'' :: others o ls := by
            simpa [label, toList_symbolLabel] using hquoted.2
          cases ks with
          | nil => exact absurd hrest.symm (List.cons_ne_nil _ _)
          | cons k ks =>
              have hnext : compare (some ',') k = .lt :=
                List.rel_of_pairwise_cons hks.ascending (by simp)
              rw [others_cons, List.cons.injEq] at hrest
              cases hks.tail.eq_of_apostrophe hrest.2 with
              | inl hk => exact absurd (hk ▸ hnext) (by decide)
              | inr hk => exact absurd (hk ▸ hnext) (by decide)

-- The silent label and a symbol's do not begin alike.
theorem Listed.silent_ne_symbol (hls : Listed o ls) (hc : some c ∈ ls) (s t : List Char) :
    (label o none).toList ++ s ≠ (label o (some c)).toList ++ t := by
  intro h
  have hhead := congrArg List.head? h
  cases hsilent : o.silentLabel.toList with
  | nil => exact absurd hsilent (label_ne_nil o none)
  | cons d ds =>
      have hd : d ∈ o.silentLabel.toList := hsilent ▸ List.mem_cons_self
      have hmarks := hls.marks d hd
      have hsymbol : d = opening c := by
        rw [List.head?_append, List.head?_append] at hhead
        simpa [label, hsilent, head?_symbolLabel] using hhead
      have hother : d ≠ c := fun hdc => hls.not_mem_silent c hc (hdc ▸ hd)
      unfold opening at hsymbol
      grind

-- Two symbols whose labels stand in front of the same text are equal, or the comma and the
-- apostrophe.
theorem symbol_eq_or_ambiguous {d : Char} {s t : List Char}
    (h : (label o (some c)).toList ++ s = (label o (some d)).toList ++ t) :
    c = d ∨ c = ',' ∧ d = '\'' ∨ c = '\'' ∧ d = ',' := by
  rw [label, label, toList_symbolLabel, toList_symbolLabel] at h
  grind

theorem Listed.head_eq {l : Label} (hks : Listed o (k :: ks)) (hls : Listed o (l :: ls))
    (h : (label o k).toList ++ others o ks = (label o l).toList ++ others o ls) : k = l := by
  cases k with
  | none =>
      cases l with
      | none => rfl
      | some d => exact absurd h (hls.silent_ne_symbol List.mem_cons_self _ _)
  | some c =>
      cases l with
      | none => exact absurd h.symm (hks.silent_ne_symbol List.mem_cons_self _ _)
      | some d =>
          rcases symbol_eq_or_ambiguous h with hcd | ⟨rfl, rfl⟩ | ⟨rfl, rfl⟩
          · rw [hcd]
          · exact absurd h (hks.comma_ne_apostrophe hls)
          · exact absurd h.symm (hls.comma_ne_apostrophe hks)

theorem Listed.others_inj (hks : Listed o ks) (hls : Listed o ls) (h : others o ks = others o ls) :
    ks = ls := by
  induction ks generalizing ls with
  | nil =>
      cases ls with
      | nil => rfl
      | cons l ls => exact absurd h.symm (List.cons_ne_nil _ _)
  | cons k ks ih =>
      cases ls with
      | nil => exact absurd h (List.cons_ne_nil _ _)
      | cons l ls =>
          rw [others_cons, others_cons, List.cons.injEq] at h
          have hhead := hks.head_eq hls h.2
          subst hhead
          rw [ih hks.tail hls.tail (List.append_cancel_left h.2)]

-- The list of labels on an arrow.
theorem toList_commas_cons (write : Label → String) (l : Label) (ls : List Label) :
    (",".intercalate ((l :: ls).map write)).toList =
      (write l).toList ++ ls.flatMap fun l => ',' :: (write l).toList := by
  have hcomma : ",".toList = [','] := by decide
  rw [String.toList_intercalate, hcomma, List.map_cons, List.map_cons,
    Text.intercalate_cons_eq_flatMap, List.flatMap_map, List.flatMap_map]

theorem toList_labels_cons (o : Options) (l : Label) (ls : List Label) :
    (",".intercalate ((l :: ls).map (label o))).toList = (label o l).toList ++ others o ls :=
  toList_commas_cons (label o) l ls

theorem labels_cons_ne_nil (o : Options) (l : Label) (ls : List Label) :
    (",".intercalate ((l :: ls).map (label o))).toList ≠ [] := by
  rw [toList_labels_cons]
  exact List.append_ne_nil_of_left_ne_nil (label_ne_nil o l) _

-- Labels that ascend are known from how they are listed.
theorem Listed.labels_inj (hks : Listed o ks) (hls : Listed o ls)
    (h : (",".intercalate (ks.map (label o))).toList =
      (",".intercalate (ls.map (label o))).toList) : ks = ls := by
  cases ks with
  | nil =>
      cases ls with
      | nil => rfl
      | cons l ls => exact absurd h.symm (labels_cons_ne_nil o l ls)
  | cons k ks =>
      cases ls with
      | nil => exact absurd h (labels_cons_ne_nil o k ks)
      | cons l ls =>
          apply hks.others_inj hls
          rw [others_cons, others_cons, ← toList_labels_cons, ← toList_labels_cons, h]

theorem Listed.closed_labels (h : Listed o ls) :
    Closed (",".intercalate (ls.map (label o))).toList := by
  rw [String.toList_intercalate]
  apply closed_intercalate
  intro s hs
  obtain ⟨l, _, rfl⟩ : ∃ l ∈ ls, (label o l).toList = s := by simpa using hs
  exact h.closed_label l

-- Arrows

theorem toList_node (o : Options) (p : State) :
    (node o p).toList = o.stateStem.toList ++ (toString p).toList := String.toList_append

theorem node_inj {p q : State} (h : (node o p).toList = (node o q).toList) : p = q := by
  rw [toList_node, toList_node] at h
  have hnumber := List.append_cancel_left h
  exact Text.toString_int_inj.mp (String.toList_inj.mp hnumber)

-- Names of states are closed by a blank, and their list by a semicolon.
theorem continuesIdentifier_of_isIdentifier {s : String} (h : Text.isIdentifier s = true) :
    ∀ c ∈ s.toList, Text.continuesIdentifier c = true := by
  unfold Text.isIdentifier at h
  cases hs : s.toList with
  | nil => simp
  | cons c cs =>
      rw [hs] at h
      simp only [Bool.and_eq_true, List.all_eq_true] at h
      intro d hd
      cases List.mem_cons.mp hd with
      | inl hd => simp [Text.continuesIdentifier, hd, h.1]
      | inr hd => exact h.2 d hd

theorem not_mem_node {p : State} (hname : Text.continuesIdentifier c = false) (hsign : c ≠ '-')
    (hdigit : c.isDigit = false) : c ∉ (node o p).toList := by
  intro hc
  rw [toList_node, List.mem_append] at hc
  cases hc with
  | inl hc =>
      have hstem := continuesIdentifier_of_isIdentifier o.stateStem_isIdentifier c hc
      simp [hname] at hstem
  | inr hc => exact Text.not_mem_toString_int hsign hdigit hc

theorem blank_not_mem_node (o : Options) (p : State) : ' ' ∉ (node o p).toList :=
  not_mem_node (by decide +kernel) (by decide) (by decide)

theorem semicolon_not_mem_node (o : Options) (p : State) : ';' ∉ (node o p).toList :=
  not_mem_node (by decide +kernel) (by decide) (by decide)

theorem toList_arrow (o : Options) (arc : Arc) (ls : List Label) (s : List Char) :
    (arrow o arc ls).toList ++ s = "  ".toList ++ ((node o arc.source).toList ++ ' ' ::
      ("-> ".toList ++ ((node o arc.target).toList ++ ' ' :: ("[ label = \"".toList ++
        ((",".intercalate (ls.map (label o))).toList ++ '"' :: (" ];".toList ++ s)))))) := by
  simp [arrow]

theorem arrow_inj {arc other : Arc} {s t : List Char} (hks : Listed o ks) (hls : Listed o ls)
    (h : (arrow o arc ks).toList ++ s = (arrow o other ls).toList ++ t) :
    arc = other ∧ ks = ls ∧ s = t := by
  rw [toList_arrow, toList_arrow] at h
  have hnode := blank_not_mem_node o
  obtain ⟨hsource, h⟩ := Text.append_mark_inj (hnode _) (hnode _) (List.append_cancel_left h)
  obtain ⟨htarget, h⟩ := Text.append_mark_inj (hnode _) (hnode _) (List.append_cancel_left h)
  obtain ⟨hlabels, h⟩ :=
    hks.closed_labels.append_quote_inj hls.closed_labels (List.append_cancel_left h)
  refine ⟨?_, hks.labels_inj hls hlabels, List.append_cancel_left h⟩
  cases arc
  cases other
  rw [Arc.mk.injEq]
  exact ⟨node_inj hsource, node_inj htarget⟩

-- The text of lines that are written below each other.
def below (lines : List String) : List Char := lines.flatMap fun line => line.toList ++ ['\n']

theorem toList_join_lines (lines : List String) :
    (String.join (lines.map (· ++ "\n"))).toList = below lines := by
  simp [below, List.flatMap_def, Function.comp_def]

def drawn (o : Options) (arrows : List (Arc × List Label)) : List String :=
  arrows.map fun (arc, ls) => arrow o arc ls

-- The text of an arrow begins with a blank, and the last line does not.
theorem drawn_inj {as bs : List (Arc × List Label)} {s t : List Char}
    (has : ∀ x ∈ as, Listed o x.2) (hbs : ∀ x ∈ bs, Listed o x.2)
    (h : below (drawn o as) ++ '\x7d' :: s = below (drawn o bs) ++ '\x7d' :: t) : as = bs := by
  induction as generalizing bs with
  | nil =>
      cases bs with
      | nil => rfl
      | cons b bs => simp [below, drawn, arrow] at h
  | cons a as ih =>
      cases bs with
      | nil => simp [below, drawn, arrow] at h
      | cons b bs =>
          obtain ⟨hka, has⟩ := List.forall_mem_cons.mp has
          obtain ⟨hkb, hbs⟩ := List.forall_mem_cons.mp hbs
          simp only [below, drawn, List.map_cons, List.flatMap_cons, List.append_assoc] at h
          obtain ⟨harc, hls, hrest⟩ := arrow_inj hka hkb h
          have htail := ih has hbs (List.append_cancel_left hrest)
          rw [Prod.ext harc hls, htail]

-- Final states

-- What the line of the final states is followed by.
def circles : String := "  node [shape = circle];"

theorem toList_finalsLine {ps : List State} (h : ps ≠ []) (o : Options) (s : List Char) :
    below (finalsLine o ps) ++ s = "  node [shape = doublecircle]; ".toList ++
      ([' '].intercalate (ps.map fun p => (node o p).toList) ++ ';' :: '\n' :: s) := by
  have hblank : " ".toList = [' '] := by decide
  have hps : ps.isEmpty = false := by simpa using h
  simp [finalsLine, hps, below, hblank, Function.comp_def]

theorem semicolon_not_mem_nodes (o : Options) (ps : List State) :
    ';' ∉ [' '].intercalate (ps.map fun p => (node o p).toList) := by
  intro h
  cases Text.mem_intercalate h with
  | inl hblank => exact absurd hblank (by decide)
  | inr hnode =>
      obtain ⟨s, hs, hmem⟩ := hnode
      obtain ⟨p, _, rfl⟩ := List.mem_map.mp hs
      exact semicolon_not_mem_node o p hmem

theorem nodes_inj {ps qs : List State} (hps : ps ≠ []) (hqs : qs ≠ [])
    (h : [' '].intercalate (ps.map fun p => (node o p).toList) =
      [' '].intercalate (qs.map fun p => (node o p).toList)) : ps = qs := by
  have hblank : ∀ ps : List State, ∀ s ∈ ps.map fun p => (node o p).toList, ' ' ∉ s := by
    intro ps s hs
    obtain ⟨p, _, rfl⟩ := List.mem_map.mp hs
    exact blank_not_mem_node o p
  have hmap := Text.intercalate_inj (hblank ps) (hblank qs) (by simpa using hps)
    (by simpa using hqs) h
  exact (List.map_inj_right fun _ _ => node_inj).mp hmap

-- Double circles are asked for exactly if there are final states.
theorem circles_ne_finalsLine {ps : List State} (h : ps ≠ []) (o : Options) (s t : List Char) :
    below [circles] ++ s ≠ below (finalsLine o ps) ++ t := by
  rw [toList_finalsLine h]
  simp [below, circles]

theorem finalsLine_inj {ps qs : List State} {s t : List Char}
    (h : below (finalsLine o ps) ++ (below [circles] ++ s) =
      below (finalsLine o qs) ++ (below [circles] ++ t)) : ps = qs ∧ s = t := by
  by_cases hps : ps = []
  · by_cases hqs : qs = []
    · subst hps hqs
      exact ⟨rfl, List.append_cancel_left h⟩
    · subst hps
      exact absurd h (circles_ne_finalsLine hqs o _ _)
  · by_cases hqs : qs = []
    · subst hqs
      exact absurd h.symm (circles_ne_finalsLine hps o _ _)
    · rw [toList_finalsLine hps, toList_finalsLine hqs] at h
      obtain ⟨hnames, hrest⟩ := Text.append_mark_inj (semicolon_not_mem_nodes o ps)
        (semicolon_not_mem_nodes o qs) (List.append_cancel_left h)
      simp only [List.cons.injEq, true_and] at hrest
      exact ⟨nodes_inj hps hqs hnames, List.append_cancel_left hrest⟩

-- The labels of an arrow

section Bundle

variable {es fs : List (Edge Char)}

-- Moves with the same ends ascend by their labels.
theorem pairwise_bundle (hes : es.Pairwise (compare · · = .lt)) (arc : Arc) :
    ((bundle es).getD arc []).Pairwise (compare · · = .lt) := by
  rw [getD_bundle]
  apply List.pairwise_map.mpr
  apply (hes.filter _).imp_of_mem
  intro d e hd he h
  have hsource : d.source = e.source := by
    simp only [List.mem_filter, decide_eq_true_eq] at hd he
    exact congrArg Arc.source (hd.2.trans he.2.symm)
  have htarget : d.target = e.target := by
    simp only [List.mem_filter, decide_eq_true_eq] at hd he
    exact congrArg Arc.target (hd.2.trans he.2.symm)
  rw [Edge.compare_eq_lt, hsource, htarget] at h
  simpa using h

theorem mem_iff_label_mem_bundle {e : Edge Char} :
    e ∈ es ↔ e.label ∈ (bundle es).getD (arcOf e) [] := by
  rw [getD_bundle, List.mem_map]
  constructor
  · intro he
    exact ⟨e, by simpa using he, rfl⟩
  · intro h
    obtain ⟨d, hd, hlabel⟩ := h
    simp only [List.mem_filter, decide_eq_true_eq, arcOf, Arc.mk.injEq] at hd
    have hde : d = e := by
      cases d
      cases e
      simp_all
    exact hde ▸ hd.1

-- The arrows, each with its labels, tell which moves there are.
theorem mem_iff_of_bundle_eq (h : (bundle es).toList = (bundle fs).toList) (e : Edge Char) :
    e ∈ es ↔ e ∈ fs := by
  have hsame : (bundle es).getD (arcOf e) [] = (bundle fs).getD (arcOf e) [] :=
    (Std.TreeMap.equiv_iff_toList_eq.mpr h).getD_eq
  rw [mem_iff_label_mem_bundle, mem_iff_label_mem_bundle, hsame]

end Bundle

variable {i j : Kind} {a : Automaton i} {b : Automaton j}

theorem listed_of_mem_bundle (hclear : o.Clear a.alphabet) {x : Arc × List Label}
    (hx : x ∈ (bundle a.moves.edges.toList).toList) : Listed o x.2 := by
  have hlabels : (bundle a.moves.edges.toList).getD x.1 [] = x.2 := by
    rw [Std.TreeMap.getD_eq_getD_getElem?, Std.TreeMap.mem_toList_iff_getElem?_eq_some.mp hx]
    rfl
  constructor
  case ascending => exact hlabels ▸ pairwise_bundle a.moves.edges.ascending x.1
  case not_mem_silent =>
      intro c hc hsilent
      rw [← hlabels, getD_bundle, List.mem_map] at hc
      obtain ⟨e, he, hlabel⟩ := hc
      have hmove : e ∈ a.moves.edges := (List.mem_filter.mp he).1
      exact (hclear c hsilent).2 (MoveRelation.mem_symbols.mpr ⟨e, hmove, hlabel⟩)
  case marks => exact fun c hc => (hclear c hc).1

-- Drawings

theorem below_append (ls ms : List String) : below (ls ++ ms) = below ls ++ below ms :=
  List.flatMap_append

-- What stands before the final states, and what between the circles and the arrows.
def heading (name : String) (o : Options) : List String :=
  ["digraph " ++ name ++ " \x7b", "  rankdir=" ++ o.direction.name ++ ";"]

def entry (o : Options) : String := "  __start [shape = point]; __start -> " ++ node o 0 ++ ";"

theorem toList_render (a : Automaton i) (name : String) (o : Options) :
    (render a name o).toList = below (heading name o) ++ (below (finalsLine o a.finals.toList) ++
      (below [circles] ++ (below [entry o] ++
        (below (drawn o (bundle a.moves.edges.toList).toList) ++ '\x7d' :: ['\n'])))) := by
  have hlines : lines a name o = heading name o ++ (finalsLine o a.finals.toList ++
      ([circles] ++ ([entry o] ++ (drawn o (bundle a.moves.edges.toList).toList ++ ["\x7d"])))) := by
    have harrows : arrows o a.moves = drawn o (bundle a.moves.edges.toList).toList := rfl
    unfold lines heading circles entry
    simp only [harrows, List.append_assoc, List.cons_append, List.nil_append]
  have hlast : below ["\x7d"] = ['\x7d', '\n'] := by decide
  rw [render, toList_join_lines, hlines]
  simp only [below_append, hlast]

-- Automata that are drawn alike have the same final states and the same moves.
theorem parts_eq_of_render?_eq {name : String} (hname : Text.isIdentifier name = true)
    (ha : o.Clear a.alphabet) (hb : o.Clear b.alphabet)
    (h : render? a name o = render? b name o) :
    a.finals = b.finals ∧ a.moves.sameMoves b.moves = true := by
  simp only [render?, hname, if_true, Except.ok.injEq] at h
  have htext := congrArg String.toList h
  rw [toList_render, toList_render] at htext
  obtain ⟨hfinals, hrest⟩ := finalsLine_inj (List.append_cancel_left htext)
  have harrows := drawn_inj (fun _ => listed_of_mem_bundle ha) (fun _ => listed_of_mem_bundle hb)
    (List.append_cancel_left hrest)
  constructor
  · apply Std.ExtTreeSet.ext_mem
    intro p
    rw [← Std.ExtTreeSet.mem_toList, hfinals, Std.ExtTreeSet.mem_toList]
  · rw [MoveRelation.sameMoves, decide_eq_true_eq]
    apply Ascending.ext
    exact mem_iff_of_bundle_eq harrows

-- The comma and the apostrophe on one arrow, written in either order.
theorem parts_eq_of_render?_eq_quotes :
    let a : NFA :=
      (((Automaton.blank 2).addMove ⟨0, some ',', 1⟩).addMove ⟨0, some '\'', 1⟩).addFinal 1
    let b : DFA := (((Automaton.blank 3).setMove 0 '\'' 1).setMove 0 ',' 1).addFinal 1
    render? a "g" .standard = render? b "g" .standard ∧
      a.finals = b.finals ∧ a.moves.sameMoves b.moves = true := by
  intro a b
  have hname : Text.isIdentifier "g" = true := by decide +kernel
  have ha : Options.standard.Clear a.alphabet := by decide +kernel
  have hb : Options.standard.Clear b.alphabet := by decide +kernel
  have h : render? a "g" .standard = render? b "g" .standard := by
    simp only [render?, hname, if_true, Except.ok.injEq]
    decide +kernel
  exact ⟨h, parts_eq_of_render?_eq hname ha hb h⟩

end FiniteAutomata.Drawing
