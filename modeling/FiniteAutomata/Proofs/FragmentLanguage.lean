import FiniteAutomata.Proofs.Machine

/-!
What composite fragments accept. Each holds copies of its operands (`Fragment.Copy`): a run that
starts in a copy goes on as a run of the operand, until a silent move takes it from the copy's
accept state to an exit. Cutting runs at these moves gives the language of each operation in terms
of the languages of its operands, of which nothing is asked but that they are well-formed.
-/

namespace FiniteAutomata

open scoped Computability

namespace Fragment

variable {f g h : Fragment}

-- The integers are written as such, because arithmetic does not see through `State`.
theorem valid_iff {p : Int} : f.toNFA.Valid p ↔ (0 : Int) ≤ p ∧ p < (f.size : Int) := Iff.rfl

theorem mk_eq_silent {p q r s : Int} {l : Label} :
    (⟨p, l, q⟩ : Edge Char) = silent r s ↔ p = r ∧ l = none ∧ q = s := by
  rw [silent, Edge.mk.injEq]

theorem WellFormed.start_valid (hf : f.WellFormed) : f.toNFA.Valid (0 : Int) :=
  hf.toNFA.valid_zero

theorem WellFormed.source_lt (hf : f.WellFormed) {p q : Int} {l : Label}
    (he : ⟨p, l, q⟩ ∈ f.moves.edges) : 0 ≤ p ∧ p < (f.size : Int) :=
  valid_iff.mp (hf.moves_valid _ he).1

theorem WellFormed.shifted_source_lt (hf : f.WellFormed) {offset p q : Int} {l : Label}
    (he : ⟨p, l, q⟩ ∈ f.moves.shifted offset) : offset ≤ p ∧ p < offset + (f.size : Int) := by
  have hsource := hf.source_lt (MoveRelation.mem_shifted.mp he)
  simp only at hsource
  omega

def language (f : Fragment) : Language Char := Automaton.language f.toNFA

-- The labels along a run from one state to another.
def Path (f : Fragment) (p q : Int) (ls : List Label) : Prop :=
  (Automaton.machine f.toNFA).IsPath p q ls

theorem isFinal_toNFA_iff {p : State} : f.toNFA.isFinal p = true ↔ p = f.accept :=
  Automaton.mem_finals_iff_isFinal.symm.trans mem_finals_toNFA

-- Some run from one state to the other reads the word.
def Reads (f : Fragment) (p q : Int) (word : List Char) : Prop :=
  ∃ ls, f.Path p q ls ∧ ls.reduceOption = word

theorem mem_language {word : List Char} : word ∈ f.language ↔ f.Reads 0 f.accept word := by
  rw [language, Automaton.mem_language]
  constructor
  · rintro ⟨q, ls, hq, hpath, hword⟩
    rw [isFinal_toNFA_iff.mp hq] at hpath
    exact ⟨ls, hpath, hword⟩
  · rintro ⟨ls, hpath, hword⟩
    exact ⟨f.accept, ls, isFinal_toNFA_iff.mpr rfl, hpath, hword⟩

theorem path_nil {p q : Int} : f.Path p q [] ↔ p = q := εNFA.isPath_nil _

theorem path_cons {p q : Int} {l : Label} {ls : List Label} :
    f.Path p q (l :: ls) ↔ ∃ r, ⟨p, l, r⟩ ∈ f.moves.edges ∧ f.Path r q ls := by
  constructor
  · intro hpath
    cases hpath with
    | cons r _ _ _ _ he hpath => exact ⟨r, he, hpath⟩
  · rintro ⟨r, he, hpath⟩
    exact .cons r p q l ls he hpath

theorem Reads.append {p q r : Int} {u v : List Char} (hu : f.Reads p q u)
    (hv : f.Reads q r v) : f.Reads p r (u ++ v) := by
  obtain ⟨ls, hls, rfl⟩ := hu
  obtain ⟨ms, hms, rfl⟩ := hv
  have hpath := (Automaton.machine f.toNFA).isPath_append.mpr ⟨q, hls, hms⟩
  exact ⟨ls ++ ms, hpath, List.reduceOption_append ls ms⟩

theorem reads_of_mem {p q : Int} {l : Label} (he : ⟨p, l, q⟩ ∈ f.moves.edges) :
    f.Reads p q l.toList :=
  ⟨[l], path_cons.mpr ⟨q, he, path_nil.mpr rfl⟩, List.reduceOption_singleton l⟩

theorem Reads.after_silent {p q r : Int} {word : List Char} (he : silent p q ∈ f.moves.edges)
    (hword : f.Reads q r word) : f.Reads p r word := (reads_of_mem he).append hword

theorem Reads.then_silent {p q r : Int} {word : List Char} (hword : f.Reads p q word)
    (he : silent q r ∈ f.moves.edges) : f.Reads p r word := by
  have happended := hword.append (reads_of_mem he)
  rwa [Option.toList_none, List.append_nil] at happended

-- Runs do not go on where no move leaves.
theorem Path.eq_of_sink {p q : Int} {ls : List Label} (hpath : f.Path p q ls)
    (hsink : ∀ l r, ⟨p, l, r⟩ ∉ f.moves.edges) : p = q ∧ ls = [] := by
  cases ls with
  | nil => exact ⟨path_nil.mp hpath, rfl⟩
  | cons l ls =>
      obtain ⟨r, he, -⟩ := path_cons.mp hpath
      exact absurd he (hsink l r)

-- A copy of `f` within `h`: its states are numbered from `offset` on, and only silent moves from
-- its accept state to the exits lead out of it.
structure Copy (f h : Fragment) (offset : Int) (exits : Set Int) : Prop where
  embed : ∀ (p : Int) (l : Label) (q : Int), ⟨p, l, q⟩ ∈ f.moves.edges →
    ⟨offset + p, l, offset + q⟩ ∈ h.moves.edges
  escape : ∀ (p : Int) (l : Label) (q : Int), f.toNFA.Valid p →
    ⟨offset + p, l, q⟩ ∈ h.moves.edges →
      (∃ r, q = offset + r ∧ ⟨p, l, r⟩ ∈ f.moves.edges) ∨ p = f.accept ∧ l = none ∧ q ∈ exits

namespace Copy

variable {offset : Int} {exits : Set Int}

theorem of_shifted (hembed : ∀ e ∈ f.moves.shifted offset, e ∈ h.moves.edges)
    (hescape : ∀ (p : Int) (l : Label) (q : Int), ⟨p, l, q⟩ ∈ h.moves.edges → offset ≤ p →
      p < offset + (f.size : Int) →
        ⟨p, l, q⟩ ∈ f.moves.shifted offset ∨ p = offset + f.accept ∧ l = none ∧ q ∈ exits) :
    Copy f h offset exits where
  embed p l q he := by
    refine hembed _ (MoveRelation.mem_shifted.mpr ?_)
    simpa only [add_sub_cancel_left] using he
  escape p l q hp he := by
    have hp := valid_iff.mp hp
    rcases hescape _ l q he (by omega) (by omega) with he | ⟨hsource, hl, hq⟩
    · have he := MoveRelation.mem_shifted.mp he
      rw [add_sub_cancel_left] at he
      exact .inl ⟨q - offset, (add_sub_cancel offset q).symm, he⟩
    · exact .inr ⟨add_left_cancel hsource, hl, hq⟩

theorem path (hcopy : Copy f h offset exits) {p q : Int} {ls : List Label}
    (hpath : f.Path p q ls) : h.Path (offset + p) (offset + q) ls := by
  induction ls generalizing p with
  | nil => exact path_nil.mpr (congrArg (offset + ·) (path_nil.mp hpath))
  | cons l ls ih =>
      obtain ⟨r, he, hpath⟩ := path_cons.mp hpath
      exact path_cons.mpr ⟨offset + r, hcopy.embed p l r he, ih hpath⟩

-- A run from within the copy stays there, or it is cut where it leaves for the first time.
theorem split (hcopy : Copy f h offset exits) (hf : f.WellFormed) {p q : Int} {ls : List Label}
    (hp : f.toNFA.Valid p) (hpath : h.Path (offset + p) q ls) :
    (∃ r, q = offset + r ∧ f.toNFA.Valid r ∧ f.Path p r ls) ∨
      ∃ before after r, ls = before ++ none :: after ∧ f.Path p f.accept before ∧ r ∈ exits ∧
        h.Path r q after := by
  induction ls generalizing p with
  | nil => exact .inl ⟨p, (path_nil.mp hpath).symm, hp, path_nil.mpr rfl⟩
  | cons l ls ih =>
      obtain ⟨t, he, hrest⟩ := path_cons.mp hpath
      rcases hcopy.escape p l t hp he with ⟨r, rfl, hr⟩ | ⟨rfl, rfl, ht⟩
      · have hvalid := (hf.moves_valid _ hr).2
        rcases ih hvalid hrest with ⟨s, hs, hsvalid, hspath⟩ |
          ⟨before, after, s, rfl, hbefore, hs, hafter⟩
        · exact .inl ⟨s, hs, hsvalid, path_cons.mpr ⟨r, hr, hspath⟩⟩
        · refine .inr ⟨l :: before, after, s, rfl, ?_, hs, hafter⟩
          exact path_cons.mpr ⟨r, hr, hbefore⟩
      · exact .inr ⟨[], ls, t, rfl, path_nil.mpr rfl, ht, hrest⟩

-- A run from the start of the copy to a state behind it reads a word of the operand first.
theorem exists_of_path (hcopy : Copy f h offset exits) (hf : f.WellFormed) {q : Int}
    {ls : List Label} (hq : offset + (f.size : Int) ≤ q) (hpath : h.Path offset q ls) :
    ∃ before after r, ls = before ++ none :: after ∧ before.reduceOption ∈ f.language ∧
      r ∈ exits ∧ h.Path r q after := by
  have hpath : h.Path (offset + 0) q ls := by rwa [Int.add_zero]
  rcases hcopy.split hf hf.start_valid hpath with ⟨r, hr, hvalid, -⟩ |
    ⟨before, after, r, hls, hbefore, hr, hafter⟩
  · have hvalid := valid_iff.mp hvalid
    omega
  · exact ⟨before, after, r, hls, mem_language.mpr ⟨before, hbefore, rfl⟩, hr, hafter⟩

-- Where the exit is the end of all runs, only words of the operand lead to it.
theorem mem_language_of_path {q : Int} (hcopy : Copy f h offset {q}) (hf : f.WellFormed)
    {ls : List Label} (hq : offset + (f.size : Int) ≤ q)
    (hsink : ∀ l r, ⟨q, l, r⟩ ∉ h.moves.edges) (hpath : h.Path offset q ls) :
    ls.reduceOption ∈ f.language := by
  obtain ⟨before, after, r, rfl, hbefore, rfl, hafter⟩ := hcopy.exists_of_path hf hq hpath
  obtain ⟨-, rfl⟩ := hafter.eq_of_sink hsink
  rwa [List.reduceOption_append, List.reduceOption_cons_of_none, List.reduceOption_nil,
    List.append_nil]

-- Every word of the operand leads from the start of the copy to its accept state.
theorem reads (hcopy : Copy f h offset exits) {word : List Char} (hword : word ∈ f.language) :
    h.Reads offset (offset + f.accept) word := by
  obtain ⟨ls, hpath, hread⟩ := mem_language.mp hword
  have hcopied := hcopy.path hpath
  rw [Int.add_zero] at hcopied
  exact ⟨ls, hcopied, hread⟩

end Copy

-- Sequence

theorem copy_concat_left (hg : g.WellFormed) : Copy f (f.concat g) 0 {(f.size : Int)} := by
  have hzero : ∀ e : Edge Char, e ∈ f.moves.shifted 0 ↔ e ∈ f.moves.edges := fun e => by
    rw [MoveRelation.mem_shifted, sub_zero, sub_zero]
  refine .of_shifted (fun e he => mem_edges_concat.mpr (.inl ((hzero e).mp he))) ?_
  intro p l q he hlow hhigh
  rcases mem_edges_concat.mp he with he | he | he
  · exact .inl ((hzero _).mpr he)
  · have hsource := hg.shifted_source_lt he
    omega
  · obtain ⟨rfl, rfl, rfl⟩ := mk_eq_silent.mp he
    exact .inr ⟨(zero_add _).symm, rfl, rfl⟩

theorem copy_concat_right (hf : f.WellFormed) : Copy g (f.concat g) (f.size : Int) ∅ := by
  refine .of_shifted (fun e he => mem_edges_concat.mpr (.inr (.inl he))) ?_
  intro p l q he hlow hhigh
  rcases mem_edges_concat.mp he with he | he | he
  · have hsource := hf.source_lt he
    omega
  · exact .inl he
  · obtain ⟨rfl, -, -⟩ := mk_eq_silent.mp he
    have haccept := valid_iff.mp hf.accept_valid
    omega

theorem language_concat (hf : f.WellFormed) (hg : g.WellFormed) :
    (f.concat g).language = f.language * g.language := by
  have hleft := copy_concat_left (f := f) hg
  have hright := copy_concat_right (g := g) hf
  refine Language.ext fun word => ?_
  rw [Language.mem_mul]
  constructor
  · intro hword
    obtain ⟨ls, hpath, rfl⟩ := mem_language.mp hword
    have haccept := valid_iff.mp hg.accept_valid
    have hout : 0 + (f.size : Int) ≤ (f.size : Int) + g.accept := by omega
    obtain ⟨before, after, _, rfl, hbefore, rfl, hafter⟩ := hleft.exists_of_path hf hout hpath
    have hstart : (f.concat g).Path ((f.size : Int) + 0) ((f.size : Int) + g.accept) after := by
      rwa [Int.add_zero]
    rcases hright.split hg hg.start_valid hstart with ⟨r, hr, -, hinner⟩ |
      ⟨_, _, r, -, -, hr, -⟩
    · rw [← add_left_cancel hr] at hinner
      refine ⟨_, hbefore, _, mem_language.mpr ⟨after, hinner, rfl⟩, ?_⟩
      rw [List.reduceOption_append, List.reduceOption_cons_of_none]
    · exact absurd hr (Set.notMem_empty r)
  · rintro ⟨u, hu, v, hv, rfl⟩
    have hfirst : (f.concat g).Reads 0 (f.size : Int) u := by
      refine (hleft.reads hu).then_silent (mem_edges_concat.mpr (.inr (.inr ?_)))
      rw [Int.zero_add]
    exact mem_language.mpr (hfirst.append (hright.reads hv))

-- Choice

theorem copy_alternate_left (hg : g.WellFormed) :
    Copy f (f.alternate g) 1 {(f.size : Int) + g.size + 1} := by
  refine .of_shifted (fun e he => mem_edges_alternate.mpr (.inl he)) ?_
  intro p l q he hlow hhigh
  have haccept := valid_iff.mp hg.accept_valid
  rcases mem_edges_alternate.mp he with he | he | he | he | he | he
  · exact .inl he
  · have hsource := hg.shifted_source_lt he
    omega
  all_goals obtain ⟨rfl, rfl, rfl⟩ := mk_eq_silent.mp he
  · omega
  · omega
  · exact .inr ⟨rfl, rfl, rfl⟩
  · omega

theorem copy_alternate_right (hf : f.WellFormed) :
    Copy g (f.alternate g) ((f.size : Int) + 1) {(f.size : Int) + g.size + 1} := by
  refine .of_shifted (fun e he => mem_edges_alternate.mpr (.inr (.inl he))) ?_
  intro p l q he hlow hhigh
  have haccept := valid_iff.mp hf.accept_valid
  rcases mem_edges_alternate.mp he with he | he | he | he | he | he
  · have hsource := hf.shifted_source_lt he
    omega
  · exact .inl he
  all_goals obtain ⟨rfl, rfl, rfl⟩ := mk_eq_silent.mp he
  · omega
  · omega
  · omega
  · exact .inr ⟨rfl, rfl, rfl⟩

theorem sink_alternate (hf : f.WellFormed) (hg : g.WellFormed) (l : Label) (q : Int) :
    ⟨(f.size : Int) + g.size + 1, l, q⟩ ∉ (f.alternate g).moves.edges := by
  intro he
  have hleft := valid_iff.mp hf.accept_valid
  have hright := valid_iff.mp hg.accept_valid
  rcases mem_edges_alternate.mp he with he | he | he | he | he | he
  · have hsource := hf.shifted_source_lt he
    omega
  · have hsource := hg.shifted_source_lt he
    omega
  all_goals
    obtain ⟨hsource, -, -⟩ := mk_eq_silent.mp he
    omega

theorem start_alternate (hf : f.WellFormed) (hg : g.WellFormed) {l : Label} {q : Int}
    (he : ⟨0, l, q⟩ ∈ (f.alternate g).moves.edges) :
    l = none ∧ (q = 1 ∨ q = (f.size : Int) + 1) := by
  have hleft := valid_iff.mp hf.accept_valid
  have hright := valid_iff.mp hg.accept_valid
  rcases mem_edges_alternate.mp he with he | he | he | he | he | he
  · have hsource := hf.shifted_source_lt he
    omega
  · have hsource := hg.shifted_source_lt he
    omega
  all_goals obtain ⟨hsource, hl, hq⟩ := mk_eq_silent.mp he
  · exact ⟨hl, .inl hq⟩
  · exact ⟨hl, .inr hq⟩
  · omega
  · omega

theorem language_alternate (hf : f.WellFormed) (hg : g.WellFormed) :
    (f.alternate g).language = f.language + g.language := by
  have hleft := copy_alternate_left (f := f) hg
  have hright := copy_alternate_right (g := g) hf
  refine Language.ext fun word => ?_
  rw [Language.mem_add]
  constructor
  · intro hword
    obtain ⟨ls, hpath, rfl⟩ := mem_language.mp hword
    cases ls with
    | nil =>
        have hzero : (0 : Int) = (f.size : Int) + g.size + 1 := path_nil.mp hpath
        omega
    | cons l ls =>
        obtain ⟨r, he, hpath⟩ := path_cons.mp hpath
        obtain ⟨rfl, hr⟩ := start_alternate hf hg he
        rw [List.reduceOption_cons_of_none]
        rcases hr with rfl | rfl
        · exact .inl (hleft.mem_language_of_path hf (by omega) (sink_alternate hf hg) hpath)
        · exact .inr (hright.mem_language_of_path hg (by omega) (sink_alternate hf hg) hpath)
  · rintro (hword | hword)
    · refine mem_language.mpr (.then_silent (.after_silent ?_ (hleft.reads hword)) ?_)
      · exact mem_edges_alternate.mpr (.inr (.inr (.inl rfl)))
      · exact mem_edges_alternate.mpr (.inr (.inr (.inr (.inr (.inl rfl)))))
    · refine mem_language.mpr (.then_silent (.after_silent ?_ (hright.reads hword)) ?_)
      · exact mem_edges_alternate.mpr (.inr (.inr (.inr (.inl rfl))))
      · exact mem_edges_alternate.mpr (.inr (.inr (.inr (.inr (.inr rfl)))))

-- Repetition and omission

theorem copy_wrap (f : Fragment) (loop skip : Bool) :
    Copy f (f.wrap loop skip) 1 {q | loop = true ∧ q = 1 ∨ q = (f.size : Int) + 1} := by
  refine .of_shifted (fun e he => mem_edges_wrap.mpr (.inl he)) ?_
  intro p l q he hlow hhigh
  rcases mem_edges_wrap.mp he with he | he | ⟨hloop, he⟩ | ⟨-, he⟩ | he
  · exact .inl he
  all_goals obtain ⟨rfl, rfl, rfl⟩ := mk_eq_silent.mp he
  · omega
  · exact .inr ⟨rfl, rfl, .inl ⟨hloop, rfl⟩⟩
  · omega
  · exact .inr ⟨rfl, rfl, .inr rfl⟩

theorem sink_wrap (hf : f.WellFormed) (loop skip : Bool) (l : Label) (q : Int) :
    ⟨(f.size : Int) + 1, l, q⟩ ∉ (f.wrap loop skip).moves.edges := by
  intro he
  have haccept := valid_iff.mp hf.accept_valid
  rcases mem_edges_wrap.mp he with he | he | ⟨-, he⟩ | ⟨-, he⟩ | he
  · have hsource := hf.shifted_source_lt he
    omega
  all_goals
    obtain ⟨hsource, -, -⟩ := mk_eq_silent.mp he
    omega

theorem start_wrap (hf : f.WellFormed) {loop skip : Bool} {l : Label} {q : Int}
    (he : ⟨0, l, q⟩ ∈ (f.wrap loop skip).moves.edges) :
    l = none ∧ (q = 1 ∨ skip = true ∧ q = (f.size : Int) + 1) := by
  have haccept := valid_iff.mp hf.accept_valid
  rcases mem_edges_wrap.mp he with he | he | ⟨-, he⟩ | ⟨hskip, he⟩ | he
  · have hsource := hf.shifted_source_lt he
    omega
  all_goals obtain ⟨hsource, hl, hq⟩ := mk_eq_silent.mp he
  · exact ⟨hl, .inl hq⟩
  · omega
  · exact ⟨hl, .inr ⟨hskip, hq⟩⟩
  · omega

-- What is read from the start of the operand to the end: one of its words, or several in a loop.
def passes (loop : Bool) (l : Language Char) : Language Char := if loop then l * l∗ else l

-- A run is cut each time that it goes back, and what is left is shorter.
theorem mem_passes_of_path (hf : f.WellFormed) {loop skip : Bool} {ls : List Label}
    (hpath : (f.wrap loop skip).Path 1 ((f.size : Int) + 1) ls) :
    ls.reduceOption ∈ passes loop f.language := by
  induction hlength : ls.length using Nat.strong_induction_on generalizing ls with
  | _ n ih =>
      obtain ⟨before, after, r, rfl, hbefore, hr, hafter⟩ :=
        (copy_wrap f loop skip).exists_of_path hf (by omega) hpath
      rw [List.reduceOption_append, List.reduceOption_cons_of_none]
      rcases hr with ⟨rfl, rfl⟩ | rfl
      · have hshorter : after.length < n := by
          simp only [List.length_append, List.length_cons] at hlength
          omega
        have hrest := ih after.length hshorter hafter rfl
        simp only [passes, if_true] at hrest ⊢
        refine Language.append_mem_mul hbefore ?_
        rw [← Language.one_add_self_mul_kstar_eq_kstar]
        exact (Language.mem_add _ _ _).mpr (.inr hrest)
      · obtain ⟨-, rfl⟩ := hafter.eq_of_sink (sink_wrap hf loop skip)
        rw [List.reduceOption_nil, List.append_nil]
        cases loop with
        | false => exact hbefore
        | true =>
            have hmem := Language.append_mem_mul hbefore (Language.nil_mem_kstar f.language)
            rwa [List.append_nil] at hmem

theorem reads_of_mem_passes {loop skip : Bool} {word : List Char}
    (hword : word ∈ passes loop f.language) :
    (f.wrap loop skip).Reads 1 (1 + f.accept) word := by
  have hcopy := copy_wrap f loop skip
  cases loop with
  | false => exact hcopy.reads hword
  | true =>
      obtain ⟨u, hu, v, hv, rfl⟩ := Language.mem_mul.mp hword
      obtain ⟨words, rfl, hwords⟩ := Language.mem_kstar.mp hv
      clear hv hword
      induction words generalizing u with
      | nil =>
          rw [List.flatten_nil, List.append_nil]
          exact hcopy.reads hu
      | cons w words ih =>
          obtain ⟨hw, hwords⟩ := List.forall_mem_cons.mp hwords
          have hback : silent (1 + f.accept) 1 ∈ (f.wrap true skip).moves.edges :=
            mem_edges_wrap.mpr (.inr (.inr (.inl ⟨rfl, rfl⟩)))
          exact ((hcopy.reads hu).then_silent hback).append (ih w hw hwords)

theorem language_wrap (hf : f.WellFormed) (loop skip : Bool) :
    (f.wrap loop skip).language = passes loop f.language + if skip then 1 else 0 := by
  refine Language.ext fun word => ?_
  rw [Language.mem_add]
  constructor
  · intro hword
    obtain ⟨ls, hpath, rfl⟩ := mem_language.mp hword
    cases ls with
    | nil =>
        have hzero : (0 : Int) = (f.size : Int) + 1 := path_nil.mp hpath
        omega
    | cons l ls =>
        obtain ⟨r, he, hpath⟩ := path_cons.mp hpath
        obtain ⟨rfl, hr⟩ := start_wrap hf he
        rw [List.reduceOption_cons_of_none]
        rcases hr with rfl | ⟨rfl, rfl⟩
        · exact .inl (mem_passes_of_path hf hpath)
        · obtain ⟨-, rfl⟩ := hpath.eq_of_sink (sink_wrap hf loop true)
          exact .inr rfl
  · rintro (hword | hword)
    · refine mem_language.mpr (.then_silent (.after_silent ?_ (reads_of_mem_passes hword)) ?_)
      · exact mem_edges_wrap.mpr (.inr (.inl rfl))
      · exact mem_edges_wrap.mpr (.inr (.inr (.inr (.inr rfl))))
    · cases skip with
      | false => exact absurd hword (Language.notMem_zero word)
      | true =>
          rw [(Language.mem_one word).mp hword]
          exact mem_language.mpr (reads_of_mem (mem_edges_wrap.mpr
            (.inr (.inr (.inr (.inl ⟨rfl, rfl⟩))))))

theorem language_star (hf : f.WellFormed) : f.star.language = f.language∗ := by
  have hwrap := language_wrap hf true true
  simp only [passes, if_true] at hwrap
  rw [star, hwrap, add_comm, Language.one_add_self_mul_kstar_eq_kstar]

theorem language_plus (hf : f.WellFormed) : f.plus.language = f.language * f.language∗ := by
  have hwrap := language_wrap hf true false
  simp only [passes, if_true, Bool.false_eq_true, if_false, add_zero] at hwrap
  exact hwrap

theorem language_optional (hf : f.WellFormed) : f.optional.language = f.language + 1 := by
  have hwrap := language_wrap hf false true
  simp only [passes, if_true, Bool.false_eq_true, if_false] at hwrap
  exact hwrap

-- Two states

theorem mem_language_choosing (labels : List Label) (word : List Char) :
    word ∈ (⟨2, 1, .ofEdges (labels.map fun l => ⟨0, l, 1⟩)⟩ : Fragment).language ↔
      ∃ l ∈ labels, l.toList = word := by
  have hedges : ∀ (p : Int) (l : Label) (q : Int),
      ⟨p, l, q⟩ ∈ (MoveRelation.ofEdges (labels.map fun l => ⟨0, l, 1⟩)).edges ↔
        p = 0 ∧ l ∈ labels ∧ q = 1 := by
    intro p l q
    rw [MoveRelation.mem_edges_ofEdges, List.mem_map]
    constructor
    · rintro ⟨_, hl, he⟩
      cases he
      exact ⟨rfl, hl, rfl⟩
    · rintro ⟨rfl, hl, rfl⟩
      exact ⟨l, hl, rfl⟩
  rw [mem_language]
  constructor
  · rintro ⟨ls, hpath, rfl⟩
    cases ls with
    | nil =>
        have hzero : (0 : Int) = 1 := path_nil.mp hpath
        omega
    | cons l ls =>
        obtain ⟨r, he, hpath⟩ := path_cons.mp hpath
        obtain ⟨-, hl, rfl⟩ := (hedges 0 l r).mp he
        obtain ⟨-, rfl⟩ := hpath.eq_of_sink fun m q hm =>
          absurd ((hedges 1 m q).mp hm).1 (by decide)
        exact ⟨l, hl, (List.reduceOption_singleton l).symm⟩
  · rintro ⟨l, hl, rfl⟩
    exact reads_of_mem ((hedges 0 l 1).mpr ⟨rfl, hl, rfl⟩)

theorem mem_language_reading {l : Label} {word : List Char} :
    word ∈ (reading l).language ↔ l.toList = word := by
  have hchoosing := mem_language_choosing [l] word
  simp only [List.mem_singleton, exists_eq_left] at hchoosing
  exact hchoosing

theorem language_epsilon : epsilon.language = 1 := by
  refine Language.ext fun word => ?_
  rw [epsilon, mem_language_reading, Language.mem_one, Option.toList_none, eq_comm]

theorem language_char (c : Char) : (char c).language = {[c]} := by
  refine Language.ext fun word => ?_
  rw [char, mem_language_reading, Option.toList_some, eq_comm]
  rfl

theorem mem_language_chars {cs : Ascending Char} {word : List Char} :
    word ∈ (chars cs).language ↔ ∃ c ∈ cs, word = [c] := by
  have hchoosing := mem_language_choosing (cs.toList.map some) word
  rw [List.map_map] at hchoosing
  refine hchoosing.trans ?_
  simp only [List.mem_map, Ascending.mem_toList, exists_exists_and_eq_and, Option.toList_some,
    eq_comm (b := word)]

-- Sequences of any length

theorem language_foldl_concat {fs : List Fragment} (hf : f.WellFormed)
    (hfs : ∀ g ∈ fs, g.WellFormed) :
    (fs.foldl concat f).language = f.language * (fs.map language).prod := by
  induction fs generalizing f with
  | nil => rw [List.foldl_nil, List.map_nil, List.prod_nil, mul_one]
  | cons g fs ih =>
      obtain ⟨hg, hfs⟩ := List.forall_mem_cons.mp hfs
      rw [List.foldl_cons, ih (hf.concat hg) hfs, language_concat hf hg, List.map_cons,
        List.prod_cons, mul_assoc]

theorem language_concatAll {fs : List Fragment} (hfs : ∀ f ∈ fs, f.WellFormed) :
    (concatAll fs).language = (fs.map language).prod := by
  cases fs with
  | nil => exact language_epsilon
  | cons f fs =>
      obtain ⟨hf, hfs⟩ := List.forall_mem_cons.mp hfs
      rw [concatAll, language_foldl_concat hf hfs, List.map_cons, List.prod_cons]

end Fragment

end FiniteAutomata
