import FiniteAutomata.MoveRelation

/-!
The states reached by silent moves. Main statement: a walk that follows the silent moves of each
state once visits exactly the states that can be reached (`mem_visit`).
-/

namespace FiniteAutomata

-- What can be reached from the states `starts`: they themselves, and what follows a state that
-- can be reached.
inductive Reaches (next : State → Ascending State) (starts : List State) : State → Prop where
  | start {p : State} (hp : p ∈ starts) : Reaches next starts p
  | follow {p q : State} (hp : Reaches next starts p) (hq : q ∈ next p) : Reaches next starts q

-- Whatever is reached was given or follows some state.
theorem Reaches.mem_or_next {next : State → Ascending State} {starts : List State} {q : State}
    (h : Reaches next starts q) : q ∈ starts ∨ ∃ p, q ∈ next p := by
  cases h with
  | start hq => exact Or.inl hq
  | follow _ hq => exact Or.inr ⟨_, hq⟩

theorem not_reaches_nil {next : State → Ascending State} {q : State} : ¬ Reaches next [] q := by
  intro h
  induction h with
  | start hq => exact nomatch hq
  | follow _ _ ih => exact ih

namespace MoveTable

variable {σ : Type} [Ord σ]

-- Where the silent moves of a state lead.
def silent (t : MoveTable σ) (p : State) : Ascending State := t.getD ⟨p, none⟩ ∅

-- The table without the silent moves of a state.
def hush (t : MoveTable σ) (p : State) : MoveTable σ := t.erase ⟨p, none⟩

theorem size_hush_lt [Std.TransOrd σ] {t : MoveTable σ} {p : State} (hp : ⟨p, none⟩ ∈ t) :
    (t.hush p).size < t.size := by
  have hpos : t.size ≠ 0 := fun h => by
    refine Std.TreeMap.not_mem_of_isEmpty ?_ hp
    rw [Std.TreeMap.isEmpty_eq_size_eq_zero, h]
    rfl
  rw [hush, Std.TreeMap.size_erase, if_pos (Std.TreeMap.mem_iff_contains.mp hp)]
  omega

theorem silent_hush_self [Std.TransOrd σ] {t : MoveTable σ} {p : State} :
    (t.hush p).silent p = ∅ := Std.TreeMap.getD_erase_self

theorem silent_hush [Std.TransOrd σ] [Std.LawfulEqOrd σ] {t : MoveTable σ} {p q : State}
    (h : q ≠ p) : (t.hush p).silent q = t.silent q := by
  rw [silent, hush, Std.TreeMap.getD_erase, if_neg]
  · rfl
  · rw [Std.compare_eq_iff_eq, Key.mk.injEq]
    exact fun e => h e.1.symm

-- The states visited from those that wait. The silent moves of a visited state are followed once
-- and not needed again.
def visit [Std.TransOrd σ] (t : MoveTable σ) (waiting : List State) : List State :=
  match waiting with
  | [] => []
  | p :: ps => p :: visit (t.hush p) ((t.silent p).toList ++ ps)
termination_by (t.size, waiting.length)
decreasing_by
  by_cases hp : (⟨p, none⟩ : Key σ) ∈ t
  · exact Prod.Lex.left _ _ (size_hush_lt hp)
  · have hsilent : t.silent p = ∅ := Std.TreeMap.getD_eq_fallback hp
    rw [hsilent]
    exact Prod.Lex.right' _ Std.TreeMap.size_erase_le (Nat.lt_succ_self _)

variable [Std.TransOrd σ] [Std.LawfulEqOrd σ]

-- The silent moves of `p` are no loss to who has reached `p`.
theorem reaches_of_visited {t : MoveTable σ} {p q : State} {ps : List State}
    (h : Reaches (t.hush p).silent ((t.silent p).toList ++ ps) q) :
    Reaches t.silent (p :: ps) q := by
  induction h with
  | start hq =>
    cases List.mem_append.mp hq with
    | inl hq => exact .follow (.start List.mem_cons_self) hq
    | inr hq => exact .start (List.mem_cons_of_mem p hq)
  | @follow r q _ hq ih =>
    by_cases hr : r = p
    · rw [hr, silent_hush_self] at hq
      exact absurd hq Ascending.not_mem_empty
    · exact .follow ih (silent_hush (t := t) hr ▸ hq)

-- Past the last visit to `p` no silent move leaves it.
theorem reaches_of_ne {t : MoveTable σ} {p q : State} {ps : List State}
    (h : Reaches t.silent (p :: ps) q) (hq : q ≠ p) :
    Reaches (t.hush p).silent ((t.silent p).toList ++ ps) q := by
  induction h with
  | start hmem => exact .start (List.mem_append_right _ ((List.mem_cons.mp hmem).resolve_left hq))
  | @follow r q _ hnext ih =>
    by_cases hr : r = p
    · exact .start (List.mem_append_left _ (hr ▸ hnext))
    · exact .follow (ih hr) (silent_hush (t := t) hr ▸ hnext)

theorem mem_visit {t : MoveTable σ} {ps : List State} {q : State} :
    q ∈ t.visit ps ↔ Reaches t.silent ps q := by
  fun_induction visit t ps with
  | case1 => exact iff_of_false List.not_mem_nil not_reaches_nil
  | case2 t p ps ih =>
    rw [List.mem_cons, ih]
    constructor
    · rintro (rfl | h)
      · exact .start List.mem_cons_self
      · exact reaches_of_visited h
    · intro h
      by_cases hq : q = p
      · exact Or.inl hq
      · exact Or.inr (reaches_of_ne h hq)

end MoveTable

namespace MoveRelation

variable {σ : Type} [Ord σ] [Std.TransOrd σ] [Std.LawfulEqOrd σ]

-- The states reached from `starts` by silent moves, `starts` included.
def reach (r : MoveRelation σ) (starts : List State) : Ascending State :=
  .ofList (r.table.visit starts)

@[simp] theorem mem_reach {r : MoveRelation σ} {starts : List State} {q : State} :
    q ∈ r.reach starts ↔ Reaches r.silentTargets starts q := by
  rw [reach, Ascending.mem_ofList, MoveTable.mem_visit]
  exact Iff.rfl

end MoveRelation

end FiniteAutomata
