import FiniteAutomata.Json.Double
import FiniteAutomata.Label

/-!
Marks: what may stand on a move whose label nobody checks, a text of any length or a number.
Numbers ascend by value, texts by their characters, and numbers come before texts.
-/

namespace FiniteAutomata

inductive Mark where
  | number (value : Rat)
  | text (s : String)
deriving DecidableEq

namespace Mark

def compareNumbers (a b : Rat) : Ordering :=
  if a.blt b then .lt else if b.blt a then .gt else .eq

theorem isLE_compareNumbers {a b : Rat} : (compareNumbers a b).isLE = true ↔ a ≤ b := by
  unfold compareNumbers
  split
  · rename_i hab
    exact iff_of_true rfl (Rat.le_of_lt hab)
  · split
    · rename_i hba
      exact iff_of_false (by decide) (Rat.not_le.mpr hba)
    · rename_i hba
      exact iff_of_true rfl (Rat.not_lt.mp hba)

theorem compareNumbers_swap {a b : Rat} : compareNumbers a b = (compareNumbers b a).swap := by
  unfold compareNumbers
  split
  · rename_i hab
    have hba : ¬ b.blt a = true := Rat.not_lt.mpr (Rat.le_of_lt hab)
    rw [if_neg hba]
    rfl
  · split <;> rfl

instance : Std.TransCmp compareNumbers where
  eq_swap := compareNumbers_swap
  isLE_trans hab hbc :=
    isLE_compareNumbers.mpr
      (Rat.le_trans (isLE_compareNumbers.mp hab) (isLE_compareNumbers.mp hbc))

instance : Std.LawfulEqCmp compareNumbers where
  compare_self := Std.ReflCmp.compare_self
  eq_of_compare {a b} h := by
    have hba : compareNumbers b a = .eq := by rw [compareNumbers_swap, h]; rfl
    exact Rat.le_antisymm (isLE_compareNumbers.mp (h ▸ rfl)) (isLE_compareNumbers.mp (hba ▸ rfl))

def order : Mark → Mark → Ordering
  | number a, number b => compareNumbers a b
  | number _, text _ => .lt
  | text _, number _ => .gt
  | text s, text t => compare s t

instance : Ord Mark := ⟨order⟩

instance : Std.OrientedOrd Mark where
  eq_swap {a b} := by
    cases a <;> cases b
    · exact compareNumbers_swap
    · rfl
    · rfl
    · exact Std.OrientedOrd.eq_swap (α := String)

instance : Std.TransOrd Mark where
  isLE_trans {a b c} hab hbc := by
    cases a <;> cases b <;> cases c
    · exact (inferInstance : Std.TransCmp compareNumbers).isLE_trans hab hbc
    · rfl
    · exact nomatch hbc
    · rfl
    · exact nomatch hab
    · exact nomatch hab
    · exact nomatch hbc
    · exact Std.TransOrd.isLE_trans (α := String) hab hbc

instance : Std.LawfulEqOrd Mark where
  compare_self {a} := by
    cases a
    · exact (inferInstance : Std.ReflCmp compareNumbers).compare_self
    · exact Std.ReflOrd.compare_self (α := String)
  eq_of_compare {a b} h := by
    cases a <;> cases b
    · exact congrArg number ((inferInstance : Std.LawfulEqCmp compareNumbers).eq_of_compare h)
    · exact nomatch h
    · exact nomatch h
    · exact congrArg text (Std.LawfulEqOrd.eq_of_compare (α := String) h)

-- A text, or the value of a number or a truth value; nothing else is a mark.
def ofJson? : Json → Option Mark
  | .string s => some (text s)
  | value => value.quotient?.map fun (n, d) => number (mkRat n d)

end Mark

end FiniteAutomata
