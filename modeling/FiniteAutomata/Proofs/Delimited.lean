import FiniteAutomata.Proofs.Lexemes
import Std.Data.String.ToInt

/-!
Texts between marks. What stands before the first occurrence of a mark is known from the whole text
(`Text.append_mark_inj`), and so are the items of a list that a mark separates
(`Text.intercalate_inj`). A written number holds none of the marks, and no two numbers are written
alike (`Text.toString_int_inj`).
-/

namespace FiniteAutomata.Text

section Marks

variable {α : Type} {x : α} {s t u v : List α} {l m : List (List α)}

theorem append_mark_inj (hs : x ∉ s) (ht : x ∉ t) (h : s ++ x :: u = t ++ x :: v) :
    s = t ∧ u = v := by
  induction s generalizing t with
  | nil =>
      cases t with
      | nil => simpa using h
      | cons b t =>
          have hxb : x = b := (List.cons.inj h).1
          exact absurd (hxb ▸ List.mem_cons_self) ht
  | cons a s ih =>
      cases t with
      | nil =>
          have hax : a = x := (List.cons.inj h).1
          exact absurd (hax ▸ List.mem_cons_self) hs
      | cons b t =>
          simp only [List.mem_cons, not_or] at hs ht
          obtain ⟨hab, hrest⟩ := List.cons.inj h
          obtain ⟨hst, huv⟩ := ih hs.2 ht.2 hrest
          exact ⟨by rw [hab, hst], huv⟩

-- What stands in the text stands in the separator or in an item.
theorem mem_intercalate (h : x ∈ s.intercalate l) : x ∈ s ∨ ∃ t ∈ l, x ∈ t := by
  induction l with
  | nil => simp at h
  | cons t l ih =>
      cases l with
      | nil => exact .inr ⟨t, List.mem_cons_self, by simpa using h⟩
      | cons u l =>
          rw [List.intercalate_cons_cons, List.append_assoc, List.mem_append, List.mem_append] at h
          rcases h with h | h | h
          · exact .inr ⟨t, List.mem_cons_self, h⟩
          · exact .inl h
          · cases ih h with
            | inl hs => exact .inl hs
            | inr hl =>
                obtain ⟨v, hv, hx⟩ := hl
                exact .inr ⟨v, List.mem_cons_of_mem t hv, hx⟩

theorem intercalate_cons_eq_flatMap (x : α) (s : List α) (l : List (List α)) :
    [x].intercalate (s :: l) = s ++ l.flatMap (x :: ·) := by
  induction l generalizing s with
  | nil => simp
  | cons t l ih => simp [ih]

theorem intercalate_inj [DecidableEq α] (hl : ∀ s ∈ l, x ∉ s) (hm : ∀ s ∈ m, x ∉ s) (hlne : l ≠ [])
    (hmne : m ≠ []) (h : [x].intercalate l = [x].intercalate m) : l = m := by
  rw [← List.splitOn_intercalate x hl hlne, h, List.splitOn_intercalate x hm hmne]

end Marks

section Numbers

theorem toString_int_inj {m n : Int} : toString m = toString n ↔ m = n := Int.repr_inj

theorem mem_toString_int {n : Int} {c : Char} (hc : c ∈ (toString n).toList) :
    c = '-' ∨ c.isDigit = true := by
  rw [Json.toList_toString, List.mem_append] at hc
  cases hc with
  | inl hc =>
      split at hc
      · exact .inl (List.mem_singleton.mp hc)
      · exact absurd hc List.not_mem_nil
  | inr hc => exact .inr (Nat.isDigit_of_mem_toDigits (by decide) (by decide) hc)

-- A character that is neither a sign nor a digit is in no number.
theorem not_mem_toString_int {n : Int} {c : Char} (hsign : c ≠ '-') (hdigit : c.isDigit = false) :
    c ∉ (toString n).toList := by
  intro hc
  cases mem_toString_int hc with
  | inl h => exact hsign h
  | inr h => simp [h] at hdigit

end Numbers

end FiniteAutomata.Text
