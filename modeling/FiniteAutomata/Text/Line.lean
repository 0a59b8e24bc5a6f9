/-!
Lines of text. A line ends at a line feed, a carriage return, both of them in this order, a line
or form tabulator, one of the separators U+001C to U+001E, the next line U+0085, or one of the
separators U+2028 and U+2029. Lines hold no such character (`not_isBreak_of_mem_lines`).
-/

namespace FiniteAutomata.Text

def isBreak (c : Char) : Bool :=
  let n := c.toNat
  0xA ≤ n && n ≤ 0xD || 0x1C ≤ n && n ≤ 0x1E || n = 0x85 || n = 0x2028 || n = 0x2029

-- The lines of a text. One that ends at the end of the text counts unless it is empty.
def lines : List Char → List (List Char)
  | [] => []
  | '\r' :: '\n' :: cs => [] :: lines cs
  | c :: cs =>
    if isBreak c then [] :: lines cs
    else
      match lines cs with
      | [] => [[c]]
      | line :: rest => (c :: line) :: rest

theorem not_isBreak_of_mem_lines {cs line : List Char} {c : Char} (hline : line ∈ lines cs)
    (hc : c ∈ line) : isBreak c = false := by
  fun_induction lines cs generalizing line with
  | case1 => exact nomatch hline
  | case2 cs ih =>
    cases List.mem_cons.mp hline with
    | inl h => exact nomatch (h ▸ hc)
    | inr h => exact ih h hc
  | case3 d cs _ _ ih =>
    cases List.mem_cons.mp hline with
    | inl h => exact nomatch (h ▸ hc)
    | inr h => exact ih h hc
  | case4 d cs _ hd hnil =>
    rw [List.mem_singleton.mp hline, List.mem_singleton] at hc
    exact hc ▸ Bool.eq_false_iff.mpr hd
  | case5 d cs _ hd first rest hrest ih =>
    cases List.mem_cons.mp hline with
    | inr h => exact ih (hrest ▸ List.mem_cons_of_mem first h) hc
    | inl h =>
      cases List.mem_cons.mp (h ▸ hc) with
      | inl e => exact e ▸ Bool.eq_false_iff.mpr hd
      | inr h => exact ih (hrest ▸ List.mem_cons_self) h

end FiniteAutomata.Text
