import FiniteAutomata.Json.Numeral
import FiniteAutomata.Json.StringBody

/-!
The tokens of JSON text (RFC 8259, read strictly) and the lexer. Blanks between tokens are the
four of the standard.
-/

namespace FiniteAutomata

namespace Json

inductive Token where
  | openArray
  | closeArray
  | openObject
  | closeObject
  | colon
  | comma
  | string (s : String)
  -- a value without parts: `null`, a truth value or a number
  | scalar (value : Json)
deriving BEq

def isBlank (c : Char) : Bool := c = ' ' || c = '\t' || c = '\n' || c = '\r'

namespace Token

def scan? : List Char → Option (Token × List Char)
  | '[' :: rest => some (openArray, rest)
  | ']' :: rest => some (closeArray, rest)
  | '\x7b' :: rest => some (openObject, rest)
  | '\x7d' :: rest => some (closeObject, rest)
  | ':' :: rest => some (colon, rest)
  | ',' :: rest => some (comma, rest)
  | '"' :: rest => (stringBody? rest).map fun (xs, rest) => (string (String.ofList xs), rest)
  | 'n' :: 'u' :: 'l' :: 'l' :: rest => some (scalar .null, rest)
  | 't' :: 'r' :: 'u' :: 'e' :: rest => some (scalar (.bool true), rest)
  | 'f' :: 'a' :: 'l' :: 's' :: 'e' :: rest => some (scalar (.bool false), rest)
  | cs => (number? cs).map fun (value, rest) => (scalar value, rest)

theorem length_scan? {cs rest : List Char} {t : Token} (h : scan? cs = some (t, rest)) :
    rest.length < cs.length := by
  unfold scan? at h
  split at h
  case h_7 =>
    obtain ⟨⟨xs, last⟩, hxs, h⟩ := Option.map_eq_some_iff.mp h
    cases h
    exact Nat.lt_succ_of_lt (length_stringBody? hxs)
  case h_11 =>
    obtain ⟨⟨value, last⟩, hvalue, h⟩ := Option.map_eq_some_iff.mp h
    cases h
    exact length_number? hvalue
  all_goals
    cases h
    simp only [List.length_cons]
    omega

end Token

def tokens? (cs : List Char) : Option (List Token) :=
  match cs with
  | [] => some []
  | c :: cs =>
    if isBlank c then tokens? cs
    else
      match _h : Token.scan? (c :: cs) with
      | none => none
      | some (t, rest) =>
        (tokens? rest).map (t :: ·)
termination_by cs.length
decreasing_by
  · exact Nat.lt_succ_self _
  · exact Token.length_scan? _h

end Json

end FiniteAutomata
