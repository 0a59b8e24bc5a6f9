import FiniteAutomata.Proofs.Lexemes
import Mathlib.Data.List.Forall2

/-!
The text of a JSON value, in either layout, consists of the value's tokens
(`Json.lexes_of_toText?`).
-/

namespace FiniteAutomata.Json

mutual

-- The tokens of a value.
def tokens : Json → List Token
  | .array items =>
    .openArray :: ([Token.comma].intercalate (itemTokens items) ++ [.closeArray])
  | .object members =>
    .openObject :: ([Token.comma].intercalate (memberTokens members) ++ [.closeObject])
  | .string s => [.string s]
  | value => [.scalar value]

def itemTokens : List Json → List (List Token)
  | [] => []
  | item :: items => tokens item :: itemTokens items

def memberTokens : List (String × Json) → List (List Token)
  | [] => []
  | (key, value) :: members => (.string key :: .colon :: tokens value) :: memberTokens members

end

-- The lexer takes the tokens from the characters, whatever comes after them.
def Lexes (cs : List Char) (ts : List Token) : Prop :=
  ∀ rest, Ends rest → tokens? (cs ++ rest) = (tokens? rest).map (ts ++ ·)

theorem Ends.append {cs ds : List Char} (hcs : Ends cs) (hds : Ends ds) : Ends (cs ++ ds) := by
  cases cs with
  | nil => exact hds
  | cons c cs => exact ends_cons.mpr (ends_cons.mp hcs)

theorem ends_of_blanks {gap : List Char} (hgap : ∀ c ∈ gap, isBlank c = true) : Ends gap := by
  cases gap with
  | nil => exact ends_nil
  | cons c gap =>
      have hc := (List.forall_mem_cons.mp hgap).1
      simp only [isBlank, Bool.or_eq_true, decide_eq_true_eq] at hc
      refine ends_cons.mpr ?_
      rcases hc with ((rfl | rfl) | rfl) | rfl <;> decide

theorem tokens?_of_blank {c : Char} (hc : isBlank c = true) (cs : List Char) :
    tokens? (c :: cs) = tokens? cs := by
  rw [tokens?, if_pos hc]

theorem tokens?_of_scan? {cs rest : List Char} {t : Token}
    (hblank : ∀ c ∈ cs.head?, isBlank c = false) (h : Token.scan? cs = some (t, rest)) :
    tokens? cs = (tokens? rest).map (t :: ·) := by
  fun_cases tokens? cs with
  | case1 => exact nomatch h
  | case2 c cs hc =>
      rw [hblank c rfl] at hc
      exact nomatch hc
  | case3 c cs hc hnone =>
      rw [h] at hnone
      exact nomatch hnone
  | case4 c cs hc u last hsome =>
      rw [h] at hsome
      cases hsome
      rfl

namespace Lexes

variable {cs ds : List Char} {ts us : List Token}

theorem nil : Lexes [] [] := fun rest _ => by simp

theorem append (hcs : Lexes cs ts) (hds : Lexes ds us) (hends : Ends ds) :
    Lexes (cs ++ ds) (ts ++ us) := by
  intro rest hrest
  rw [List.append_assoc, hcs _ (hends.append hrest), hds rest hrest, Option.map_map]
  congr 1
  funext us'
  exact (List.append_assoc ts us us').symm

theorem blanks {gap : List Char} (hgap : ∀ c ∈ gap, isBlank c = true) (hcs : Lexes cs ts) :
    Lexes (gap ++ cs) ts := by
  induction gap with
  | nil => exact hcs
  | cons c gap ih =>
      obtain ⟨hc, hgap⟩ := List.forall_mem_cons.mp hgap
      intro rest hrest
      rw [List.cons_append, List.cons_append, tokens?_of_blank hc]
      exact ih hgap rest hrest

end Lexes

-- A character that is a token by itself.
structure Marks (c : Char) (t : Token) : Prop where
  not_blank : isBlank c = false
  ends : Ends [c]
  scan? : ∀ rest, Token.scan? (c :: rest) = some (t, rest)

theorem Marks.lexes {c : Char} {t : Token} {cs : List Char} {ts : List Token} (hc : Marks c t)
    (hcs : Lexes cs ts) : Lexes (c :: cs) (t :: ts) := by
  intro rest hrest
  have hblank : ∀ d ∈ (c :: cs ++ rest).head?, isBlank d = false := by
    intro d hd
    cases hd
    exact hc.not_blank
  have hscan : Token.scan? (c :: cs ++ rest) = some (t, cs ++ rest) := hc.scan? _
  rw [tokens?_of_scan? hblank hscan, hcs rest hrest, Option.map_map]
  rfl

theorem ends_singleton {c : Char} (hc : c.isDigit = false ∧ c ≠ '.' ∧ c ≠ 'e' ∧ c ≠ 'E') :
    Ends [c] := ends_cons.mpr hc

theorem marks_openArray : Marks '[' .openArray :=
  ⟨rfl, ends_singleton (by decide), fun _ => rfl⟩

theorem marks_closeArray : Marks ']' .closeArray :=
  ⟨rfl, ends_singleton (by decide), fun _ => rfl⟩

theorem marks_openObject : Marks '\x7b' .openObject :=
  ⟨rfl, ends_singleton (by decide), fun _ => rfl⟩

theorem marks_closeObject : Marks '\x7d' .closeObject :=
  ⟨rfl, ends_singleton (by decide), fun _ => rfl⟩

theorem marks_colon : Marks ':' .colon := ⟨rfl, ends_singleton (by decide), fun _ => rfl⟩

theorem marks_comma : Marks ',' .comma := ⟨rfl, ends_singleton (by decide), fun _ => rfl⟩

-- Values without parts

theorem lexes_of_scan? {c : Char} {cs : List Char} {t : Token} (hc : isBlank c = false)
    (h : ∀ rest, Ends rest → Token.scan? (c :: cs ++ rest) = some (t, rest)) :
    Lexes (c :: cs) [t] := by
  intro rest hrest
  have hblank : ∀ d ∈ (c :: cs ++ rest).head?, isBlank d = false := by
    intro d hd
    cases hd
    exact hc
  rw [tokens?_of_scan? hblank (h rest hrest)]
  rfl

theorem lexes_writeString (s : String) : Lexes (writeString s).toList [.string s] := by
  rw [writeString, String.toList_ofList, List.cons_append]
  refine lexes_of_scan? rfl fun rest _ => ?_
  have hbody := stringBody?_flatMap s.toList rest
  simp only [List.cons_append, List.append_assoc, List.nil_append, Token.scan?, hbody,
    Option.map_some, String.ofList_toList]

theorem scan?_of_numeral {c : Char} {cs : List Char} (hc : c.isDigit = true ∨ c = '-') :
    Token.scan? (c :: cs) = (number? (c :: cs)).map fun (value, rest) => (.scalar value, rest) := by
  unfold Token.scan?
  split
  case h_11 => rfl
  all_goals
    rename_i heq
    cases heq
    exact absurd hc (by decide)

theorem lexes_of_number? {cs : List Char} {value : Json} (hcs : Begins cs)
    (h : ∀ rest, Ends rest → number? (cs ++ rest) = some (value, rest)) :
    Lexes cs [.scalar value] := by
  obtain ⟨c, ds, rfl, hc⟩ := hcs
  have hblank : isBlank c = false := by
    rw [Bool.eq_false_iff]
    intro hblank
    simp only [isBlank, Bool.or_eq_true, decide_eq_true_eq] at hblank
    rcases hblank with ((rfl | rfl) | rfl) | rfl <;> exact absurd hc (by decide)
  refine lexes_of_scan? hblank fun rest hrest => ?_
  have hnumber := h rest hrest
  rw [List.cons_append] at hnumber ⊢
  rw [scan?_of_numeral hc, hnumber]
  rfl

theorem lexes_toString (n : Int) : Lexes (toString n).toList [.scalar (.int n)] :=
  lexes_of_number? (begins_toString n) fun _ => number?_int n

theorem lexes_writeDecimal (d : Decimal) : Lexes (writeDecimal d).toList [.scalar (.decimal d)] :=
  lexes_of_number? (begins_writeDecimal d) fun _ => number?_decimal d

theorem lexes_null : Lexes "null".toList [.scalar .null] :=
  lexes_of_scan? rfl fun _ _ => rfl

theorem lexes_writeBool (b : Bool) : Lexes (writeBool b).toList [.scalar (.bool b)] := by
  cases b with
  | false => exact lexes_of_scan? rfl fun _ _ => rfl
  | true => exact lexes_of_scan? rfl fun _ _ => rfl

-- Arrays and objects

-- Texts with commas between them, each comma before a gap of blanks.
theorem lexes_separated {gap : List Char} (hgap : ∀ c ∈ gap, isBlank c = true)
    {texts : List (List Char)} {tss : List (List Token)} (h : List.Forall₂ Lexes texts tss) :
    Lexes ((',' :: gap).intercalate texts) ([Token.comma].intercalate tss) := by
  induction h with
  | nil => exact .nil
  | @cons cs ts texts tss hcs h ih =>
      cases h with
      | nil => simpa using hcs
      | cons hds h =>
          rw [List.intercalate_cons_cons, List.intercalate_cons_cons, List.append_assoc,
            List.append_assoc]
          have hrest := marks_comma.lexes (ih.blanks hgap)
          exact hcs.append hrest (ends_cons.mpr (by decide))

-- The same between brackets, with a gap on the inner side of each.
theorem lexes_bracketed {c d : Char} {t u : Token} (hc : Marks c t) (hd : Marks d u)
    (gap last : List Char) (hgap : ∀ c ∈ gap, isBlank c = true)
    (hlast : ∀ c ∈ last, isBlank c = true) {texts : List (List Char)} {tss : List (List Token)}
    (h : List.Forall₂ Lexes texts tss) :
    Lexes (c :: (gap ++ ((',' :: gap).intercalate texts ++ (last ++ [d]))))
      (t :: ([Token.comma].intercalate tss ++ [u])) := by
  have hends : Ends (last ++ [d]) := (ends_of_blanks hlast).append hd.ends
  have hstop : Lexes (last ++ [d]) [u] := (hd.lexes .nil).blanks hlast
  exact hc.lexes (((lexes_separated hgap h).append hstop hends).blanks hgap)

theorem lexes_member (gap : List Char) (hgap : ∀ c ∈ gap, isBlank c = true) (key : String)
    {cs : List Char} {ts : List Token} (h : Lexes cs ts) :
    Lexes ((writeString key).toList ++ ':' :: (gap ++ cs)) (.string key :: .colon :: ts) :=
  (lexes_writeString key).append (marks_colon.lexes (h.blanks hgap)) (ends_cons.mpr (by decide))

mutual

theorem lexes_compact : (value : Json) → Lexes value.compact.toList value.tokens
  | .null => lexes_null
  | .bool b => lexes_writeBool b
  | .int n => lexes_toString n
  | .decimal d => lexes_writeDecimal d
  | .string s => lexes_writeString s
  | .array items => by
    have h := lexes_bracketed marks_openArray marks_closeArray [] [] nofun nofun
      (lexes_compactItems items)
    simpa [compact, tokens] using h
  | .object members => by
    have h := lexes_bracketed marks_openObject marks_closeObject [] [] nofun nofun
      (lexes_compactMembers members)
    simpa [compact, tokens] using h

theorem lexes_compactItems : (items : List Json) →
    List.Forall₂ Lexes ((compactItems items).map String.toList) (itemTokens items)
  | [] => .nil
  | item :: items => .cons (lexes_compact item) (lexes_compactItems items)

theorem lexes_compactMembers : (members : List (String × Json)) →
    List.Forall₂ Lexes ((compactMembers members).map String.toList) (memberTokens members)
  | [] => .nil
  | (key, value) :: members => by
    have h := lexes_member [] nofun key (lexes_compact value)
    refine .cons ?_ (lexes_compactMembers members)
    simpa using h

end

theorem isBlank_of_mem_newline {level : Nat} {c : Char} (hc : c ∈ (newline level).toList) :
    isBlank c = true := by
  rw [newline, String.toList_ofList] at hc
  rcases List.mem_cons.mp hc with rfl | hc
  · rfl
  · rw [(List.mem_replicate.mp hc).2]
    rfl

-- Brackets around nothing stand together, all others have an item on each line.
theorem lexes_bracket {c d : Char} {t u : Token} (hc : Marks c t) (hd : Marks d u) (level : Nat)
    {texts : List String} {tss : List (List Token)}
    (h : List.Forall₂ Lexes (texts.map String.toList) tss) :
    Lexes (bracket (String.singleton c) (String.singleton d) level texts).toList
      (t :: ([Token.comma].intercalate tss ++ [u])) := by
  cases texts with
  | nil =>
      cases h
      simpa [bracket] using hc.lexes (hd.lexes .nil)
  | cons text texts =>
      have hlines := lexes_bracketed hc hd (newline (level + 1)).toList (newline level).toList
        (fun _ => isBlank_of_mem_newline) (fun _ => isBlank_of_mem_newline) h
      simpa [bracket] using hlines

mutual

theorem lexes_prettyAt (level : Nat) : (value : Json) →
    Lexes (value.prettyAt level).toList value.tokens
  | .null => lexes_null
  | .bool b => lexes_writeBool b
  | .int n => lexes_toString n
  | .decimal d => lexes_writeDecimal d
  | .string s => lexes_writeString s
  | .array items =>
    lexes_bracket marks_openArray marks_closeArray level (lexes_prettyItems (level + 1) items)
  | .object members =>
    lexes_bracket marks_openObject marks_closeObject level (lexes_prettyMembers (level + 1) members)

theorem lexes_prettyItems (level : Nat) : (items : List Json) →
    List.Forall₂ Lexes ((prettyItems level items).map String.toList) (itemTokens items)
  | [] => .nil
  | item :: items => .cons (lexes_prettyAt level item) (lexes_prettyItems level items)

theorem lexes_prettyMembers (level : Nat) : (members : List (String × Json)) →
    List.Forall₂ Lexes ((prettyMembers level members).map String.toList) (memberTokens members)
  | [] => .nil
  | (key, value) :: members => by
    have hgap : ∀ c ∈ [' '], isBlank c = true := by
      intro c hc
      rw [List.mem_singleton.mp hc]
      rfl
    have h := lexes_member [' '] hgap key (lexes_prettyAt level value)
    refine .cons ?_ (lexes_prettyMembers level members)
    simpa using h

end

theorem Lexes.tokens? {cs : List Char} {ts : List Token} (h : Lexes cs ts) :
    tokens? cs = some ts := by
  have hall := h [] ends_nil
  rw [List.append_nil, Json.tokens?] at hall
  simpa using hall

theorem lexes_of_toText? {value : Json} {indent : Bool} {text : String}
    (ht : value.toText? indent = some text) : Lexes text.toList value.tokens := by
  unfold toText? at ht
  split at ht
  · cases ht
    cases indent with
    | false => exact lexes_compact value
    | true => exact lexes_prettyAt 0 value
  · exact nomatch ht

end FiniteAutomata.Json
