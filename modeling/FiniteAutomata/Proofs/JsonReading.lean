import FiniteAutomata.Json.Reader
import FiniteAutomata.Proofs.Delimited
import FiniteAutomata.Proofs.JsonText

/-!
Written JSON is read back: the tokens of a value are taken one by one until it is whole
(`Json.ofTokens?_tokens`), so a text that was written is read as the value it was written for
(`Json.read?_of_toText?`). The reader must not be stopped by its limits, and no key of an object
may occur twice (`Json.Readable`).
-/

namespace FiniteAutomata.Json

mutual

-- Inside so many open arrays and objects, the reader takes the value as it stands.
def Readable (limits : Limits) (opened : Nat) : Json → Prop
  | .array items => limits.allows opened = true ∧ ReadableItems limits (opened + 1) items
  | .object members =>
    limits.allows opened = true ∧ (members.map Prod.fst).Nodup ∧
      ReadableMembers limits (opened + 1) members
  | .string _ => True
  | value => limits.scalar? value = some value

def ReadableItems (limits : Limits) (opened : Nat) : List Json → Prop
  | [] => True
  | item :: items => item.Readable limits opened ∧ ReadableItems limits opened items

def ReadableMembers (limits : Limits) (opened : Nat) : List (String × Json) → Prop
  | [] => True
  | (_, value) :: members => value.Readable limits opened ∧ ReadableMembers limits opened members

end

theorem putMember_of_not_mem {key : String} (value : Json) {members : List (String × Json)}
    (h : key ∉ members.map Prod.fst) : putMember key value members = members ++ [(key, value)] := by
  induction members with
  | nil => rfl
  | cons m members ih =>
      obtain ⟨k, v⟩ := m
      simp only [List.map_cons, List.mem_cons, not_or] at h
      rw [putMember, if_neg (Ne.symm h.1), ih h.2]
      rfl

theorem not_mem_of_nodup_keys {k : String} {v : Json} {done members : List (String × Json)}
    (h : ((done ++ (k, v) :: members).map Prod.fst).Nodup) : k ∉ done.map Prod.fst := by
  intro hk
  rw [List.map_append, List.map_cons] at h
  exact (List.nodup_append.mp h).2.2 k hk k List.mem_cons_self rfl

namespace Reading

variable {limits : Limits}

-- The reading after some more tokens.
def run? (limits : Limits) (r : Reading) (ts : List Token) : Option Reading :=
  ts.foldlM (step limits) r

theorem run?_cons {r s : Reading} {t : Token} {ts : List Token} (h : step limits r t = some s) :
    run? limits r (t :: ts) = run? limits s ts := by
  rw [run?, List.foldlM_cons, h]
  rfl

theorem run?_append {r s : Reading} {ts us : List Token} (h : run? limits r ts = some s) :
    run? limits r (ts ++ us) = run? limits s us := by
  rw [run?] at h
  rw [run?, List.foldlM_append, h]
  rfl

-- No value begins with a closing bracket, so behind an opening one an item is read as any value.
theorem run?_firstItem (value : Json) (frames : List Frame) (ts : List Token) :
    run? limits (.firstItem frames) (value.tokens ++ ts) =
      run? limits (.value (.array [] :: frames)) (value.tokens ++ ts) := by
  cases value with
  | null | bool b | int n | decimal d | string s => rfl
  | array items => rfl
  | object members => rfl

theorem run?_scalar {value v : Json} {frames : List Frame} (h : limits.scalar? value = some v) :
    run? limits (.value frames) [.scalar value] = some (deliver v frames) := by
  refine run?_cons ?_
  rw [step, startValue, h, Option.map_some]

theorem step_openArray {frames : List Frame} (h : limits.allows frames.length = true) :
    step limits (.value frames) .openArray = some (.firstItem frames) := by
  rw [step, startValue, if_pos h]

theorem step_openObject {frames : List Frame} (h : limits.allows frames.length = true) :
    step limits (.value frames) .openObject = some (.firstKey frames) := by
  rw [step, startValue, if_pos h]

theorem tokens_array_cons (item : Json) (items : List Json) :
    (Json.array (item :: items)).tokens =
      .openArray :: (item.tokens ++ ((itemTokens items).flatMap (.comma :: ·) ++ [.closeArray])) := by
  rw [tokens, itemTokens, Text.intercalate_cons_eq_flatMap, List.append_assoc]

theorem tokens_object_cons (k : String) (value : Json) (members : List (String × Json)) :
    (Json.object ((k, value) :: members)).tokens =
      .openObject :: .string k :: .colon ::
        (value.tokens ++ ((memberTokens members).flatMap (.comma :: ·) ++ [.closeObject])) := by
  rw [tokens, memberTokens, Text.intercalate_cons_eq_flatMap, List.append_assoc]
  rfl

mutual

theorem run?_tokens : (value : Json) → (frames : List Frame) →
    value.Readable limits frames.length →
      run? limits (.value frames) value.tokens = some (deliver value frames)
  | .null, frames, h => run?_scalar h
  | .bool b, frames, h => run?_scalar h
  | .int n, frames, h => run?_scalar h
  | .decimal d, frames, h => run?_scalar h
  | .string s, frames, _ => rfl
  | .array [], frames, h => run?_cons (step_openArray h.1)
  | .array (item :: items), frames, h => by
    obtain ⟨hopen, hitem, hitems⟩ := h
    rw [tokens_array_cons, run?_cons (step_openArray hopen), run?_firstItem,
      run?_append (run?_tokens item (.array [] :: frames) hitem)]
    exact run?_items items item [] frames hitems
  | .object [], frames, h => run?_cons (step_openObject h.1)
  | .object ((k, v) :: members), frames, h => by
    obtain ⟨hopen, hkeys, hvalue, hmembers⟩ := h
    rw [tokens_object_cons, run?_cons (step_openObject hopen), run?_cons rfl, run?_cons rfl,
      run?_append (run?_tokens v (.object [] k :: frames) hvalue)]
    exact run?_members members k v [] frames hkeys hmembers

-- The items behind the last one that was read, with those before it in `done`, from the back.
theorem run?_items : (items : List Json) → (last : Json) → (done : List Json) →
    (frames : List Frame) → ReadableItems limits (frames.length + 1) items →
      run? limits (.separator last (.array done) frames)
        ((itemTokens items).flatMap (.comma :: ·) ++ [.closeArray]) =
          some (deliver (.array (done.reverse ++ last :: items)) frames)
  | [], last, done, frames, _ => by
    rw [← List.reverse_cons]
    rfl
  | item :: items, last, done, frames, h => by
    obtain ⟨hitem, hitems⟩ := h
    have hrest := run?_items items item (last :: done) frames hitems
    rw [List.reverse_cons, List.append_assoc] at hrest
    rw [itemTokens, List.flatMap_cons, List.append_assoc, List.cons_append, run?_cons rfl,
      run?_append (run?_tokens item (.array (last :: done) :: frames) hitem)]
    exact hrest

-- The members behind the last one, whose keys are all new.
theorem run?_members : (members : List (String × Json)) → (k : String) → (last : Json) →
    (done : List (String × Json)) → (frames : List Frame) →
    ((done ++ (k, last) :: members).map Prod.fst).Nodup →
    ReadableMembers limits (frames.length + 1) members →
      run? limits (.separator last (.object done k) frames)
        ((memberTokens members).flatMap (.comma :: ·) ++ [.closeObject]) =
          some (deliver (.object (done ++ (k, last) :: members)) frames)
  | [], k, last, done, frames, hkeys, _ => by
    rw [← putMember_of_not_mem last (not_mem_of_nodup_keys hkeys)]
    rfl
  | (next, v) :: members, k, last, done, frames, hkeys, h => by
    obtain ⟨hvalue, hmembers⟩ := h
    have hput := putMember_of_not_mem last (not_mem_of_nodup_keys hkeys)
    rw [List.append_cons] at hkeys
    have hrest := run?_members members next v (done ++ [(k, last)]) frames hkeys hmembers
    rw [memberTokens, List.flatMap_cons, List.append_assoc, List.cons_append, run?_cons rfl, hput,
      List.cons_append, run?_cons rfl, List.cons_append, run?_cons rfl,
      run?_append (run?_tokens v (.object (done ++ [(k, last)]) next :: frames) hvalue),
      List.append_cons done (k, last) ((next, v) :: members)]
    exact hrest

end

end Reading

variable {limits : Limits} {value : Json}

theorem ofTokens?_tokens (h : value.Readable limits 0) :
    ofTokens? limits value.tokens = some value := by
  have hrun := Reading.run?_tokens value [] h
  rw [Reading.run?] at hrun
  rw [ofTokens?, hrun]
  rfl

-- In either layout the text is read as the value that was written, also before a gap of blanks.
theorem read?_append_of_toText? {indent : Bool} {text gap : String} (h : value.Readable limits 0)
    (ht : value.toText? indent = some text) (hgap : ∀ c ∈ gap.toList, isBlank c = true) :
    read? limits (text ++ gap) = some value := by
  have hlexes := (lexes_of_toText? ht).append (Lexes.nil.blanks hgap)
  rw [List.append_nil, List.append_nil] at hlexes
  have htokens := (hlexes (ends_of_blanks hgap)).tokens?
  rw [read?, String.toList_append, htokens]
  exact ofTokens?_tokens h

theorem read?_of_toText? {indent : Bool} {text : String} (h : value.Readable limits 0)
    (ht : value.toText? indent = some text) : read? limits text = some value := by
  have hread : read? limits (text ++ "") = some value := read?_append_of_toText? h ht nofun
  rwa [String.append_empty] at hread

theorem ofBytes?_toUTF8 (text : String) : ofBytes? text.toUTF8 = ofText? text := by
  have hdecode : String.fromUTF8? text.toUTF8 = some text := dif_pos text.isValidUTF8
  rw [ofBytes?, hdecode]
  rfl

end FiniteAutomata.Json
