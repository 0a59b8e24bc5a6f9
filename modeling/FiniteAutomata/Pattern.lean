import FiniteAutomata.Fragment

/-!
Regular expressions and their compilation. A pattern may hold foreign values in the place of
expressions; `Regex` is the type of patterns without any, and only those can be compiled.
-/

namespace FiniteAutomata

inductive Pattern (φ : Type) where
  -- a value that is no expression
  | foreign (value : φ)
  -- the empty word
  | epsilon
  | literal (c : Char)
  -- one of the characters; nothing if there are none
  | charSet (cs : Ascending Char)
  | concat (left right : Pattern φ)
  | alternate (left right : Pattern φ)
  | star (inner : Pattern φ)
  | plus (inner : Pattern φ)
  | optional (inner : Pattern φ)
  -- `least` times, then up to `extra` times more, or any number of times if `extra` is `none`
  | repeated (inner : Pattern φ) (least : Nat) (extra : Option Nat)

abbrev Regex := Pattern Empty

namespace Pattern

variable {φ : Type}

-- One after the other, nested to the left; the empty word if there are none.
def concatAll : List (Pattern φ) → Pattern φ
  | [] => epsilon
  | r :: rs => rs.foldl concat r

def ofWord (word : List Char) : Pattern φ := concatAll (word.map literal)

-- The copies that a repetition stands for.
def copies (inner : Pattern φ) (least : Nat) (extra : Option Nat) : List (Pattern φ) :=
  List.replicate least inner ++
    match extra with
    | none => [star inner]
    | some n => List.replicate n (optional inner)

-- A repetition in terms of the other operators.
def expand : Pattern φ → Pattern φ
  | repeated inner least extra => concatAll (copies inner least extra)
  | r => r

-- The length of `copies`.
def countCopies (least : Nat) (extra : Option Nat) : Nat := least + extra.getD 1

-- The expansion, if the copies at the front can be listed.
def expand? (r : Pattern φ) : Except CountError (Pattern φ) :=
  match r with
  | repeated _ least _ => (length? least).map fun _ => r.expand
  | r => .ok r

-- What keeps a pattern from being an expression that can be compiled.
inductive Obstacle (φ : Type) where
  | foreign (value : φ)
  -- the copies of a repetition cannot be listed
  | copies (error : CountError)
  | tooDeep

-- How many expressions may stand inside one another, themselves counted.
def maxDepth : Nat := 988

-- How deep a pattern nests.
def depth : Pattern φ → Nat
  | foreign _ | epsilon | literal _ | charSet _ => 1
  | concat left right | alternate left right => max (depth left) (depth right) + 1
  | star inner | plus inner | optional inner | repeated inner _ _ => depth inner + 1

-- Goes on `levels` further down.
def descend {α : Type} (level levels : Nat) (go : Nat → Except (Obstacle φ) α) :
    Except (Obstacle φ) α :=
  if level + levels ≤ maxDepth then go (level + levels) else .error .tooDeep

-- The pattern as an expression, or the obstacle met first from the left, where the pattern itself
-- stands at a level below others. A repetition stands for its copies: they are listed before one
-- of them is looked at, and the first of them lies deepest.
def ground? : Pattern φ → Nat → Except (Obstacle φ) Regex
  | foreign value, _ => .error (.foreign value)
  | epsilon, _ => .ok epsilon
  | literal c, _ => .ok (literal c)
  | charSet cs, _ => .ok (charSet cs)
  | concat left right, level =>
    return concat (← descend level 1 (ground? left)) (← descend level 1 (ground? right))
  | alternate left right, level =>
    return alternate (← descend level 1 (ground? left)) (← descend level 1 (ground? right))
  | star inner, level => return star (← descend level 1 (ground? inner))
  | plus inner, level => return plus (← descend level 1 (ground? inner))
  | optional inner, level => return optional (← descend level 1 (ground? inner))
  | repeated _ 0 (some 0), _ => .ok (repeated epsilon 0 (some 0))
  | repeated inner least extra, level => do
    let least ← (length? least).mapError .copies
    let below := countCopies least extra + if least = 0 then 1 else 0
    return repeated (← descend level below (ground? inner)) least extra

end Pattern

namespace Regex

-- The copies of a repetition are compiled once and joined as their concatenation would be.
def compile : Regex → Fragment
  | .foreign value => nomatch value
  | .epsilon => .epsilon
  | .literal c => .char c
  | .charSet cs => .chars cs
  | .concat left right => (compile left).concat (compile right)
  | .alternate left right => (compile left).alternate (compile right)
  | .star inner => (compile inner).star
  | .plus inner => (compile inner).plus
  | .optional inner => (compile inner).optional
  | .repeated inner least extra =>
    let f := compile inner
    .concatAll (List.replicate least f ++
      match extra with
      | none => [f.star]
      | some n => List.replicate n f.optional)

theorem compile_concatAll (rs : List Regex) :
    compile (Pattern.concatAll rs) = Fragment.concatAll (rs.map compile) := by
  cases rs with
  | nil => rfl
  | cons r rs =>
    simp only [Pattern.concatAll, Fragment.concatAll, List.map_cons, List.foldl_map]
    induction rs generalizing r with
    | nil => rfl
    | cons s rs ih => exact ih (.concat r s)

-- A repetition is compiled as its expansion.
theorem compile_expand (r : Regex) : compile r.expand = compile r := by
  cases r with
  | repeated inner least extra =>
    rw [Pattern.expand, compile_concatAll]
    cases extra with
    | none => simp [Pattern.copies, compile]
    | some n => simp [Pattern.copies, compile]
  | _ => rfl

def toNFA (r : Regex) : NFA := (compile r).toNFA

end Regex

end FiniteAutomata
