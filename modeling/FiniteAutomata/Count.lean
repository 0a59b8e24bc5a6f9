/-!
How much can be counted and listed. A count is a signed word of 64 bits. A list holds fewer items
than can be counted, because its items take memory.
-/

namespace FiniteAutomata

inductive CountError where
  -- the number of items is no count
  | uncountable
  -- there are too many items for a list
  | noMemory

namespace CountError

def message : CountError → String
  | uncountable => "cannot fit 'int' into an index-sized integer"
  | noMemory => ""

end CountError

-- The least numbers beyond a count, and beyond the length of a list.
def countLimit : Nat := Nat.pow 2 63
def lengthLimit : Nat := Nat.pow 2 32

def count? (n : Nat) : Except CountError Nat :=
  if n < countLimit then .ok n else .error .uncountable

-- The length of a list of `n` items.
def length? (n : Nat) : Except CountError Nat :=
  (count? n).bind fun n => if n < lengthLimit then .ok n else .error .noMemory

end FiniteAutomata
