import FiniteAutomata.Automaton

/-!
A family of small nondeterministic automata whose deterministic ones are large.
-/

namespace FiniteAutomata.Family

inductive Error where
  | notPositive (n : Int)

def Error.message : Error → String
  | notPositive n => "n must be >= 1, got " ++ toString n

-- The moves out of state 0, which loops and guesses, and out of the states that count down.
def nthMoves (n : Nat) : List (Edge Char) :=
  ⟨0, some '0', 0⟩ :: ⟨0, some '1', 0⟩ :: ⟨0, some '1', 1⟩ ::
    (List.range' 1 (n - 1)).flatMap fun (i : Nat) => [⟨i, some '0', i + 1⟩, ⟨i, some '1', i + 1⟩]

-- Accepts the words over 0 and 1 whose n-th character from the right is 1.
def nth (n : Nat) : NFA :=
  ((nthMoves n).foldl Automaton.addMove (.blank (n + 1))).addFinal n

def nth? (n : Int) : Except Error NFA :=
  if n < 1 then .error (.notPositive n) else .ok (nth n.toNat)

end FiniteAutomata.Family
