import FiniteAutomata.Count
import FiniteAutomata.MoveRelation
import Std.Data.ExtTreeSet

/-!
Automata. An automaton of size n has the states 0 to n - 1 and starts in state 0. A
nondeterministic one may move silently and have several targets for a symbol; a deterministic
one has at most one target for each state and symbol. What refers to a state that does not
exist is refused and changes nothing.
-/

namespace FiniteAutomata

inductive Kind where
  | nfa
  | dfa
deriving DecidableEq

structure Automaton (k : Kind) where
  size : Nat
  finals : Std.ExtTreeSet State
  moves : MoveRelation Char

abbrev NFA := Automaton .nfa
abbrev DFA := Automaton .dfa

structure AnyAutomaton where
  kind : Kind
  automaton : Automaton kind

namespace Automaton

inductive Error where
  | noStates (n : Int)
  | silentMove
  | symbol (error : Symbol.Error)

def Error.message : Error → String
  | noStates n => "An automaton needs at least one state, got n=" ++ toString n
  | silentMove => "A DFA cannot have epsilon moves"
  | symbol error => error.message

variable {k : Kind}

def blank (size : Nat) : Automaton k := ⟨size, ∅, ∅⟩

def ofSize? (n : Int) : Except Error (Automaton k) :=
  if n < 1 then .error (.noStates n) else .ok (blank n.toNat)

-- States

def Valid (a : Automaton k) (p : State) : Prop := 0 ≤ p ∧ p < a.size

instance (a : Automaton k) (p : State) : Decidable (a.Valid p) :=
  inferInstanceAs (Decidable (0 ≤ p ∧ p < a.size))

def states (a : Automaton k) : List State := (List.range a.size).map Int.ofNat

-- How many states there are, if they can be counted.
def count? (a : Automaton k) : Except CountError Nat := FiniteAutomata.count? a.size

-- The states, if they can be listed.
def states? (a : Automaton k) : Except CountError (List State) :=
  (length? a.size).map fun _ => a.states

-- The new state is the old size.
def addState (a : Automaton k) : Automaton k := { a with size := a.size + 1 }

def isFinal (a : Automaton k) (p : State) : Bool := a.finals.contains p

def addFinal? (a : Automaton k) (p : State) : Option (Automaton k) :=
  if a.Valid p then some { a with finals := a.finals.insert p } else none

-- Refusal leaves the automaton as it is.
def addFinal (a : Automaton k) (p : State) : Automaton k := (a.addFinal? p).getD a

-- Moves

def alphabet (a : Automaton k) : Ascending Char := a.moves.symbols

def addMove? (a : NFA) (e : Edge Char) : Option NFA :=
  if a.Valid e.source ∧ a.Valid e.target then some { a with moves := a.moves.add e } else none

def addMove (a : NFA) (e : Edge Char) : NFA := (a.addMove? e).getD a

def setMove? (a : DFA) (p : State) (c : Char) (q : State) : Option DFA :=
  if a.Valid p ∧ a.Valid q then some { a with moves := a.moves.replace ⟨p, some c, q⟩ } else none

def setMove (a : DFA) (p : State) (c : Char) (q : State) : DFA := (a.setMove? p c q).getD a

-- A move under a symbol that was not checked yet. The symbol is checked before the states.
def writeMove? : {k : Kind} → Automaton k → State → Symbol → State →
    Except Error (Option (Automaton k))
  | .nfa, a, p, s, q =>
    match s.label? with
    | .ok l => .ok (a.addMove? ⟨p, l, q⟩)
    | .error e => .error (.symbol e)
  | .dfa, a, p, s, q =>
    match s.label? with
    | .ok none => .error .silentMove
    | .ok (some c) => .ok (a.setMove? p c q)
    | .error e => .error (.symbol e)

-- An automaton from its size, its moves and its final states, in that order.
def build? (n : Int) (moves : List (State × Symbol × State)) (finals : List State) :
    Except Error (Automaton k) := do
  let a ← ofSize? n
  let a ← moves.foldlM (fun a (p, s, q) => do return (← a.writeMove? p s q).getD a) a
  return finals.foldl addFinal a

-- Embeds a copy of `guest` after the states of `host`; the guest's state 0 becomes the host's
-- old size. The guest's final states are not taken over.
def append (host : NFA) (guest : Automaton k) : NFA :=
  { host with
    size := host.size + guest.size
    moves := host.moves.addAll (guest.moves.shifted host.size) }

-- The same states and moves read by the nondeterministic engine.
def toNFA (a : Automaton k) : NFA := ⟨a.size, a.finals, a.moves⟩

-- Texts

def listStates (ps : List State) : String := Text.bracketed (ps.map toString)

def summary (a : Automaton k) : String :=
  (match k with | .nfa => "NFA" | .dfa => "DFA") ++ "(states=" ++ toString a.size ++
    ", final=" ++ listStates a.finals.toList ++ ", moves=" ++ toString a.moves.size ++ ")"

-- Invariants

-- What every operation keeps. That keys have targets is part of `MoveRelation`.
structure WellFormed (a : Automaton k) : Prop where
  size_pos : 0 < a.size
  finals_valid : ∀ p ∈ a.finals, a.Valid p
  moves_valid : ∀ e ∈ a.moves.edges, a.Valid e.source ∧ a.Valid e.target
  not_silent : k = .dfa → ∀ e ∈ a.moves.edges, e.label ≠ none
  target_unique : k = .dfa → ∀ d ∈ a.moves.edges, ∀ e ∈ a.moves.edges, d.key = e.key → d = e

end Automaton

end FiniteAutomata
