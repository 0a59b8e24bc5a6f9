import FiniteAutomata.Automaton
import FiniteAutomata.Reach

/-!
Running automata over words. The nondeterministic engine keeps the set of all states it may be
in; the deterministic one walks from state to state and stops where a character has no move.
-/

namespace FiniteAutomata

variable {k : Kind}

namespace Automaton

def hasFinal (a : Automaton k) (ps : List State) : Bool := ps.any a.isFinal

-- The states reached from `ps` by silent moves alone. States that do not exist are left out.
def closure (a : Automaton k) (ps : List State) : Ascending State :=
  a.moves.reach (ps.filter fun p => a.Valid p)

-- The states reached by reading `c` and moving silently on.
def step (a : Automaton k) (ps : Ascending State) (c : Char) : Ascending State :=
  a.closure (a.moves.image ps.toList (some c)).toList

end Automaton

namespace NFA

def start (a : NFA) : Ascending State := a.closure [0]

-- Once no state is left, no further character can change the answer.
def acceptsFrom (a : NFA) (ps : Ascending State) : List Char → Bool
  | [] => a.hasFinal ps.toList
  | c :: cs =>
    let qs := a.step ps c
    if qs.isEmpty then false else acceptsFrom a qs cs

def accepts (a : NFA) (word : List Char) : Bool := acceptsFrom a (start a) word

end NFA

namespace DFA

def move? (a : DFA) (p : State) (c : Char) : Option State :=
  (a.moves.targets p (some c)).toList.head?

-- The state after the word, if every character has a move. The first state is not checked.
def walk? (a : DFA) (p : State) : List Char → Option State
  | [] => some p
  | c :: cs =>
    match move? a p c with
    | none => none
    | some q => walk? a q cs

def accepts (a : DFA) (word : List Char) : Bool :=
  match walk? a 0 word with
  | none => false
  | some q => a.isFinal q

end DFA

-- Each kind is run by its own engine.
def Automaton.accepts : {k : Kind} → Automaton k → List Char → Bool
  | .nfa, a, word => NFA.accepts a word
  | .dfa, a, word => DFA.accepts a word

end FiniteAutomata
