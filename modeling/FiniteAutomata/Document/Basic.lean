import FiniteAutomata.Automaton

/-!
Documents: what is written down of an automaton, its kind, the number of its states, the final
states and the moves, and the automaton that a document describes.
-/

namespace FiniteAutomata

structure Document where
  kind : Kind
  states : Nat
  finals : List State
  moves : List (Edge Char)

namespace Document

def toNFA (d : Document) : NFA :=
  d.finals.foldl Automaton.addFinal (d.moves.foldl Automaton.addMove (.blank d.states))

def toDFA (d : Document) : DFA :=
  let set (a : DFA) (e : Edge Char) : DFA :=
    match e.label with
    | none => a
    | some c => a.setMove e.source c e.target
  d.finals.foldl Automaton.addFinal (d.moves.foldl set (.blank d.states))

def toAutomaton (d : Document) : AnyAutomaton :=
  match d.kind with
  | .nfa => ⟨.nfa, d.toNFA⟩
  | .dfa => ⟨.dfa, d.toDFA⟩

def ofAutomaton {k : Kind} (a : Automaton k) : Document :=
  ⟨k, a.size, a.finals.toList, a.moves.edges.toList⟩

def kindName : Kind → String
  | .nfa => "nfa"
  | .dfa => "dfa"

end Document

end FiniteAutomata
