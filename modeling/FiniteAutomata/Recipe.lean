import FiniteAutomata.Determinize
import FiniteAutomata.Document.Reader
import FiniteAutomata.Family
import FiniteAutomata.Pattern.Build

/-!
The ways to come by an automaton.
-/

namespace FiniteAutomata

inductive Recipe where
  | listed (kind : Kind) (n : Int) (moves : List (State × Symbol × State)) (finals : List State)
  | pattern (r : Pattern.Given)
  | nth (n : Int)
  | document (text : String)
  | determinized (r : Recipe)

namespace Recipe

inductive Error where
  | automaton (error : Automaton.Error)
  | pattern (error : Pattern.Error)
  | family (error : Family.Error)
  | document (error : Document.LoadError)
  -- what is to be determinized is deterministic already
  | deterministic

def determinize? : AnyAutomaton → Except Error AnyAutomaton
  | ⟨.nfa, a⟩ => .ok ⟨.dfa, NFA.toDFA a⟩
  | ⟨.dfa, _⟩ => .error .deterministic

def make? : Recipe → Except Error AnyAutomaton
  | listed kind n moves finals =>
    ((Automaton.build? n moves finals).mapError .automaton).map fun a => ⟨kind, a⟩
  | pattern r => ((Pattern.compile? r).mapError .pattern).map fun f => ⟨.nfa, f.toNFA⟩
  | nth n => ((Family.nth? n).mapError .family).map fun a => ⟨.nfa, a⟩
  | document text => ((Document.ofText? text).mapError .document).map Document.toAutomaton
  | determinized r => r.make?.bind determinize?

end Recipe

end FiniteAutomata
