import FiniteAutomata.Automaton

/-!
Automata with one final state as building blocks. A fragment starts in state 0 and accepts in
its accept state. Composite fragments hold copies of their operands, joined by silent moves.
-/

namespace FiniteAutomata

structure Fragment where
  size : Nat
  accept : State
  moves : MoveRelation Char

namespace Fragment

inductive Error where
  | notOneFinal (finals : List State)

def Error.message : Error → String
  | notOneFinal finals =>
    "Fragment must have exactly one final state, got " ++ Automaton.listStates finals

def toNFA (f : Fragment) : NFA := ⟨f.size, (∅ : Std.ExtTreeSet State).insert f.accept, f.moves⟩

def ofAutomaton? {k : Kind} (a : Automaton k) : Except Error Fragment :=
  match a.finals.toList with
  | [p] => .ok ⟨a.size, p, a.moves⟩
  | finals => .error (.notOneFinal finals)

def silent (p q : State) : Edge Char := ⟨p, none, q⟩

-- Two states and one move between them.
def reading (l : Label) : Fragment := ⟨2, 1, .ofEdges [⟨0, l, 1⟩]⟩

def epsilon : Fragment := reading none
def char (c : Char) : Fragment := reading (some c)

-- Reads one of the characters.
def chars (cs : Ascending Char) : Fragment :=
  ⟨2, 1, .ofEdges (cs.toList.map fun c => ⟨0, some c, 1⟩)⟩

-- The second operand follows the first, whose states keep their numbers.
def concat (f g : Fragment) : Fragment where
  size := f.size + g.size
  accept := f.size + g.accept
  moves := (f.moves.inOrder.addAll (g.moves.shifted f.size)).add (silent f.accept f.size)

-- A new start leads to both operands, and both lead to a new accept state.
def alternate (f g : Fragment) : Fragment where
  size := f.size + g.size + 2
  accept := f.size + g.size + 1
  moves :=
    let second := f.size + 1
    let accept := f.size + g.size + 1
    MoveRelation.ofEdges (f.moves.shifted 1 ++ g.moves.shifted second ++
      [silent 0 1, silent 0 second, silent (1 + f.accept) accept,
        silent (second + g.accept) accept])

-- A new start and accept state around the operand. With `loop` it may be run again, and with
-- `skip` it may be left out.
def wrap (loop skip : Bool) (f : Fragment) : Fragment where
  size := f.size + 2
  accept := f.size + 1
  moves :=
    let stop := 1 + f.accept
    let accept := f.size + 1
    MoveRelation.ofEdges (f.moves.shifted 1 ++ silent 0 1 ::
      (if loop then [silent stop 1] else []) ++ (if skip then [silent 0 accept] else []) ++
      [silent stop accept])

def star (f : Fragment) : Fragment := f.wrap true true
def plus (f : Fragment) : Fragment := f.wrap true false
def optional (f : Fragment) : Fragment := f.wrap false true

-- One after the other; the empty word if there are none.
def concatAll : List Fragment → Fragment
  | [] => epsilon
  | f :: fs => fs.foldl concat f

end Fragment

end FiniteAutomata
