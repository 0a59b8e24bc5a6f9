import FiniteAutomata.FreeRelation
import FiniteAutomata.Recipe

/-!
Workspaces: automata and relations under names, changed by commands. A command that is refused
or fails changes nothing.
-/

namespace FiniteAutomata

inductive Item where
  | automaton (a : AnyAutomaton)
  | relation (r : FreeRelation)

namespace Item

def summary : Item → String
  | automaton ⟨_, a⟩ => a.summary
  | relation r => r.summary

def moves : Item → FreeRelation
  | automaton ⟨_, a⟩ => .ofMoves a.moves
  | relation r => r

end Item

abbrev Workspace := List (String × Item)

namespace Workspace

inductive Error where
  | recipe (error : Recipe.Error)
  | automaton (error : Automaton.Error)
  | fragment (error : Fragment.Error)
  | pattern (error : Pattern.Error)
  | symbol (error : Symbol.Error)
  | relation (error : FreeRelation.Error)
  -- there is no item of the kind that the command needs
  | noItem (name : String)

-- Two fragments are joined, or one is wrapped.
inductive Joint where
  | concat
  | alternate

inductive Wrap where
  | star
  | plus
  | optional

def Joint.apply : Joint → Fragment → Fragment → Fragment
  | concat => Fragment.concat
  | alternate => Fragment.alternate

def Wrap.apply : Wrap → Fragment → Fragment
  | star => Fragment.star
  | plus => Fragment.plus
  | optional => Fragment.optional

inductive Command where
  | make (recipe : Recipe) (into : String)
  | relation (into : String)
  | copy (name into : String)
  | add (name : String) (p : State) (s : Symbol) (q : State)
  | replace (name : String) (p : State) (s : Symbol) (q : State)
  | addState (name : String)
  | addFinal (name : String) (p : State)
  | writeMove (name : String) (p : State) (s : Symbol) (q : State)
  | append (name guest : String)
  | determinize (name into : String)
  | reading (s : Symbol) (into : String)
  | choosing (given : Json) (into : String)
  | join (op : Joint) (name other into : String)
  | wrap (op : Wrap) (name into : String)

inductive Reply where
  | nothing
  | made (item : Item)
  | state (p : State)
  | accepted (b : Bool)

def find? (w : Workspace) (name : String) : Option Item :=
  (List.find? (·.1 = name) w).map (·.2)

def set (name : String) (item : Item) : Workspace → Workspace
  | [] => [(name, item)]
  | (n, old) :: rest => if n = name then (n, item) :: rest else (n, old) :: set name item rest

def item? (w : Workspace) (name : String) : Except Error Item :=
  (w.find? name).elim (.error (.noItem name)) .ok

def automaton? (w : Workspace) (name : String) : Except Error AnyAutomaton :=
  match w.find? name with
  | some (.automaton a) => .ok a
  | _ => .error (.noItem name)

def nfa? (w : Workspace) (name : String) : Except Error NFA :=
  match w.find? name with
  | some (.automaton ⟨.nfa, a⟩) => .ok a
  | _ => .error (.noItem name)

def relation? (w : Workspace) (name : String) : Except Error FreeRelation :=
  match w.find? name with
  | some (.relation r) => .ok r
  | _ => .error (.noItem name)

def fragment? (w : Workspace) (name : String) : Except Error Fragment := do
  (Fragment.ofAutomaton? (← w.automaton? name).automaton).mapError .fragment

-- The item is new or a copy of its own.
def made (into : String) (item : Item) (w : Workspace) : Reply × Workspace :=
  (.made item, w.set into item)

def madeNFA (into : String) (a : NFA) (w : Workspace) : Reply × Workspace :=
  w.made into (.automaton ⟨.nfa, a⟩)

-- A change of an automaton that may be refused.
def changed {k : Kind} (name : String) (w : Workspace) : Option (Automaton k) → Reply × Workspace
  | some a => (.accepted true, w.set name (.automaton ⟨k, a⟩))
  | none => (.accepted false, w)

def execute? (w : Workspace) : Command → Except Error (Reply × Workspace)
  | .make recipe into => do
    let a ← recipe.make?.mapError .recipe
    return w.made into (.automaton a)
  | .relation into => .ok (w.made into (.relation ∅))
  | .copy name into => return w.made into (← w.item? name)
  | .add name p s q => do
    let r ← (← w.relation? name).add? p s q |>.mapError .relation
    return (.nothing, w.set name (.relation r))
  | .replace name p s q => do
    let r ← (← w.relation? name).replace? p s q |>.mapError .relation
    return (.nothing, w.set name (.relation r))
  | .addState name => do
    let ⟨k, a⟩ ← w.automaton? name
    return (.state a.size, w.set name (.automaton ⟨k, a.addState⟩))
  | .addFinal name p => do
    let ⟨_, a⟩ ← w.automaton? name
    return w.changed name (a.addFinal? p)
  | .writeMove name p s q => do
    let ⟨_, a⟩ ← w.automaton? name
    return w.changed name (← (a.writeMove? p s q).mapError .automaton)
  | .append name guest => do
    let host ← w.nfa? name
    let guest ← w.automaton? guest
    return (.state host.size, w.set name (.automaton ⟨.nfa, host.append guest.automaton⟩))
  | .determinize name into => do
    let a ← w.nfa? name
    return w.made into (.automaton ⟨.dfa, NFA.toDFA a⟩)
  | .reading s into => do
    let f ← (Fragment.ofSymbol? s).mapError .symbol
    return w.madeNFA into f.toNFA
  | .choosing given into => do
    let f ← (Fragment.ofCollection? given).mapError fun
      | .collection e => .pattern e
      -- as for the labels of a relation
      | .unordered left right => .relation (.unordered left right)
      | .symbol e => .symbol e
    return w.madeNFA into f.toNFA
  | .join op name other into => do
    let f ← w.fragment? name
    let g ← w.fragment? other
    return w.madeNFA into (op.apply f g).toNFA
  | .wrap op name into => do
    let f ← w.fragment? name
    return w.madeNFA into (op.apply f).toNFA

-- One command, its reply, and the workspace after it.
def step (w : Workspace) (c : Command) : Except Error Reply × Workspace :=
  match w.execute? c with
  | .ok (reply, w) => (.ok reply, w)
  | .error e => (.error e, w)

def run (w : Workspace) (cs : List Command) : Workspace := cs.foldl (fun w c => (w.step c).2) w

end Workspace

end FiniteAutomata
