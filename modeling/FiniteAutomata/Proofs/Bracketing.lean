import FiniteAutomata.Proofs.Builders
import FiniteAutomata.Proofs.BuildOrder
import FiniteAutomata.Proofs.Lockstep

/-!
Concatenation is associative to the last state. However fragments are bracketed, the states of each
are numbered from the end of those before it, and the same silent moves join them
(`Fragment.alike_concat_assoc`). Only the order in which the moves were written can differ, and
nothing shows it (`NFA.same_of_sameParts`). So three automata can be joined from either end, and
every bracketing of expressions is compiled to the automaton of the left-nested one
(`Workspace.same_of_bracketing`).
-/

namespace FiniteAutomata

namespace NFA

variable {a b : NFA}

-- Two automata that are equal, are shown by the same texts and are determinized to the same one.
structure Same (a b : NFA) : Prop extends Automaton.LooksLike a b where
  size : a.size = b.size
  document : Document.ofAutomaton a = Document.ofAutomaton b
  toDFA : toDFA a = toDFA b

-- Sets of states stand for themselves.
theorem corresponds_id (h : Automaton.SameParts b a) : Corresponds a b id where
  alphabet := h.alphabet_eq
  start := h.closure_eq [0]
  step s _ c _ := h.step_eq s c
  inj _ _ _ _ heq := heq
  hasFinal s _ := h.hasFinal_eq s.toList

theorem same_of_sameParts (h : Automaton.SameParts a b) : Same a b where
  toLooksLike := h.looksLike
  size := h.size
  document := h.ofAutomaton_eq
  toDFA := (corresponds_id h).dfa_determinize

end NFA

namespace Fragment

variable {f f' g g' h : Fragment}

-- The same states, accept state and moves, whenever the moves were written.
structure Alike (f g : Fragment) : Prop where
  size : f.size = g.size
  accept : f.accept = g.accept
  edges : f.moves.edges = g.moves.edges

theorem Alike.refl (f : Fragment) : f.Alike f := ⟨rfl, rfl, rfl⟩

theorem Alike.symm (hfg : f.Alike g) : g.Alike f :=
  ⟨hfg.size.symm, hfg.accept.symm, hfg.edges.symm⟩

theorem Alike.trans (hfg : f.Alike g) (hgh : g.Alike h) : f.Alike h :=
  ⟨hfg.size.trans hgh.size, hfg.accept.trans hgh.accept, hfg.edges.trans hgh.edges⟩

theorem Alike.sameParts (hfg : f.Alike g) : f.toNFA.SameParts g.toNFA where
  size := hfg.size
  mem_finals p := by rw [mem_finals_toNFA, mem_finals_toNFA, hfg.accept]
  mem_edges e := by
    have hedges : f.toNFA.moves.edges = g.toNFA.moves.edges := hfg.edges
    rw [hedges]

-- What is joined does not depend on the order of writing.
theorem Alike.concat (hf : f.Alike f') (hg : g.Alike g') : (f.concat g).Alike (f'.concat g') where
  size := congrArg₂ (· + ·) hf.size hg.size
  accept := by
    simp only [Fragment.concat, hf.size, hg.accept]
  edges := by
    apply Ascending.ext
    intro e
    rw [mem_edges_concat, mem_edges_concat, hf.edges, hf.size, hf.accept,
      MoveRelation.shifted, MoveRelation.shifted, hg.edges]

theorem mem_shifted_concat {offset : Int} {e : Edge Char} :
    e ∈ (g.concat h).moves.shifted offset ↔
      e ∈ g.moves.shifted offset ∨ e ∈ h.moves.shifted (offset + g.size) ∨
        e = silent (offset + g.accept) (offset + g.size) := by
  obtain ⟨p, l, q⟩ := e
  have hjoint : (⟨p - offset, l, q - offset⟩ : Edge Char) = silent g.accept g.size ↔
      (⟨p, l, q⟩ : Edge Char) = silent (offset + g.accept) (offset + g.size) := by
    rw [mk_eq_silent, mk_eq_silent, sub_eq_iff_eq_add', sub_eq_iff_eq_add']
  simp only [MoveRelation.mem_shifted, mem_edges_concat, hjoint, Int.sub_sub]

-- The last operand is shifted by both sizes at once, or by one after the other.
theorem alike_concat_assoc (f g h : Fragment) :
    ((f.concat g).concat h).Alike (f.concat (g.concat h)) where
  size := Nat.add_assoc f.size g.size h.size
  accept := by
    simp only [concat, Nat.cast_add]
    exact Int.add_assoc _ _ _
  edges := by
    apply Ascending.ext
    intro e
    have hsize : ((f.concat g).size : Int) = f.size + g.size := Nat.cast_add f.size g.size
    have haccept : (f.concat g).accept = f.size + g.accept := rfl
    rw [mem_edges_concat, mem_edges_concat, mem_edges_concat, mem_shifted_concat, hsize, haccept]
    tauto

theorem Alike.foldl_concat (hfg : f.Alike g) (fs : List Fragment) :
    (fs.foldl Fragment.concat f).Alike (fs.foldl Fragment.concat g) := by
  induction fs generalizing f g with
  | nil => exact hfg
  | cons h fs ih => exact ih (hfg.concat (.refl h))

-- What stands first can be joined to the result of all others.
theorem alike_foldl_concat (f g : Fragment) (fs : List Fragment) :
    (fs.foldl concat (f.concat g)).Alike (f.concat (fs.foldl concat g)) := by
  induction fs generalizing g with
  | nil => exact .refl _
  | cons h fs ih =>
      have hfirst : (fs.foldl concat ((f.concat g).concat h)).Alike
          (fs.foldl concat (f.concat (g.concat h))) := (alike_concat_assoc f g h).foldl_concat fs
      exact hfirst.trans (ih (g.concat h))

theorem alike_concatAll_append {fs gs : List Fragment} (hfs : fs ≠ []) (hgs : gs ≠ []) :
    (concatAll (fs ++ gs)).Alike ((concatAll fs).concat (concatAll gs)) := by
  obtain ⟨f, fs, rfl⟩ := List.exists_cons_of_ne_nil hfs
  obtain ⟨g, gs, rfl⟩ := List.exists_cons_of_ne_nil hgs
  have hleft : concatAll (f :: fs ++ g :: gs) = gs.foldl concat ((fs.foldl concat f).concat g) := by
    simp only [concatAll, List.cons_append, List.foldl_append, List.foldl_cons]
  rw [hleft]
  exact alike_foldl_concat (fs.foldl concat f) g gs

-- An automaton made of a fragment can be taken as that fragment again.
theorem ofAutomaton?_toNFA (f : Fragment) : ofAutomaton? f.toNFA = .ok f := by
  obtain ⟨p, hp⟩ := Automaton.oneFinal_iff.mp f.oneFinal_toNFA
  have hmem : p ∈ f.toNFA.finals := by
    rw [← Std.ExtTreeSet.mem_toList, hp]
    exact List.mem_cons_self
  rw [mem_finals_toNFA.mp hmem] at hp
  simp only [ofAutomaton?, hp]
  rfl

end Fragment

namespace Pattern

-- The expressions of a list, in their order and bracketed in some way.
inductive Bracketing {φ : Type} : List (Pattern φ) → Pattern φ → Prop where
  | single (r : Pattern φ) : Bracketing [r] r
  | concat {rs ss : List (Pattern φ)} {r s : Pattern φ} (hr : Bracketing rs r)
      (hs : Bracketing ss s) : Bracketing (rs ++ ss) (.concat r s)

theorem Bracketing.ne_nil {φ : Type} {rs : List (Pattern φ)} {r : Pattern φ}
    (h : Bracketing rs r) : rs ≠ [] := by
  induction h with
  | single r => exact List.cons_ne_nil r []
  | concat _ _ ih _ => exact List.append_ne_nil_of_left_ne_nil ih _

end Pattern

theorem Regex.alike_compile_of_bracketing {rs : List Regex} {r : Regex}
    (h : Pattern.Bracketing rs r) : (compile r).Alike (Fragment.concatAll (rs.map compile)) := by
  induction h with
  | single r => exact .refl _
  | @concat rs ss r s hr hs ihr ihs =>
      have hrs : rs.map compile ≠ [] := List.map_eq_nil_iff.not.mpr hr.ne_nil
      have hss : ss.map compile ≠ [] := List.map_eq_nil_iff.not.mpr hs.ne_nil
      rw [List.map_append]
      exact (ihr.concat ihs).trans (Fragment.alike_concatAll_append hrs hss).symm

namespace Workspace

variable {j k : Kind} {a : Automaton j} {b : Automaton k} {f g : Fragment}

-- Joining the automata makes `m`, whatever names they stand under.
def Concatenates (a : Automaton j) (b : Automaton k) (m : NFA) : Prop :=
  ∀ (w : Workspace) (name other into : String), w.automaton? name = .ok ⟨j, a⟩ →
    w.automaton? other = .ok ⟨k, b⟩ →
      w.step (.join .concat name other into) =
        (.ok (.made (.automaton ⟨.nfa, m⟩)), w.set into (.automaton ⟨.nfa, m⟩))

theorem concatenates_toNFA (hf : Fragment.ofAutomaton? a = .ok f)
    (hg : Fragment.ofAutomaton? b = .ok g) : Concatenates a b (f.concat g).toNFA := by
  intro w name other into hname hother
  have hleft : w.fragment? name = .ok f := by
    rw [fragment?, hname]
    exact mapError_eq_ok.mpr hf
  have hright : w.fragment? other = .ok g := by
    rw [fragment?, hother]
    exact mapError_eq_ok.mpr hg
  simp only [step, execute?, hleft, hright]
  rfl

-- Three automata that have one final state each, of either kind, can be joined from either end. And
-- the expressions of a list, bracketed in any way, are compiled to what their concatenation is.
theorem same_of_bracketing :
    (∀ (i j k : Kind) (a : Automaton i) (b : Automaton j) (c : Automaton k),
      a.OneFinal → b.OneFinal → c.OneFinal → ∃ ab bc left right : NFA,
        Concatenates a b ab ∧ Concatenates b c bc ∧ Concatenates ab c left ∧
          Concatenates a bc right ∧ NFA.Same left right) ∧
    ∀ (rs : List Regex) (r : Regex), Pattern.Bracketing rs r →
      NFA.Same (Regex.toNFA r) (Regex.toNFA (Pattern.concatAll rs)) := by
  constructor
  · intro i j k a b c ha hb hc
    obtain ⟨f, hf⟩ := Fragment.exists_of_oneFinal ha
    obtain ⟨g, hg⟩ := Fragment.exists_of_oneFinal hb
    obtain ⟨h, hh⟩ := Fragment.exists_of_oneFinal hc
    have hsame := (Fragment.alike_concat_assoc f g h).sameParts
    exact ⟨_, _, _, _, concatenates_toNFA hf hg, concatenates_toNFA hg hh,
      concatenates_toNFA (Fragment.ofAutomaton?_toNFA _) hh,
      concatenates_toNFA hf (Fragment.ofAutomaton?_toNFA _), NFA.same_of_sameParts hsame⟩
  · intro rs r hr
    have halike := Regex.alike_compile_of_bracketing hr
    rw [← Regex.compile_concatAll] at halike
    exact NFA.same_of_sameParts halike.sameParts

-- A deterministic automaton that loops at its only state, between two stars; and four expressions in
-- two pairs.
theorem same_of_bracketing_pairs :
    let r : Regex := .star (.literal 'b')
    let a : NFA := Regex.toNFA r
    let b : DFA := ((Automaton.blank 1).setMove 0 'a' 0).addFinal 0
    (∃ ab ba left right : NFA, Concatenates a b ab ∧ Concatenates b a ba ∧ Concatenates ab a left ∧
      Concatenates a ba right ∧ NFA.Same left right) ∧
    NFA.Same (Regex.toNFA (.concat (.concat r r) (.concat .epsilon r)))
      (Regex.toNFA (.concat (.concat (.concat r r) .epsilon) r)) := by
  intro r a b
  have ha : Automaton.OneFinal a := (Regex.compile r).oneFinal_toNFA
  have hb : Automaton.OneFinal b := Automaton.oneFinal_iff.mpr ⟨0, rfl⟩
  have hpairs : Pattern.Bracketing [r, r, .epsilon, r] (.concat (.concat r r) (.concat .epsilon r)) :=
    .concat (.concat (.single r) (.single r)) (.concat (.single .epsilon) (.single r))
  exact ⟨same_of_bracketing.1 .nfa .dfa .nfa a b a ha hb ha, same_of_bracketing.2 _ _ hpairs⟩

end Workspace

end FiniteAutomata
