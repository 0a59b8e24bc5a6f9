import FiniteAutomata.Proofs.Deterministic
import FiniteAutomata.Proofs.FragmentLanguage
import FiniteAutomata.Proofs.Reachable

/-!
Building with any automata. An automaton that has one final state is a fragment, whatever moves
enter its start and leave its final state. What is built of fragments accepts the words that the
operation makes of theirs, and has one final state again (`Workspace.Makes`). All other operands are
refused, the left one before the right (`Workspace.builds_or_refuses`).
-/

namespace FiniteAutomata

open scoped Computability

namespace Automaton

variable {k : Kind} {a : Automaton k}

-- The words that an automaton accepts when its own engine runs it.
def accepted (a : Automaton k) : Language Char := {word | a.accepts word = true}

theorem mem_accepted {word : List Char} : word ∈ a.accepted ↔ a.accepts word = true := Iff.rfl

theorem WellFormed.accepted_eq (h : a.WellFormed) : a.accepted = a.language := by
  apply Language.ext
  intro word
  rw [mem_accepted, accepts_iff_mem_language h]

def OneFinal (a : Automaton k) : Prop := ∃! p, p ∈ a.finals

theorem oneFinal_iff : a.OneFinal ↔ ∃ p, a.finals.toList = [p] := by
  have hnodup : a.finals.toList.Nodup := by
    apply Std.ExtTreeSet.distinct_toList.imp
    intro p q hne heq
    exact hne (Std.compare_eq_iff_eq.mpr heq)
  constructor
  · intro h
    obtain ⟨p, hp, honly⟩ := h
    refine ⟨p, List.perm_singleton.mp ?_⟩
    apply (List.perm_ext_iff_of_nodup hnodup (List.nodup_singleton p)).mpr
    intro q
    rw [Std.ExtTreeSet.mem_toList, List.mem_singleton]
    constructor
    · exact honly q
    · intro hq
      rwa [hq]
  · intro h
    obtain ⟨p, hp⟩ := h
    have hmem : ∀ q, q ∈ a.finals ↔ q = p := by
      intro q
      rw [← Std.ExtTreeSet.mem_toList, hp, List.mem_singleton]
    exact ⟨p, (hmem p).mpr rfl, fun q hq => (hmem q).mp hq⟩

end Automaton

namespace Fragment

variable {k : Kind} {a : Automaton k} {f : Fragment}

theorem oneFinal_toNFA (f : Fragment) : f.toNFA.OneFinal :=
  ⟨f.accept, mem_finals_toNFA.mpr rfl, fun _ hq => mem_finals_toNFA.mp hq⟩

theorem exists_of_oneFinal (h : a.OneFinal) : ∃ f, ofAutomaton? a = .ok f := by
  obtain ⟨p, hp⟩ := Automaton.oneFinal_iff.mp h
  exact ⟨⟨a.size, p, a.moves⟩, by simp [ofAutomaton?, hp]⟩

theorem ofAutomaton?_of_not_oneFinal (h : ¬ a.OneFinal) :
    ofAutomaton? a = .error (.notOneFinal a.finals.toList) := by
  unfold ofAutomaton?
  split
  · rename_i p hp
    exact absurd (Automaton.oneFinal_iff.mpr ⟨p, hp⟩) h
  · rfl

-- A fragment is the same machine as the automaton it is taken from.
theorem language_of_ofAutomaton? (h : ofAutomaton? a = .ok f) : f.language = a.language := by
  unfold ofAutomaton? at h
  split at h
  · rename_i p hp
    cases h
    have haccept : {q | Automaton.isFinal (⟨a.size, p, a.moves⟩ : Fragment).toNFA q = true} =
        {q | a.isFinal q = true} := by
      ext q
      rw [Set.mem_ofPred_eq, isFinal_toNFA_iff, Set.mem_ofPred_eq, ← Automaton.mem_finals_iff_isFinal,
        ← Std.ExtTreeSet.mem_toList, hp, List.mem_singleton]
    simp only [language, Automaton.language, Automaton.machine, haccept]
    rfl
  · simp at h

end Fragment

namespace Workspace

variable {w : Workspace} {name other into : String} {j k : Kind} {a : Automaton j}
  {b : Automaton k} {f g : Fragment} {item : Item}

-- What the operations make of languages

def Joint.language : Joint → Language Char → Language Char → Language Char
  | concat, l, m => l * m
  | alternate, l, m => l + m

def Wrap.language : Wrap → Language Char → Language Char
  | star, l => l∗
  | plus, l => l * l∗
  | optional, l => l + 1

theorem Joint.language_apply (op : Joint) (hf : f.WellFormed) (hg : g.WellFormed) :
    (op.apply f g).language = op.language f.language g.language := by
  cases op with
  | concat => exact Fragment.language_concat hf hg
  | alternate => exact Fragment.language_alternate hf hg

theorem Wrap.language_apply (op : Wrap) (hf : f.WellFormed) :
    (op.apply f).language = op.language f.language := by
  cases op with
  | star => exact Fragment.language_star hf
  | plus => exact Fragment.language_plus hf
  | optional => exact Fragment.language_optional hf

theorem find?_set (w : Workspace) (name : String) (item : Item) :
    (w.set name item).find? name = some item := by
  induction w with
  | nil => simp [set, find?]
  | cons first rest ih =>
      obtain ⟨n, old⟩ := first
      rw [set]
      split
      · rename_i hn
        simp [find?, hn]
      · rename_i hn
        simpa [find?, hn] using ih

-- The command makes a new automaton, which accepts the words of `l` and can be built upon: it has
-- one final state and is reachable.
def Makes (w : Workspace) (c : Command) (into : String) (l : Language Char) : Prop :=
  ∃ made : NFA, w.step c = (.ok (.made (.automaton ⟨.nfa, made⟩)), w.set into (.automaton ⟨.nfa, made⟩)) ∧
    Automaton.OneFinal made ∧ (∀ word, NFA.accepts made word = true ↔ word ∈ l) ∧
    ∀ cs, w = run [] cs → Reachable made

-- The command fails because of the final states of `a`, and nothing is changed.
def Refuses (w : Workspace) (c : Command) (a : Automaton k) : Prop :=
  ∃ e : Fragment.Error, w.step c = (.error (.fragment e), w) ∧
    e.message = "Fragment must have exactly one final state, got " ++
      Automaton.listStates a.finals.toList

theorem makes_of_madeNFA {c : Command} (hf : f.WellFormed)
    (hc : w.execute? c = .ok (w.madeNFA into f.toNFA)) : Makes w c into f.language := by
  have hstep : w.step c = (.ok (.made (.automaton ⟨.nfa, f.toNFA⟩)),
      w.set into (.automaton ⟨.nfa, f.toNFA⟩)) := by
    rw [step, hc]
    rfl
  refine ⟨f.toNFA, hstep, f.oneFinal_toNFA, ?_, ?_⟩
  · intro word
    exact NFA.accepts_iff_mem_language hf.toNFA
  · intro cs hw
    refine ⟨cs ++ [c], into, ?_⟩
    rw [run, List.foldl_append, List.foldl_cons, List.foldl_nil, ← run, ← hw, hstep]
    exact find?_set w into _

-- Operands

theorem fragment?_of_oneFinal (hname : w.automaton? name = .ok ⟨k, b⟩) (hb : b.WellFormed)
    (h : b.OneFinal) :
    ∃ g, w.fragment? name = .ok g ∧ g.WellFormed ∧ g.language = b.accepted := by
  obtain ⟨g, hg⟩ := Fragment.exists_of_oneFinal h
  refine ⟨g, ?_, Fragment.wellFormed_of_ofAutomaton? hb hg, ?_⟩
  · rw [fragment?, hname]
    exact mapError_eq_ok.mpr hg
  · rw [hb.accepted_eq]
    exact Fragment.language_of_ofAutomaton? hg

theorem fragment?_of_not_oneFinal (hname : w.automaton? name = .ok ⟨k, b⟩) (h : ¬ b.OneFinal) :
    w.fragment? name = .error (.fragment (.notOneFinal b.finals.toList)) := by
  have hb := Fragment.ofAutomaton?_of_not_oneFinal h
  rw [fragment?, hname]
  simp only [bind, Except.bind, hb]
  rfl

-- Commands

theorem makes_join (op : Joint) (hname : w.automaton? name = .ok ⟨j, a⟩)
    (hother : w.automaton? other = .ok ⟨k, b⟩) (ha : a.WellFormed) (hb : b.WellFormed)
    (hafinal : a.OneFinal) (hbfinal : b.OneFinal) :
    Makes w (.join op name other into) into (op.language a.accepted b.accepted) := by
  obtain ⟨f, hf, hfwell, hflanguage⟩ := fragment?_of_oneFinal hname ha hafinal
  obtain ⟨g, hg, hgwell, hglanguage⟩ := fragment?_of_oneFinal hother hb hbfinal
  rw [← hflanguage, ← hglanguage, ← op.language_apply hfwell hgwell]
  apply makes_of_madeNFA (op.wellFormed_apply hfwell hgwell)
  simp only [execute?, hf, hg]
  rfl

theorem makes_wrap (op : Wrap) (hname : w.automaton? name = .ok ⟨j, a⟩) (ha : a.WellFormed)
    (hfinal : a.OneFinal) : Makes w (.wrap op name into) into (op.language a.accepted) := by
  obtain ⟨f, hf, hfwell, hflanguage⟩ := fragment?_of_oneFinal hname ha hfinal
  rw [← hflanguage, ← op.language_apply hfwell]
  apply makes_of_madeNFA (op.wellFormed_apply hfwell)
  simp only [execute?, hf]
  rfl

theorem refuses_of_execute? {c : Command}
    (hc : w.execute? c = .error (.fragment (.notOneFinal b.finals.toList))) : Refuses w c b := by
  refine ⟨.notOneFinal b.finals.toList, ?_, rfl⟩
  rw [step, hc]

theorem refuses_join_left (op : Joint) (hname : w.automaton? name = .ok ⟨j, a⟩)
    (h : ¬ a.OneFinal) : Refuses w (.join op name other into) a := by
  apply refuses_of_execute?
  simp only [execute?, fragment?_of_not_oneFinal hname h]
  rfl

theorem refuses_join_right (op : Joint) (hname : w.automaton? name = .ok ⟨j, a⟩)
    (hother : w.automaton? other = .ok ⟨k, b⟩) (ha : a.OneFinal) (h : ¬ b.OneFinal) :
    Refuses w (.join op name other into) b := by
  obtain ⟨f, hf⟩ := Fragment.exists_of_oneFinal ha
  have hleft : w.fragment? name = .ok f := by
    rw [fragment?, hname]
    exact mapError_eq_ok.mpr hf
  apply refuses_of_execute?
  simp only [execute?, hleft, fragment?_of_not_oneFinal hother h]
  rfl

theorem refuses_wrap (op : Wrap) (hname : w.automaton? name = .ok ⟨j, a⟩) (h : ¬ a.OneFinal) :
    Refuses w (.wrap op name into) a := by
  apply refuses_of_execute?
  simp only [execute?, fragment?_of_not_oneFinal hname h]
  rfl

-- Whether a command makes an automaton or is refused depends on the final states of its operands
-- alone. Both operands may be the same item.
theorem builds_or_refuses (into : String) (ha : Reachable a) (hb : Reachable b)
    (hname : w.automaton? name = .ok ⟨j, a⟩) (hother : w.automaton? other = .ok ⟨k, b⟩) :
    (∀ op : Wrap,
      (a.OneFinal → Makes w (.wrap op name into) into (op.language a.accepted)) ∧
      (¬ a.OneFinal → Refuses w (.wrap op name into) a)) ∧
    ∀ op : Joint,
      (a.OneFinal → b.OneFinal →
        Makes w (.join op name other into) into (op.language a.accepted b.accepted)) ∧
      (¬ a.OneFinal → Refuses w (.join op name other into) a) ∧
      (a.OneFinal → ¬ b.OneFinal → Refuses w (.join op name other into) b) := by
  constructor
  · intro op
    exact ⟨makes_wrap op hname ha.wellFormed, refuses_wrap op hname⟩
  · intro op
    refine ⟨?_, refuses_join_left op hname, refuses_join_right op hname hother⟩
    exact makes_join op hname hother ha.wellFormed hb.wellFormed

-- The first operand accepts in its start state, which its moves leave and enter again; the second
-- is deterministic.
theorem builds_or_refuses_loops :
    let a : NFA := (((Automaton.blank 2).addMove ⟨0, some 'a', 1⟩).addMove ⟨1, some 'b', 0⟩).addFinal 0
    let b : DFA := ((Automaton.blank 1).setMove 0 'a' 0).addFinal 0
    let w : Workspace := [("a", .automaton ⟨.nfa, a⟩), ("b", .automaton ⟨.dfa, b⟩)]
    Makes w (.wrap .star "a" "c") "c" (Automaton.accepted a)∗ ∧
      Makes w (.join .concat "a" "b" "c") "c" (Automaton.accepted a * Automaton.accepted b) := by
  intro a b w
  have ha : Reachable a :=
    ⟨[.make (.listed .nfa 2 [(0, .text "a", 1), (1, .text "b", 0)] [0]) "a"], "a", rfl⟩
  have hb : Reachable b := ⟨[.make (.listed .dfa 1 [(0, .text "a", 0)] [0]) "b"], "b", rfl⟩
  have hafinal : Automaton.OneFinal a := Automaton.oneFinal_iff.mpr ⟨0, rfl⟩
  have hbfinal : Automaton.OneFinal b := Automaton.oneFinal_iff.mpr ⟨0, rfl⟩
  have hname : w.automaton? "a" = .ok ⟨.nfa, a⟩ := rfl
  have hother : w.automaton? "b" = .ok ⟨.dfa, b⟩ := rfl
  have hbuilds := builds_or_refuses "c" ha hb hname hother
  exact ⟨(hbuilds.1 .star).1 hafinal, (hbuilds.2 .concat).1 hafinal hbfinal⟩

end Workspace

end FiniteAutomata
