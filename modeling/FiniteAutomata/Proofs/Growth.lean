import FiniteAutomata.Proofs.Builders
import FiniteAutomata.Proofs.BuildOrder
import FiniteAutomata.Proofs.Embedding
import FiniteAutomata.Proofs.Trail

/-!
Nondeterministic automata only grow. New states, moves, final states and copies of other automata
leave in place what is there (`NFA.Grows`), so that every trail stays one and every accepted word is
accepted on (`NFA.Grows.accepts`). States that no old move leads to change nothing about the words.
A command that extends an automaton does just one of these things, and a command with another target
leaves it alone (`Workspace.step_grows`); what holds of a step holds of any run of such commands
(`Workspace.grows_run`).
-/

namespace FiniteAutomata

theorem Automaton.Trail.mono {j k : Kind} {a : Automaton j} {b : Automaton k}
    (h : ∀ e ∈ a.moves.edges, e ∈ b.moves.edges) {p q : State} {es : List (Edge Char)}
    (hes : a.Trail p es q) : b.Trail p es q := by
  induction hes with
  | nil p => exact .nil p
  | cons he _ ih => exact .cons (h _ he) ih

namespace NFA

variable {a b c : NFA} {word : List Char}

-- The states, final states and moves of `a` are those of `b` too, under the same numbers.
structure Grows (a b : NFA) : Prop where
  size_le : a.size ≤ b.size
  mem_finals : ∀ p ∈ a.finals, p ∈ b.finals
  mem_edges : ∀ e ∈ a.moves.edges, e ∈ b.moves.edges

theorem Grows.refl (a : NFA) : Grows a a := ⟨Nat.le_refl _, fun _ hp => hp, fun _ he => he⟩

theorem Grows.trans (hab : Grows a b) (hbc : Grows b c) : Grows a c where
  size_le := Nat.le_trans hab.size_le hbc.size_le
  mem_finals p hp := hbc.mem_finals p (hab.mem_finals p hp)
  mem_edges e he := hbc.mem_edges e (hab.mem_edges e he)

theorem Grows.accepts (h : Grows a b) (ha : Automaton.WellFormed a) (hb : Automaton.WellFormed b)
    (hword : accepts a word = true) : accepts b word = true := by
  rw [accepts_iff_mem_language ha, Automaton.mem_language_iff_exists_trail] at hword
  obtain ⟨es, q, hes, hq, hspelled⟩ := hword
  rw [accepts_iff_mem_language hb, Automaton.mem_language_iff_exists_trail]
  exact ⟨es, q, hes.mono h.mem_edges, h.mem_finals q hq, hspelled⟩

-- Single changes

theorem grows_addState (a : NFA) : Grows a (Automaton.addState a) :=
  ⟨Nat.le_succ _, fun _ hp => hp, fun _ he => he⟩

theorem grows_addFinal (a : NFA) (p : State) : Grows a (Automaton.addFinal a p) where
  size_le := Nat.le_of_eq (Automaton.size_addFinal a p).symm
  mem_finals q hq := Automaton.mem_finals_addFinal.mpr (.inr hq)
  mem_edges e he := by rwa [Automaton.moves_addFinal]

theorem grows_addMove (a : NFA) (e : Edge Char) : Grows a (Automaton.addMove a e) where
  size_le := Nat.le_of_eq (Automaton.size_addMove a e).symm
  mem_finals q hq := by rwa [Automaton.finals_addMove]
  mem_edges d hd := Automaton.mem_edges_addMove.mpr (.inr hd)

theorem grows_append {k : Kind} (a : NFA) (guest : Automaton k) :
    Grows a (Automaton.append a guest) where
  size_le := Nat.le_add_right _ _
  mem_finals _ hp := hp
  mem_edges _ he := MoveRelation.mem_edges_addAll.mpr (.inr he)

-- No move leads to the new state.
theorem accepts_addState (h : Automaton.WellFormed a) (word : List Char) :
    accepts (Automaton.addState a) word = accepts a word := by
  have hlanguage : Automaton.language (Automaton.addState a) = Automaton.language a := rfl
  rw [Bool.eq_iff_iff, accepts_iff_mem_language h, accepts_iff_mem_language h.addState, hlanguage]

theorem accepts_append {k : Kind} {guest : Automaton k} (h : Automaton.WellFormed a)
    (hguest : guest.WellFormed) (word : List Char) :
    accepts (Automaton.append a guest) word = accepts a word := by
  rw [accepts_eq_hasFinal, accepts_eq_hasFinal, reached_append h hguest]
  rfl

-- A move under a symbol that is a label.
theorem eq_addMove?_of_writeMove? {p q : State} {s : Symbol} {changed : Option NFA}
    (h : Automaton.writeMove? a p s q = .ok changed) :
    ∃ l, changed = Automaton.addMove? a ⟨p, l, q⟩ := by
  cases hs : s.label? with
  | error e =>
      simp only [Automaton.writeMove?, hs] at h
      contradiction
  | ok l =>
      simp only [Automaton.writeMove?, hs] at h
      exact ⟨l, (Except.ok.inj h).symm⟩

end NFA

namespace Workspace

variable {w next : Workspace} {name : String} {c : Command} {reply : Reply} {a : NFA}

-- The name of the item that a command makes or changes.
def Command.target : Command → String
  | make _ into | relation into | copy _ into | determinize _ into | reading _ into
  | choosing _ into | join _ _ _ into | wrap _ _ into => into
  | add name _ _ _ | replace name _ _ _ | addState name | addFinal name _ | writeMove name _ _ _
  | append name _ => name

-- The command adds to the automaton under the name: a state, a final state, a move or a copy.
def Command.Extends (name : String) : Command → Prop
  | addState host | addFinal host _ | writeMove host _ _ _ | append host _ => host = name
  | _ => False

-- What the command adds cannot be reached yet.
def Command.Enlarges (name : String) : Command → Prop
  | addState host | append host _ => host = name
  | _ => False

theorem find?_set_of_ne {item : Item} {other : String} (h : name ≠ other) :
    (w.set name item).find? other = w.find? other := by
  induction w with
  | nil => simp [set, find?, h]
  | cons first rest ih =>
      obtain ⟨n, old⟩ := first
      rw [set]
      split
      · rename_i hn
        simp [find?, hn, h]
      · by_cases hother : n = other
        · simp [find?, hother]
        · simpa [find?, hother] using ih

theorem eq_set_of_changed {k : Kind} {changed : Option (Automaton k)}
    (hc : w.changed name changed = (reply, next)) : next = w ∨ ∃ item, next = w.set name item := by
  cases changed with
  | none => cases hc; exact .inl rfl
  | some b => cases hc; exact .inr ⟨_, rfl⟩

-- A command writes its target and nothing else.
theorem eq_set_of_execute? (hc : w.execute? c = .ok (reply, next)) :
    next = w ∨ ∃ item, next = w.set c.target item := by
  cases c with
  | addFinal name p =>
      obtain ⟨a, -, hc⟩ := bind_eq_ok.mp hc
      exact eq_set_of_changed (Except.ok.inj hc)
  | writeMove name p s q =>
      obtain ⟨a, -, hc⟩ := bind_eq_ok.mp hc
      obtain ⟨changed, -, hc⟩ := bind_eq_ok.mp hc
      exact eq_set_of_changed (Except.ok.inj hc)
  | relation into => cases hc; exact .inr ⟨_, rfl⟩
  | make | copy | addState | determinize | reading | choosing | wrap =>
      obtain ⟨_, -, hc⟩ := bind_eq_ok.mp hc
      cases hc
      exact .inr ⟨_, rfl⟩
  | add | replace | append | join =>
      obtain ⟨_, -, hc⟩ := bind_eq_ok.mp hc
      obtain ⟨_, -, hc⟩ := bind_eq_ok.mp hc
      cases hc
      exact .inr ⟨_, rfl⟩

theorem find?_step_of_target_ne (h : c.target ≠ name) :
    (w.step c).2.find? name = w.find? name := by
  unfold step
  split
  · rename_i hc
    rcases eq_set_of_execute? hc with rfl | ⟨item, rfl⟩
    · rfl
    · exact find?_set_of_ne h
  · rfl

-- Extending an automaton

-- What is done with the automaton under the name is done with `a`.
theorem eq_of_automaton?_bind {β : Type} {f : AnyAutomaton → Except Error β} {result : Except Error β}
    (ha : w.find? name = some (.automaton ⟨.nfa, a⟩)) (h : w.automaton? name >>= f = result) :
    f ⟨.nfa, a⟩ = result := by
  rwa [automaton?, ha] at h

theorem nfa?_of_find? (ha : w.find? name = some (.automaton ⟨.nfa, a⟩)) :
    w.nfa? name = .ok a := by
  rw [nfa?, ha]

theorem find?_changed (ha : w.find? name = some (.automaton ⟨.nfa, a⟩)) (changed : Option NFA) :
    (w.changed name changed).2.find? name = some (.automaton ⟨.nfa, changed.getD a⟩) := by
  cases changed with
  | none => exact ha
  | some b => exact find?_set w name _

-- A command that extends an automaton leaves one under the name that has grown from it, and if it is
-- only enlarged the words stay.
theorem grows_of_execute? (hw : w.WellFormed) (ha : w.find? name = some (.automaton ⟨.nfa, a⟩))
    (hextends : c.Extends name) (hc : w.execute? c = .ok (reply, next)) :
    ∃ b : NFA, next.find? name = some (.automaton ⟨.nfa, b⟩) ∧ NFA.Grows a b ∧
      (c.Enlarges name → ∀ word, NFA.accepts b word = NFA.accepts a word) := by
  have hwell : Automaton.WellFormed a := hw.find? ha
  cases c with
  | addState host =>
      obtain rfl : host = name := hextends
      replace hc := eq_of_automaton?_bind ha hc
      cases hc
      exact ⟨_, find?_set w host _, NFA.grows_addState a, fun _ => NFA.accepts_addState hwell⟩
  | addFinal host p =>
      obtain rfl : host = name := hextends
      replace hc := eq_of_automaton?_bind ha hc
      have hnext : (w.changed host (Automaton.addFinal? a p)).2 = next :=
        congrArg Prod.snd (Except.ok.inj hc)
      exact ⟨_, hnext ▸ find?_changed ha _, NFA.grows_addFinal a p, False.elim⟩
  | writeMove host p s q =>
      obtain rfl : host = name := hextends
      replace hc := eq_of_automaton?_bind ha hc
      obtain ⟨changed, hwrite, hc⟩ := bind_eq_ok.mp hc
      obtain ⟨l, rfl⟩ := NFA.eq_addMove?_of_writeMove? (mapError_eq_ok.mp hwrite)
      have hnext : (w.changed host (Automaton.addMove? a ⟨p, l, q⟩)).2 = next :=
        congrArg Prod.snd (Except.ok.inj hc)
      exact ⟨_, hnext ▸ find?_changed ha _, NFA.grows_addMove a _, False.elim⟩
  | append host guest =>
      obtain rfl : host = name := hextends
      obtain ⟨_, hhost, hc⟩ := bind_eq_ok.mp hc
      rw [nfa?_of_find? ha] at hhost
      cases hhost
      obtain ⟨guest, hguest, hc⟩ := bind_eq_ok.mp hc
      cases hc
      exact ⟨_, find?_set w host _, NFA.grows_append a _,
        fun _ => NFA.accepts_append hwell (hw.automaton? hguest)⟩
  | _ => exact hextends.elim

theorem step_grows (hw : w.WellFormed) (ha : w.find? name = some (.automaton ⟨.nfa, a⟩))
    (hc : c.Extends name ∨ c.target ≠ name) :
    ∃ b : NFA, (w.step c).2.find? name = some (.automaton ⟨.nfa, b⟩) ∧ NFA.Grows a b ∧
      (c.Enlarges name → ∀ word, NFA.accepts b word = NFA.accepts a word) := by
  rcases hc with hextends | htarget
  · unfold step
    split
    · rename_i hc
      exact grows_of_execute? hw ha hextends hc
    · exact ⟨a, ha, .refl a, fun _ _ => rfl⟩
  · rw [find?_step_of_target_ne htarget]
    exact ⟨a, ha, .refl a, fun _ _ => rfl⟩

theorem run_grows (hw : w.WellFormed) (ha : w.find? name = some (.automaton ⟨.nfa, a⟩))
    {cs : List Command} (hcs : ∀ c ∈ cs, c.Extends name ∨ c.target ≠ name) :
    ∃ b : NFA, (w.run cs).find? name = some (.automaton ⟨.nfa, b⟩) ∧ NFA.Grows a b := by
  induction cs generalizing w a with
  | nil => exact ⟨a, ha, .refl a⟩
  | cons c cs ih =>
      obtain ⟨hc, hcs⟩ := List.forall_mem_cons.mp hcs
      obtain ⟨m, hm, ham, -⟩ := step_grows hw ha hc
      obtain ⟨b, hb, hmb⟩ := ih (hw.step c) hm hcs
      exact ⟨b, hb, ham.trans hmb⟩

-- The commands that extend the automaton may be mixed with any others that leave its name alone, for
-- instance with such as change the automata that are appended to it.
theorem grows_run {cs ds : List Command} (ha : (run [] cs).find? name = some (.automaton ⟨.nfa, a⟩))
    (hds : ∀ d ∈ ds, d.Extends name ∨ d.target ≠ name) :
    ∃ b : NFA, (run (run [] cs) ds).find? name = some (.automaton ⟨.nfa, b⟩) ∧ NFA.Grows a b ∧
      (∀ word, NFA.accepts a word = true → NFA.accepts b word = true) ∧
      ∀ front d rest, ds = front ++ d :: rest → d.Enlarges name → ∃ before after : NFA,
        (run (run [] cs) front).find? name = some (.automaton ⟨.nfa, before⟩) ∧
        ((run (run [] cs) front).step d).2.find? name = some (.automaton ⟨.nfa, after⟩) ∧
        ∀ word, NFA.accepts after word = NFA.accepts before word := by
  have hw := wellFormed_run cs
  obtain ⟨b, hb, hgrows⟩ := run_grows hw ha hds
  refine ⟨b, hb, hgrows, ?_, ?_⟩
  · intro word hword
    exact hgrows.accepts (hw.find? ha) ((hw.run ds).find? hb) hword
  · rintro front d rest rfl henlarges
    obtain ⟨hfront, hback⟩ := List.forall_mem_append.mp hds
    obtain ⟨hd, -⟩ := List.forall_mem_cons.mp hback
    obtain ⟨before, hbefore, -⟩ := run_grows hw ha hfront
    obtain ⟨after, hafter, -, hsame⟩ := step_grows (hw.run front) hbefore hd
    exact ⟨before, after, hbefore, hafter, hsame henlarges⟩

-- An automaton is appended to itself and the copy is linked, after a move that is refused.
theorem grows_run_linked :
    let a : NFA := ((Automaton.blank 2).addMove ⟨0, some 'a', 1⟩).addFinal 1
    let w : Workspace := [("a", .automaton ⟨.nfa, a⟩)]
    let front : List Command := [.writeMove "a" 0 (.text "b") 7, .addState "a"]
    let rest : List Command := [.writeMove "a" 1 .silent 3, .make (.nth 2) "b", .addFinal "a" 2]
    ∃ b before after : NFA,
      (w.run (front ++ .append "a" "a" :: rest)).find? "a" = some (.automaton ⟨.nfa, b⟩) ∧
      NFA.Grows a b ∧ NFA.accepts b ['a'] = true ∧
      (w.run front).find? "a" = some (.automaton ⟨.nfa, before⟩) ∧
      ((w.run front).step (.append "a" "a")).2.find? "a" = some (.automaton ⟨.nfa, after⟩) ∧
      ∀ word, NFA.accepts after word = NFA.accepts before word := by
  intro a w front rest
  let cs : List Command := [.make (.listed .nfa 2 [(0, .text "a", 1)] [1]) "a"]
  have hw : run [] cs = w := rfl
  have ha : (run [] cs).find? "a" = some (.automaton ⟨.nfa, a⟩) := rfl
  have hds : ∀ d ∈ front ++ .append "a" "a" :: rest, d.Extends "a" ∨ d.target ≠ "a" := by
    simp [front, rest, Command.Extends, Command.target]
  obtain ⟨b, hb, hgrows, haccepts, henlarged⟩ := grows_run ha hds
  obtain ⟨before, after, hbefore, hafter, hsame⟩ := henlarged front _ rest rfl rfl
  rw [hw] at hb hbefore hafter
  have haccepted : NFA.accepts a ['a'] = true := by
    have hwell : Automaton.WellFormed a := (wellFormed_run cs).find? ha
    have hmove : (⟨0, some 'a', 1⟩ : Edge Char) ∈ a.moves.edges := by decide
    rw [NFA.accepts_iff_mem_language hwell, Automaton.mem_language_iff_exists_trail]
    exact ⟨[⟨0, some 'a', 1⟩], 1, .cons hmove (.nil 1), rfl, rfl⟩
  exact ⟨b, before, after, hb, hgrows, haccepts _ haccepted, hbefore, hafter, hsame⟩

end Workspace

end FiniteAutomata
