import FiniteAutomata.Proofs.Reachable

/-!
What holds of all automata at all times. After any run of commands the states, final states and
moves of every automaton fit together, and the moves of a deterministic one can be told from state
and character (`Automaton.Sound`). A command that is refused or fails changes nothing
(`Workspace.step_of_refused`). Both together are `Workspace.sound_run`.
-/

namespace FiniteAutomata

variable {k : Kind}

namespace Automaton

-- A well-formed automaton, seen from the keys of its moves.
structure Sound (a : Automaton k) : Prop extends a.WellFormed where
  source_valid : ∀ key ∈ a.moves.keys, a.Valid key.source
  targets_ne_empty : ∀ key ∈ a.moves.keys, a.moves.targets key.source key.label ≠ ∅
  targets_valid : ∀ key ∈ a.moves.keys, ∀ q ∈ a.moves.targets key.source key.label, a.Valid q
  -- a label that is a text has one character
  label_length : ∀ key ∈ a.moves.keys, ∀ s, Label.toText key.label = some s → s.length = 1
  reads : k = .dfa → ∀ key ∈ a.moves.keys, key.label ≠ none
  one_target : k = .dfa → ∀ key ∈ a.moves.keys,
    ∃ q, (a.moves.targets key.source key.label).toList = [q]
  -- there is never a choice between targets, whether or not there is a key
  no_choice : k = .dfa → ∀ p l, (a.moves.targets p l).toList = [] ∨
    ∃ q, (a.moves.targets p l).toList = [q]

theorem exists_mem_targets {a : Automaton k} {key : Key Char} (hkey : key ∈ a.moves.keys) :
    ∃ q, q ∈ a.moves.targets key.source key.label := by
  obtain ⟨e, he, rfl⟩ := MoveRelation.mem_keys.mp hkey
  exact ⟨e.target, MoveRelation.mem_targets.mpr he⟩

-- All targets of a key are the first one.
theorem WellFormed.targets_eq_nil_or_singleton {a : Automaton k} (h : a.WellFormed)
    (hk : k = .dfa) (p : State) (l : Label) :
    (a.moves.targets p l).toList = [] ∨ ∃ q, (a.moves.targets p l).toList = [q] := by
  cases htargets : (a.moves.targets p l).toList with
  | nil => exact Or.inl rfl
  | cons q rest =>
      have hedge : ∀ r ∈ q :: rest, ⟨p, l, r⟩ ∈ a.moves.edges := fun r hr =>
        MoveRelation.mem_targets.mp (Ascending.mem_toList.mp (htargets ▸ hr))
      have hrest : rest = [] := by
        refine List.eq_nil_iff_forall_not_mem.mpr fun r hr => ?_
        have hsame := h.target_unique hk _ (hedge q List.mem_cons_self) _
          (hedge r (List.mem_cons_of_mem q hr)) rfl
        have hqr : q = r := congrArg Edge.target hsame
        have hnodup := Ascending.nodup_toList (a.moves.targets p l)
        rw [htargets] at hnodup
        exact (List.nodup_cons.mp hnodup).1 (hqr ▸ hr)
      exact Or.inr ⟨q, congrArg (q :: ·) hrest⟩

theorem WellFormed.sound {a : Automaton k} (h : a.WellFormed) : a.Sound where
  toWellFormed := h
  source_valid key hkey := by
    obtain ⟨e, he, rfl⟩ := MoveRelation.mem_keys.mp hkey
    exact (h.moves_valid e he).1
  targets_ne_empty key hkey hempty := by
    obtain ⟨q, hq⟩ := exists_mem_targets hkey
    rw [hempty] at hq
    exact Ascending.not_mem_empty hq
  targets_valid key _ q hq := (h.moves_valid _ (MoveRelation.mem_targets.mp hq)).2
  label_length key _ s hs := by
    obtain ⟨c, -, rfl⟩ := Option.map_eq_some_iff.mp hs
    exact String.length_singleton
  reads hk key hkey := by
    obtain ⟨e, he, rfl⟩ := MoveRelation.mem_keys.mp hkey
    exact h.not_silent hk e he
  one_target hk key hkey := by
    obtain ⟨q, hq⟩ := exists_mem_targets hkey
    refine (h.targets_eq_nil_or_singleton hk key.source key.label).resolve_left fun hnil => ?_
    rw [← Ascending.mem_toList, hnil] at hq
    exact List.not_mem_nil hq
  no_choice hk p l := h.targets_eq_nil_or_singleton hk p l

end Automaton

def Item.Sound : Item → Prop
  | automaton a => a.automaton.Sound
  | relation _ => True

namespace Workspace

variable {w next : Workspace} {c : Command} {reply : Reply}

-- The command failed, or it answered that it was not accepted.
def Refused : Except Error Reply → Prop
  | .error _ => True
  | .ok (.accepted b) => b = false
  | .ok _ => False

theorem eq_of_changed_refused {name : String} {changed : Option (Automaton k)}
    (hc : w.changed name changed = (reply, next)) (h : Refused (.ok reply)) : next = w := by
  cases changed with
  | none => cases hc; rfl
  | some a => cases hc; exact nomatch h

-- Only changes of one automaton can be answered with a refusal.
theorem eq_of_execute?_refused (hc : w.execute? c = .ok (reply, next)) (h : Refused (.ok reply)) :
    next = w := by
  cases c with
  | addFinal name p =>
      obtain ⟨a, -, hc⟩ := bind_eq_ok.mp hc
      exact eq_of_changed_refused (Except.ok.inj hc) h
  | writeMove name p s q =>
      obtain ⟨a, -, hc⟩ := bind_eq_ok.mp hc
      obtain ⟨changed, -, hc⟩ := bind_eq_ok.mp hc
      exact eq_of_changed_refused (Except.ok.inj hc) h
  | relation into => cases hc; exact nomatch h
  | make | copy | addState | determinize | reading | choosing | wrap =>
      obtain ⟨_, -, hc⟩ := bind_eq_ok.mp hc
      cases hc
      exact nomatch h
  | add | replace | append | join =>
      obtain ⟨_, -, hc⟩ := bind_eq_ok.mp hc
      obtain ⟨_, -, hc⟩ := bind_eq_ok.mp hc
      cases hc
      exact nomatch h

theorem step_of_refused (h : Refused (w.step c).1) : (w.step c).2 = w := by
  unfold step at h ⊢
  split
  · rename_i hc
    rw [hc] at h
    exact eq_of_execute?_refused hc h
  · rfl

-- After every run of commands all automata are sound, and a command that is refused then leaves
-- every one of them as it is.
theorem sound_run (cs : List Command) :
    (∀ entry ∈ run [] cs, entry.2.Sound) ∧
      ∀ c, Refused ((run [] cs).step c).1 → ((run [] cs).step c).2 = run [] cs := by
  refine ⟨fun entry hentry => ?_, fun c => step_of_refused⟩
  have hwell := wellFormed_run cs entry hentry
  cases hitem : entry.2 with
  | automaton a =>
      rw [hitem] at hwell
      exact Automaton.WellFormed.sound hwell
  | relation r => trivial

end Workspace

end FiniteAutomata
