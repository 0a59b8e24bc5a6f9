import FiniteAutomata.Proofs.Document
import FiniteAutomata.Proofs.Exploration
import FiniteAutomata.Workspace

/-!
Automata that commands can make. A command leaves all automata of a workspace well-formed
(`Workspace.WellFormed.step`), and so does every run of commands from an empty workspace
(`Workspace.wellFormed_run`). Hence whatever is reachable is well-formed (`Reachable.wellFormed`).
-/

namespace FiniteAutomata

theorem Recipe.wellFormed_of_make? {r : Recipe} {a : AnyAutomaton} (h : r.make? = .ok a) :
    a.automaton.WellFormed := by
  induction r generalizing a with
  | listed kind n moves finals =>
      obtain ⟨b, hb, rfl⟩ := map_eq_ok.mp h
      exact Automaton.wellFormed_of_build? (mapError_eq_ok.mp hb)
  | pattern r =>
      obtain ⟨f, hf, rfl⟩ := map_eq_ok.mp h
      exact (Pattern.wellFormed_of_compile? (mapError_eq_ok.mp hf)).toNFA
  | nth n =>
      obtain ⟨b, hb, rfl⟩ := map_eq_ok.mp h
      exact Family.wellFormed_of_nth? (mapError_eq_ok.mp hb)
  | document text =>
      obtain ⟨d, hd, rfl⟩ := map_eq_ok.mp h
      exact Document.wellFormed_toAutomaton
        (Document.states_pos_of_ofText? (mapError_eq_ok.mp hd))
  | determinized r ih =>
      obtain ⟨b, hb, h⟩ := bind_eq_ok.mp h
      obtain ⟨k, b⟩ := b
      cases k with
      | nfa => cases h; exact NFA.wellFormed_toDFA b
      | dfa => exact nomatch h

def Item.WellFormed : Item → Prop
  | automaton a => a.automaton.WellFormed
  | relation _ => True

namespace Workspace

variable {w : Workspace} {name : String} {item : Item}

def WellFormed (w : Workspace) : Prop := ∀ entry ∈ w, entry.2.WellFormed

theorem mem_set {entry : String × Item} (h : entry ∈ w.set name item) :
    entry ∈ w ∨ entry.2 = item := by
  induction w with
  | nil => exact Or.inr (List.mem_singleton.mp h ▸ rfl)
  | cons first rest ih =>
      obtain ⟨n, old⟩ := first
      simp only [set] at h
      split at h
      · rcases List.mem_cons.mp h with rfl | h
        · exact Or.inr rfl
        · exact Or.inl (List.mem_cons_of_mem _ h)
      · rcases List.mem_cons.mp h with rfl | h
        · exact Or.inl List.mem_cons_self
        · exact (ih h).imp_left (List.mem_cons_of_mem _)

theorem WellFormed.set (h : w.WellFormed) (hitem : item.WellFormed) :
    (w.set name item).WellFormed := by
  intro entry hentry
  rcases mem_set hentry with hentry | rfl
  · exact h entry hentry
  · exact hitem

theorem WellFormed.find? (h : w.WellFormed) (hitem : w.find? name = some item) :
    item.WellFormed := by
  obtain ⟨entry, hentry, rfl⟩ := Option.map_eq_some_iff.mp hitem
  exact h entry (List.mem_of_find?_eq_some hentry)

theorem WellFormed.item? (h : w.WellFormed) (hitem : w.item? name = .ok item) :
    item.WellFormed := by
  unfold Workspace.item? at hitem
  cases hfind : w.find? name with
  | none => rw [hfind] at hitem; exact nomatch hitem
  | some found =>
      rw [hfind] at hitem
      cases hitem
      exact h.find? hfind

theorem WellFormed.automaton? (h : w.WellFormed) {a : AnyAutomaton}
    (ha : w.automaton? name = .ok a) : a.automaton.WellFormed := by
  unfold Workspace.automaton? at ha
  split at ha
  · rename_i hfind
    cases ha
    exact h.find? hfind
  · exact nomatch ha

theorem WellFormed.nfa? (h : w.WellFormed) {a : NFA} (ha : w.nfa? name = .ok a) :
    Automaton.WellFormed a := by
  unfold Workspace.nfa? at ha
  split at ha
  · rename_i hfind
    cases ha
    exact h.find? hfind
  · exact nomatch ha

theorem WellFormed.fragment? (h : w.WellFormed) {f : Fragment} (hf : w.fragment? name = .ok f) :
    f.WellFormed := by
  obtain ⟨a, ha, hf⟩ := bind_eq_ok.mp hf
  exact Fragment.wellFormed_of_ofAutomaton? (h.automaton? ha) (mapError_eq_ok.mp hf)

theorem WellFormed.changed (h : w.WellFormed) {k : Kind} {changed : Option (Automaton k)}
    (hchanged : ∀ a, changed = some a → a.WellFormed) :
    (w.changed name changed).2.WellFormed := by
  cases changed with
  | none => exact h
  | some a => exact h.set (hchanged a rfl)

theorem Joint.wellFormed_apply (op : Joint) {f g : Fragment} (hf : f.WellFormed)
    (hg : g.WellFormed) : (op.apply f g).WellFormed := by
  cases op with
  | concat => exact hf.concat hg
  | alternate => exact hf.alternate hg

theorem Wrap.wellFormed_apply (op : Wrap) {f : Fragment} (hf : f.WellFormed) :
    (op.apply f).WellFormed := by
  cases op with
  | star => exact hf.wrap true true
  | plus => exact hf.wrap true false
  | optional => exact hf.wrap false true

theorem WellFormed.execute? (h : w.WellFormed) {c : Command} {reply : Reply} {next : Workspace}
    (hc : w.execute? c = .ok (reply, next)) : next.WellFormed := by
  cases c with
  | make recipe into =>
      obtain ⟨a, ha, hc⟩ := bind_eq_ok.mp hc
      cases hc
      exact h.set (Recipe.wellFormed_of_make? (mapError_eq_ok.mp ha))
  | relation into => cases hc; exact h.set trivial
  | copy name into =>
      obtain ⟨item, hitem, hc⟩ := bind_eq_ok.mp hc
      cases hc
      exact h.set (h.item? hitem)
  | add name p s q =>
      obtain ⟨r, hr, hc⟩ := bind_eq_ok.mp hc
      obtain ⟨t, ht, hc⟩ := bind_eq_ok.mp hc
      cases hc
      exact h.set trivial
  | replace name p s q =>
      obtain ⟨r, hr, hc⟩ := bind_eq_ok.mp hc
      obtain ⟨t, ht, hc⟩ := bind_eq_ok.mp hc
      cases hc
      exact h.set trivial
  | addState name =>
      obtain ⟨a, ha, hc⟩ := bind_eq_ok.mp hc
      cases hc
      exact h.set (h.automaton? ha).addState
  | addFinal name p =>
      obtain ⟨a, ha, hc⟩ := bind_eq_ok.mp hc
      have hnext : (w.changed name (a.automaton.addFinal? p)).2 = next :=
        congrArg Prod.snd (Except.ok.inj hc)
      exact hnext ▸ h.changed fun _ hb => (h.automaton? ha).addFinal? hb
  | writeMove name p s q =>
      obtain ⟨a, ha, hc⟩ := bind_eq_ok.mp hc
      obtain ⟨changed, hwrite, hc⟩ := bind_eq_ok.mp hc
      have hnext : (w.changed name changed).2 = next := congrArg Prod.snd (Except.ok.inj hc)
      exact hnext ▸ h.changed ((h.automaton? ha).writeMove? (mapError_eq_ok.mp hwrite))
  | append name guest =>
      obtain ⟨host, hhost, hc⟩ := bind_eq_ok.mp hc
      obtain ⟨guest, hguest, hc⟩ := bind_eq_ok.mp hc
      cases hc
      exact h.set ((h.nfa? hhost).append (h.automaton? hguest))
  | determinize name into =>
      obtain ⟨a, -, hc⟩ := bind_eq_ok.mp hc
      cases hc
      exact h.set (NFA.wellFormed_toDFA a)
  | reading s into =>
      obtain ⟨f, hf, hc⟩ := bind_eq_ok.mp hc
      cases hc
      exact h.set (Fragment.wellFormed_of_ofSymbol? (mapError_eq_ok.mp hf)).toNFA
  | choosing given into =>
      obtain ⟨f, hf, hc⟩ := bind_eq_ok.mp hc
      cases hc
      exact h.set (Fragment.wellFormed_of_ofCollection? (mapError_eq_ok.mp hf)).toNFA
  | join op name other into =>
      obtain ⟨f, hf, hc⟩ := bind_eq_ok.mp hc
      obtain ⟨g, hg, hc⟩ := bind_eq_ok.mp hc
      cases hc
      exact h.set (op.wellFormed_apply (h.fragment? hf) (h.fragment? hg)).toNFA
  | wrap op name into =>
      obtain ⟨f, hf, hc⟩ := bind_eq_ok.mp hc
      cases hc
      exact h.set (op.wellFormed_apply (h.fragment? hf)).toNFA

theorem WellFormed.step (h : w.WellFormed) (c : Command) : (w.step c).2.WellFormed := by
  unfold Workspace.step
  split
  · rename_i hc
    exact h.execute? hc
  · exact h

theorem WellFormed.run (h : w.WellFormed) (cs : List Command) : (w.run cs).WellFormed :=
  List.foldlRecOn cs _ h fun _ hb c _ => hb.step c

theorem wellFormed_run (cs : List Command) : (run [] cs).WellFormed := by
  have hempty : WellFormed [] := fun _ hentry => absurd hentry List.not_mem_nil
  exact hempty.run cs

end Workspace

-- Some run of commands from an empty workspace makes the automaton.
def Reachable {k : Kind} (a : Automaton k) : Prop :=
  ∃ cs name, (Workspace.run [] cs).find? name = some (.automaton ⟨k, a⟩)

theorem Reachable.wellFormed {k : Kind} {a : Automaton k} (h : Reachable a) : a.WellFormed := by
  obtain ⟨cs, name, hfind⟩ := h
  exact (Workspace.wellFormed_run cs).find? hfind

end FiniteAutomata
