import SlotTree.Proofs.Policies.Command
import SlotTree.Script

/-! # Scripts under another policy

A script that clones no handle runs the same under each policy. Only the name of the policy is
different where a command asks for it and where a teardown reports its end.
-/

namespace SlotTree

open Workspace

/-- What is seen of a command under another policy. -/
def Step.under (q : Policy) (c : Command) (step : Step) : Step :=
  ⟨c.resultUnder q step.result, step.journal.map (Event.under q), step.registers⟩

/-- What is seen of a script under another policy. -/
def Transcript.under (q : Policy) (commands : List Command) (transcript : Transcript) :
    Transcript :=
  ⟨List.zipWith (Step.under q) commands transcript.steps, transcript.closing.map (Event.under q)⟩

namespace Workspace

variable {q : Policy} {w v : Workspace}

namespace Twin

theorem terms_eq (twin : Twin q w v) : v.terms = w.terms := by
  rw [twin.eq_under]
  unfold terms
  simp only [heap_under, Heap.viewSlot_under]
  rfl

theorem readJournal (twin : Twin q w v) :
    Twin q w.readJournal.1 v.readJournal.1 ∧
      v.readJournal.2 = w.readJournal.2.map (Event.under q) := by
  obtain ⟨single, rfl⟩ := twin
  refine ⟨⟨single, ?_⟩, ?_⟩ <;> simp [Workspace.readJournal, under]

theorem perform (twin : Twin q w v) (showRegisters : Bool) {c : Command} (hc : c.isCloneless) :
    Twin q (w.perform showRegisters c).1 (v.perform showRegisters c).1 ∧
      (v.perform showRegisters c).2 = (w.perform showRegisters c).2.under q c := by
  obtain ⟨hresult, hafter⟩ := Action.exec_twin twin hc
  obtain ⟨hread, hjournal⟩ := hafter.readJournal
  refine ⟨hread, ?_⟩
  have hterms := hread.terms_eq
  simp only [Workspace.perform, exec, Step.under] at hterms ⊢
  rw [hresult, hjournal, hterms]

/-- Commands that clone no handle, one after another. -/
theorem performAll (twin : Twin q w v) (showRegisters : Bool) {commands : List Command}
    (hcommands : ∀ c ∈ commands, c.isCloneless) :
    Twin q (Workspace.performAll showRegisters w commands).1
        (Workspace.performAll showRegisters v commands).1 ∧
      (Workspace.performAll showRegisters v commands).2 =
        List.zipWith (Step.under q) commands
          (Workspace.performAll showRegisters w commands).2 := by
  induction commands generalizing w v with
  | nil => exact ⟨twin, rfl⟩
  | cons c rest ih =>
      obtain ⟨hfirst, hstep⟩ := twin.perform showRegisters (hcommands c List.mem_cons_self)
      obtain ⟨hrest, hsteps⟩ := ih hfirst fun c hc => hcommands c (List.mem_cons_of_mem _ hc)
      rw [performAll_cons, performAll_cons]
      exact ⟨hrest, congrArg₂ List.cons hstep hsteps⟩

/-! ## The closing -/

theorem dropMachines (twin : Twin q w v) (entries : List (String × Dismantler)) :
    Twin q (entries.foldl (fun w e => w.dropMachine e.2) w)
      (entries.foldl (fun w e => w.dropMachine e.2) v) := by
  induction entries generalizing w v with
  | nil => exact twin
  | cons e rest ih => exact ih (twin.dropMachine e.2)

theorem giveUpAll (twin : Twin q w v) (entries : List (String × Slot)) :
    Twin q (entries.foldl (fun w e => w.giveUp [e.2]) w)
      (entries.foldl (fun w e => w.giveUp [e.2]) v) := by
  induction entries generalizing w v with
  | nil => exact twin
  | cons e rest ih => exact ih (twin.giveUp [e.2])

theorem close (twin : Twin q w v) : Twin q w.close v.close := by
  have hidle := (twin.setMachines .empty).dropMachines w.machines.entries
  unfold Workspace.close
  dsimp only
  rw [twin.machines_eq, hidle.registers_eq]
  exact (hidle.setRegisters .empty).giveUpAll _

end Twin

theorem twin_empty (p q : Policy) : Twin q (empty p) (empty q) :=
  ⟨Heap.single_empty p, by simp [empty, under, Heap.empty, Heap.under]⟩

/-- A script in which no handle is cloned runs alike under any two policies. Every command has the
same result, and the same values die in the same order; the reports tell the same passes, pops,
steps and rotations, with the name of the policy. In the end the heaps, registers and dismantlers
are the same, and so is the closing. -/
theorem policies_interchangeable (p q : Policy) (showRegisters : Bool) (commands : List Command)
    (hcommands : ∀ c ∈ commands, c.isCloneless) :
    (performAll showRegisters (.empty q) commands).1 =
        (performAll showRegisters (.empty p) commands).1.under q ∧
      runScript q showRegisters commands =
        (runScript p showRegisters commands).under q commands := by
  obtain ⟨hran, hsteps⟩ := (twin_empty p q).performAll showRegisters hcommands
  obtain ⟨-, hclosing⟩ := hran.close.readJournal
  refine ⟨hran.eq_under, ?_⟩
  unfold runScript Transcript.under
  dsimp only
  rw [hsteps, hclosing]

/-- A tree is changed, dismantled for two steps and left to the closing; at last the policy is asked
for. -/
def tour : List Command :=
  [.make (some "tree") (some .create)
      (.node (.int 1) [.node (.int 2) [], .hole, .node (.int 3) []]),
    .change ⟨some "tree", some [2]⟩ (.setValue (some (.int 4))),
    .machine (.create (some "machine") (some "tree")),
    .machine (.step (some "machine") (some 2) true),
    .policy]

theorem policies_interchangeable_tour :
    (∀ c ∈ tour, c.isCloneless) ∧
    (performAll true (.empty .shared) tour).1 =
        (performAll true (.empty .unique) tour).1.under .shared ∧
      runScript .shared true tour = (runScript .unique true tour).under .shared tour := by
  have htour : ∀ c ∈ tour, c.isCloneless := by decide
  exact ⟨htour, policies_interchangeable .unique .shared true tour htour⟩

end Workspace

end SlotTree
