import SlotTree.Proofs.Dismantler.Checks
import SlotTree.Proofs.Workspace.Run

/-! # Dismantlers between commands

A workspace stays sound under all commands, so its dismantlers wait undisturbed for their next step,
whatever was done to the handles of others meanwhile.
-/

namespace SlotTree.Workspace

open List Heap Dismantler

/-- After any run of commands, a dismantler is poised for its next step, and it stays so however
many steps it takes. The others are the registers and the other dismantlers. -/
theorem machines_poised (p : Policy) (showRegisters : Bool) (commands : List Command)
    {name : String} {m : Dismantler}
    (hget : (performAll showRegisters (.empty p) commands).1.machines.get? name = some m)
    (steps : Nat) :
    let w := (performAll showRegisters (.empty p) commands).1
    let o := Dismantler.runFor steps m w.heap
    Poised { w with machines := w.machines.erase name }.holders o.machine o.heap := by
  intro w o
  have sound : Sound [] w := (performAll_spec (sound_empty p) rfl showRegisters commands).sound
  have owned := (sound.stage.takeMachine name).sound.owned
  rw [hget, Option.elim_some, List.append_nil] at owned
  have ready : m.Ready w.heap := sound.ready _ (sound.machines.mem_of_get? hget)
  have hkept := runFor_kept steps owned ready
  exact hkept.ready.poised hkept.owned

/-- A leaf is shared by a register and by two nodes of a tree. After the first step of a
dismantling, the register gives its handle up. -/
def handover : List Command :=
  [.make (some "leaf") (some .create) (.node (.int 3) []),
    .make (some "tree") (some .create)
      (.node (.int 1) [.node (.int 2) [.share "leaf"], .share "leaf"]),
    .machine (.create (some "machine") (some "tree")),
    .machine (.step (some "machine") (some 1) false),
    .drop (some "leaf")]

theorem machines_poised_handover :
    let w := (performAll false (.empty .shared) handover).1
    ∃ m, w.machines.get? "machine" = some m ∧ m.current = some 1 ∧ m.parent = some 2 ∧
      w.heap.slotsOf 2 = [none, some 0] ∧
      ∀ steps, Poised { w with machines := w.machines.erase "machine" }.holders
        (Dismantler.runFor steps m w.heap).machine (Dismantler.runFor steps m w.heap).heap := by
  intro w
  have hheld : (w.machines.get? "machine").map (fun m => (m.current, m.parent)) =
      some (some 1, some 2) := by
    decide +kernel
  obtain ⟨m, hget, hm⟩ := Option.map_eq_some_iff.1 hheld
  obtain ⟨hcurrent, hparent⟩ := Prod.mk.inj hm
  exact ⟨m, hget, hcurrent, hparent, by decide +kernel,
    machines_poised .shared false handover hget⟩

/-- A handle is cloned out of the row of a waiting parent, which stays with its machine alone. -/
example :
    let w := (performAll false (.empty .shared) [
      .make (some "tree") (some .create)
        (.node (.int 1) [.node (.int 2) [.node (.int 3) []], .node (.int 4) []]),
      .machine (.create (some "machine") (some "tree")),
      .machine (.step (some "machine") (some 1) false),
      .shareShown ⟨some "machine", some .parent, some [], some 1⟩ (some "lent")]).1
    (w.machines.get? "machine").bind (·.parent) = some 3 ∧ w.heap.slotsOf 3 = [none, some 2] ∧
      w.registers.get? "lent" = some (some 2) ∧ w.heap.countOf 2 = 2 ∧ w.heap.countOf 3 = 1 := by
  decide +kernel

end SlotTree.Workspace
