import SlotTree.Dismantler
import SlotTree.Heap.Edit
import SlotTree.Value
import SlotTree.Workspace.Failure
import SlotTree.Workspace.Registry

/-! # Workspaces

A workspace is a heap with its holders: registers, which hold a handle or a hole, and dismantlers at
work. All that the heap reports goes to a journal.
-/

namespace SlotTree

/-- A heap, those who hold handles to its nodes, and the journal since it was last read. -/
structure Workspace where
  heap : Heap Value
  registers : Registry Slot
  machines : Registry Dismantler
  journal : Array (Event Value)

namespace Workspace

/-- A workspace without nodes and holders. -/
def empty (p : Policy) : Workspace := ⟨.empty p, .empty, .empty, #[]⟩

/-- Adds to the journal. -/
def report (w : Workspace) (events : List (Event Value)) : Workspace :=
  { w with journal := w.journal ++ events }

/-- Replaces the heap after values died. -/
def settle (w : Workspace) (after : Heap Value × List Value) : Workspace :=
  { w with heap := after.1 }.report (Event.ofReleased after.2)

/-- Gives up slots in hand, first to last. -/
def giveUp (w : Workspace) (slots : List Slot) : Workspace :=
  w.settle (w.heap.release (slots.filterMap id))

/-- Puts a slot into a register; what was there is given up. -/
def assign (w : Workspace) (name : String) (s : Slot) : Workspace :=
  let old := (w.registers.get? name).join
  { w with registers := w.registers.insert name s }.giveUp [old]

/-- Puts a slot into a register if one is named, and gives it up otherwise. -/
def keep (w : Workspace) (into : Option String) (s : Slot) : Workspace :=
  match into with
  | some name => w.assign name s
  | none => w.giveUp [s]

/-- Moves the slot of a register into the hand; the register is gone. -/
def pick (w : Workspace) (name : String) : Workspace × Slot :=
  ({ w with registers := w.registers.erase name }, (w.registers.get? name).join)

/-- Makes the nodes of a tree, with one handle to the root in hand. -/
def grow (w : Workspace) (t : Tree Value) : Workspace × NodeId :=
  let planted := w.heap.plant t
  ({ w with heap := planted.1 }, planted.2)

/-- Makes the nodes of a row, with its slots in hand. -/
def growRow (w : Workspace) (row : Row Value) : Workspace × List Slot :=
  let planted := w.heap.plantRow row
  ({ w with heap := planted.1 }, planted.2)

/-- Runs a dismantler to its end. -/
def finish (w : Workspace) (m : Dismantler) : Workspace × Dismantler :=
  let ran := m.run w.heap
  ({ w with heap := ran.2.1 }.report ran.2.2, ran.1)

/-- Drops a dismantler, which first runs to its end. -/
def dropMachine (w : Workspace) (m : Dismantler) : Workspace := (w.finish m).1

/-- The value of the node in a slot. -/
def content (w : Workspace) (s : Slot) : Option Value := (s.bind w.heap.get?).map (·.value)

/-- Gives up all holders: the dismantlers, then the registers, in ascending order of names. -/
def close (w : Workspace) : Workspace :=
  let idle := w.machines.entries.foldl (fun w entry => w.dropMachine entry.2)
    { w with machines := .empty }
  idle.registers.entries.foldl (fun w entry => w.giveUp [entry.2])
    { idle with registers := .empty }

end Workspace

/-- Something done in a workspace that may fail on the way. What was done up to the failure
stays. -/
abbrev Action := ExceptT Failure (StateM Workspace)

namespace Action

/-- Looks at the workspace. -/
def look {α : Type} (f : Workspace → Except Failure α) : Action α := do
  MonadExcept.ofExcept (f (← get))

/-- Changes the workspace. -/
def alter {α : Type} (f : Workspace → α × Workspace) : Action α := modifyGet f

/-- An action with slots in hand: if it fails, they are given up. -/
def holding {α : Type} (inHand : List Slot) (act : Action α) : Action α :=
  tryCatch act fun failure => do
    modify (·.giveUp inHand)
    throw failure

end Action

end SlotTree
