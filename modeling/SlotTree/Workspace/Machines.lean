import SlotTree.Text.Term
import SlotTree.Workspace.Answer
import SlotTree.Workspace.Target

/-! # Dismantlers in a workspace -/

namespace SlotTree

namespace Heap

variable (h : Heap Value)

/-- What is seen of a node that a dismantler holds. -/
def heldReport (full : Bool) (s : Slot) : Option HeldReport :=
  if full then (h.viewSlot s).map fun t => .term (Text.bracketedTerm t)
  else (s.bind h.get?).map fun n => .outline n.value n.slots.length

/-- What is seen of a dismantler. -/
def machineReport (full : Bool) (m : Dismantler) : MachineReport :=
  ⟨m.isDone, h.heldReport full m.current, h.heldReport full m.parent, m.steps, m.rotations⟩

end Heap

namespace Dismantler

/-- Single steps, up to a number of them, ending after one that had nothing to do. The reports are
added to those before. -/
def stepOnto (full : Bool) (noted : Array StepReport) :
    Nat → Dismantler → Heap Value → Dismantler × Heap Value × List StepReport
  | 0, m, h => (m, h, noted.toList)
  | n + 1, m, h =>
    match m.current with
    | none => (m, h, (noted.push ⟨h.machineReport full m, false, []⟩).toList)
    | some current =>
      let ⟨m, h, values⟩ := m.advance h current
      stepOnto full (noted.push ⟨h.machineReport full m, true, Event.ofReleased values⟩) n m h

/-- Single steps, up to a number of them, ending after one that had nothing to do. The values that
died are in the reports. -/
def stepUpTo (full : Bool) (n : Nat) (m : Dismantler) (h : Heap Value) :
    Dismantler × Heap Value × List StepReport := stepOnto full #[] n m h

section Steps

variable {m : Dismantler} {h : Heap Value} {current : NodeId}

theorem stepOnto_done (hdone : m.current = none) (full : Bool) (noted : Array StepReport)
    (n : Nat) : stepOnto full noted (n + 1) m h =
      (m, h, (noted.push ⟨h.machineReport full m, false, []⟩).toList) := by
  rw [stepOnto, hdone]

theorem stepOnto_succ (hcurrent : m.current = some current) (full : Bool)
    (noted : Array StepReport) (n : Nat) :
    stepOnto full noted (n + 1) m h =
      let o := m.advance h current
      stepOnto full (noted.push ⟨o.heap.machineReport full o.machine, true,
        Event.ofReleased o.values⟩) n o.machine o.heap := by
  rw [stepOnto, hcurrent]

/-- What was reported before comes first, and has no part in the steps. -/
theorem stepOnto_eq (full : Bool) (noted : Array StepReport) (n : Nat) (m : Dismantler)
    (h : Heap Value) :
    stepOnto full noted n m h =
      ((stepUpTo full n m h).1, (stepUpTo full n m h).2.1,
        noted.toList ++ (stepUpTo full n m h).2.2) := by
  induction n generalizing noted m h with
  | zero => simp [stepOnto, stepUpTo]
  | succ n ih =>
    cases hcurrent : m.current with
    | none => simp [stepUpTo, stepOnto_done hcurrent]
    | some current =>
      rw [stepUpTo, stepOnto_succ hcurrent, stepOnto_succ hcurrent, ih, ih (#[].push _)]
      simp

theorem stepUpTo_done (hdone : m.current = none) (full : Bool) (n : Nat) :
    stepUpTo full (n + 1) m h = (m, h, [⟨h.machineReport full m, false, []⟩]) :=
  stepOnto_done hdone full #[] n

theorem stepUpTo_succ (hcurrent : m.current = some current) (full : Bool) (n : Nat) :
    stepUpTo full (n + 1) m h =
      let o := m.advance h current
      let later := stepUpTo full n o.machine o.heap
      (later.1, later.2.1, ⟨o.heap.machineReport full o.machine, true,
        Event.ofReleased o.values⟩ :: later.2.2) := by
  rw [stepUpTo, stepOnto_succ hcurrent, stepOnto_eq]
  simp

end Steps

end Dismantler

/-- The nodes that a dismantler lets others look at. -/
inductive Shown where
  | current
  | parent

/-- What is shown by a dismantler. -/
def Dismantler.shown (m : Dismantler) : Shown → Slot
  | .current => m.current
  | .parent => m.parent

/-- A slot of a node below a dismantler: the node that is shown, a path from there, and the index.
The handle to the node that is shown stays with the dismantler. -/
structure MachineTarget where
  machine : Field String
  shown : Field Shown
  path : Field (List Nat)
  index : Field Nat

namespace Workspace

/-- The dismantler of a name. -/
def machine (w : Workspace) (name : Field String) : Except Failure (String × Dismantler) := do
  let name ← name.need
  match w.machines.get? name with
  | some m => return (name, m)
  | none => throw .noSuchMachine

/-- The slot of a target below a dismantler. -/
def locateShown (w : Workspace) (t : MachineTarget) : Except Failure Slot := do
  let (_, m) ← w.machine t.machine
  let shown ← t.shown.need
  let path ← t.path.need
  let index ← t.index.need
  match m.shown shown with
  | some id =>
    let above ← w.follow id path
    (w.heap.slotAt above index).mapError .access
  | none => throw .emptyRegister

/-- Stores a dismantler in the place of another, which runs to its end. -/
def installMachine (w : Workspace) (name : String) (m : Dismantler) : Workspace :=
  let old := w.machines.get? name
  let w := { w with machines := w.machines.insert name m }
  match old with
  | some old => w.dropMachine old
  | none => w

end Workspace

/-- What is done with dismantlers. -/
inductive MachineCommand where
  /-- Dismantles what a register holds, all at once. -/
  | destroy (register : Field String)
  /-- Hands what a register holds to a new dismantler. -/
  | create (machine register : Field String)
  | step (machine : Field String) (n : Field Nat) (full : Bool)
  | state (machine : Field String)
  | run (machine : Field String)
  | drop (machine : Field String)

namespace Action

/-- Dismantles what a register holds; a hole is nothing to dismantle. -/
def destroy (register : Field String) : Action Answer := do
  let name ← look fun _ => register.need
  let _ ← look (·.register name)
  modify fun w =>
    let picked := w.pick name
    let ended := picked.1.heap.dismantle picked.2
    { picked.1 with heap := ended.1 }.report ended.2
  return .nothing

/-- Starts a dismantler on what a register holds. -/
def createMachine (machine register : Field String) : Action Answer := do
  let machine ← look fun _ => machine.need
  let name ← look fun _ => register.need
  let _ ← look (·.register name)
  modify fun w =>
    let picked := w.pick name
    picked.1.installMachine machine (.start picked.2)
  return .nothing

/-- Single steps. Their number is looked at before the dismantler. -/
def stepMachine (machine : Field String) (n : Field Nat) (full : Bool) : Action Answer := do
  let n ← look fun _ => n.need
  let (name, m) ← look (·.machine machine)
  alter fun w =>
    let (m, h, reports) := m.stepUpTo full n w.heap
    (.steps reports, { w with heap := h, machines := w.machines.insert name m })

/-- The state of a dismantler. -/
def machineState (machine : Field String) : Action Answer := do
  let (_, m) ← look (·.machine machine)
  return .machine ((← get).heap.machineReport true m)

/-- All remaining steps. -/
def runMachine (machine : Field String) : Action Answer := do
  let (name, m) ← look (·.machine machine)
  alter fun w =>
    let (w, m) := w.finish m
    (.machine (w.heap.machineReport true m), { w with machines := w.machines.insert name m })

/-- Removes a dismantler, which runs to its end. -/
def dropMachine (machine : Field String) : Action Answer := do
  let (name, m) ← look (·.machine machine)
  modify fun w => { w with machines := w.machines.erase name }.dropMachine m
  return .nothing

end Action

/-- Carries out a command on dismantlers. -/
def MachineCommand.exec : MachineCommand → Action Answer
  | .destroy register => Action.destroy register
  | .create machine register => Action.createMachine machine register
  | .step machine n full => Action.stepMachine machine n full
  | .state machine => Action.machineState machine
  | .run machine => Action.runMachine machine
  | .drop machine => Action.dropMachine machine

end SlotTree
