import SlotTree.Drain
import SlotTree.Workspace.Answer
import SlotTree.Workspace.Spec
import SlotTree.Workspace.Target

/-! # Changing nodes

A change first gets together what it brings along (a value, trees, the indices of new holes), then
finds its node, and only then looks at the rest of its parts, the register for what it takes out
last of all. If it fails, what it has in hand is given up.
-/

namespace SlotTree

/-- How a change gets at a slot. -/
inductive SlotAccess where
  /-- By an index that the asker vouches for. -/
  | unchecked
  /-- By a checked index. -/
  | checked
  | front
  | back

/-- A change of a node. -/
inductive Change where
  | setValue (value : Field Value)
  | pushBack (tree : Spec)
  | setChildren (trees : Field (List Spec))
  /-- Drains the node. -/
  | removeChildren
  | popBack (into : Field (Option String))
  | putSlot (access : Field SlotAccess) (index : Field Nat) (tree : Spec)
  | takeSlot (access : Field SlotAccess) (index : Field Nat) (into : Field (Option String))
  /-- Takes and gives up the slots at some indices. -/
  | punch (holes : Field (List Nat))

namespace Workspace

/-- The index of the slot that an access reaches. Only an access by index looks at one. -/
def slotIndex (w : Workspace) (id : NodeId) (access : SlotAccess) (index : Field Nat) :
    Except Failure Nat := do
  let length := (w.heap.slotsOf id).length
  match access with
  | .unchecked => w.checkBounds id (← index.need)
  | .checked =>
    let index ← index.need
    let _ ← (w.heap.slotAt id index).mapError .access
    return index
  | .front => if length = 0 then throw .noChildren else return 0
  | .back => if length = 0 then throw .noChildren else return length - 1

/-- Puts a slot into the place of another, which comes into the hand. -/
def exchange (w : Workspace) (id : NodeId) (index : Nat) (s : Slot) : Workspace × Slot :=
  let exchanged := w.heap.exchange id index s
  ({ w with heap := exchanged.1 }, exchanged.2)

end Workspace

namespace Action

/-- Gives a node another value. If there is no such node, the new value dies. -/
def setValue (t : Target) (value : Field Value) : Action Answer := do
  let value ← look fun _ => value.need
  let w ← get
  match w.locateOwned t with
  | .ok id =>
    modify fun w => w.settle (w.heap.setValue id value)
    return .nothing
  | .error failure =>
    modify (·.report [.released value])
    throw failure

/-- Appends a slot to a node. -/
def pushBack (t : Target) (tree : Spec) : Action Answer := do
  let s ← tree.build
  holding [s] do
    let id ← look (·.locateOwned t)
    modify fun w => { w with heap := w.heap.pushBack id s }
    return .nothing

/-- Gives a node other slots. -/
def setChildren (t : Target) (trees : Field (List Spec)) : Action Answer := do
  let slots ← Spec.buildAll (← look fun _ => trees.need)
  holding slots do
    let id ← look (·.locateOwned t)
    modify fun w => w.settle (w.heap.replaceSlots id slots)
    return .nothing

/-- Drains a node. -/
def removeChildren (t : Target) : Action Answer := do
  let id ← look (·.locateOwned t)
  modify fun w =>
    let drained := w.heap.drain id
    { w with heap := drained.1 }.report drained.2
  return .nothing

/-- Puts a slot in hand into a register if one is named, else gives it up. Answers the slot.
The name is looked at last, so a slot taken before is given up if the name is malformed. -/
def stow (into : Field (Option String)) (s : Slot) : Action Answer := do
  let content := (← get).content s
  holding [s] do
    let into ← look fun _ => into.need
    modify (·.keep into s)
  return .slot content

/-- Takes off the last slot of a node. -/
def popBack (t : Target) (into : Field (Option String)) : Action Answer := do
  let id ← look (·.locateOwned t)
  match (← get).heap.popBack id with
  | none => return .nothing
  | some (s, h) =>
    modify fun w => { w with heap := h }
    stow into s

/-- Assigns a slot of a node. -/
def putSlot (t : Target) (access : Field SlotAccess) (index : Field Nat) (tree : Spec) :
    Action Answer := do
  let s ← tree.build
  holding [s] do
    let id ← look (·.locateOwned t)
    let access ← look fun _ => access.need
    let index ← look (·.slotIndex id access index)
    modify fun w =>
      let exchanged := w.exchange id index s
      exchanged.1.giveUp [exchanged.2]
    return .nothing

/-- Takes what is in a slot of a node and leaves a hole. -/
def takeSlot (t : Target) (access : Field SlotAccess) (index : Field Nat)
    (into : Field (Option String)) : Action Answer := do
  let id ← look (·.locateOwned t)
  let access ← look fun _ => access.need
  let index ← look (·.slotIndex id access index)
  let s ← alter fun w =>
    let exchanged := w.exchange id index none
    (exchanged.2, exchanged.1)
  stow into s

/-- Makes holes of some slots of a node, and counts the nodes taken out. -/
def punch (t : Target) (holes : Field (List Nat)) : Action Answer := do
  let holes ← look fun _ => holes.need
  let id ← look (·.locateOwned t)
  alter fun w =>
    let punched := w.heap.punch id holes
    (.number punched.2, w.settle punched.1)

end Action

/-- Carries out a change at a target. -/
def Change.run (t : Target) : Change → Action Answer
  | .setValue value => Action.setValue t value
  | .pushBack tree => Action.pushBack t tree
  | .setChildren trees => Action.setChildren t trees
  | .removeChildren => Action.removeChildren t
  | .popBack into => Action.popBack t into
  | .putSlot access index tree => Action.putSlot t access index tree
  | .takeSlot access index into => Action.takeSlot t access index into
  | .punch holes => Action.punch t holes

end SlotTree
