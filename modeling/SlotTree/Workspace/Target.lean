import SlotTree.Workspace.Basic

/-! # Targets

A target is a register and a path of slot indices below what it holds. To read, the path is
followed; to change, every node on it, the root included, must be held exclusively.
-/

namespace SlotTree

/-- A register and a path below it. -/
structure Target where
  register : Field String
  path : Field (List Nat)

/-- The register and the path of a target that says both. -/
def Target.parts (t : Target) : Except Failure (String × List Nat) := do
  return (← t.register.need, ← t.path.need)

namespace Workspace

variable (w : Workspace)

/-- What a register holds. -/
def register (name : String) : Except Failure Slot :=
  match w.registers.get? name with
  | some s => .ok s
  | none => .error .noSuchRegister

/-- The node that a register holds. -/
def root (name : String) : Except Failure NodeId := do
  match ← w.register name with
  | some id => return id
  | none => throw .emptyRegister

/-- The end of a path to read. -/
def follow (id : NodeId) (path : List Nat) : Except Failure NodeId :=
  (w.heap.descend id path).mapError .access

/-- The node of a target to read. -/
def locate (t : Target) : Except Failure NodeId := do
  let (name, path) ← t.parts
  w.follow (← w.root name) path

/-- The node of a target to change. -/
def locateOwned (t : Target) : Except Failure NodeId := do
  let (name, path) ← t.parts
  let id ← w.root name
  if w.heap.isExclusive id then (w.heap.descendOwned id path).mapError .access
  else throw .sharedRoot

/-- The slot of a target: the register itself, or the slot at the end of the path, which may be a
hole. -/
def locateSlot (t : Target) : Except Failure Slot := do
  let (name, path) ← t.parts
  match path.getLast? with
  | none => w.register name
  | some last =>
    let id ← w.follow (← w.root name) path.dropLast
    (w.heap.slotAt id last).mapError .access

/-- The index of a slot that the asker vouches for. -/
def checkBounds (id : NodeId) (index : Nat) : Except Failure Nat :=
  let length := (w.heap.slotsOf id).length
  if index < length then .ok index else .error (.outOfBounds index length)

/-- The tree of a target to draw, where a register that holds a hole counts as the lack of one. -/
def locateDrawn (t : Target) : Except Failure Slot := do
  let (name, path) ← t.parts
  match path, ← w.register name with
  | [], none => return none
  | _, none => throw .emptyRegister
  | _, some id => return some (← w.follow id path)

end Workspace

end SlotTree
