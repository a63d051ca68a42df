import SlotTree.Workspace.Basic

/-! # Building trees from registers

A specification names what to put into a slot: a hole, a new node, what a register holds, or a
further handle to it. It is checked as a whole before anything is built, so a register is moved out
only if the rest can be built too.
-/

namespace SlotTree

/-- What to put into a slot. -/
inductive Spec where
  | hole
  | node (value : Value) (slots : List Spec)
  /-- The content of a register, which is gone afterwards. -/
  | take (register : String)
  /-- A clone of the handle in a register. -/
  | share (register : String)
  /-- Anything else. -/
  | malformed

namespace Spec

/-- Refuses a register that is not there or no longer there. -/
def checkRegister (w : Workspace) (taken : List String) (name : String) : Except Failure Unit :=
  if w.registers.contains name && !taken.contains name then .ok () else .error .noSuchRegister

mutual

/-- Checks a specification left to right, given the registers already taken; returns those taken
then. -/
def check (w : Workspace) (taken : List String) : Spec → Except Failure (List String)
  | .hole => .ok taken
  | .node _ slots => checkAll w taken slots
  | .take name => do
    checkRegister w taken name
    return name :: taken
  | .share name => do
    checkRegister w taken name
    if w.heap.policy = .unique then throw .unsupported
    return taken
  | .malformed => .error .badInput

/-- Checks specifications left to right. -/
def checkAll (w : Workspace) (taken : List String) : List Spec → Except Failure (List String)
  | [] => .ok taken
  | spec :: rest => do
    let taken ← check w taken spec
    checkAll w taken rest

end

mutual

/-- Builds what a checked specification says, with the slot in hand. -/
def construct (w : Workspace) : Spec → Workspace × Slot
  | .hole => (w, none)
  | .node value slots =>
    let below := constructAll w slots
    let made := below.1.heap.alloc value below.2
    ({ below.1 with heap := made.1 }, some made.2)
  | .take name => w.pick name
  | .share name =>
    match (w.registers.get? name).join with
    | some id =>
      match w.heap.share? id with
      | some h => ({ w with heap := h }, some id)
      | none => (w, none)
    | none => (w, none)
  | .malformed => (w, none)

/-- Builds slots left to right. -/
def constructAll (w : Workspace) : List Spec → Workspace × List Slot
  | [] => (w, [])
  | spec :: rest =>
    let first := construct w spec
    let after := constructAll first.1 rest
    (after.1, first.2 :: after.2)

end

/-- Checks specifications and builds them, with the slots in hand. -/
def buildAll (specs : List Spec) : Action (List Slot) := do
  let _ ← Action.look fun w => checkAll w [] specs
  Action.alter fun w =>
    let built := constructAll w specs
    (built.2, built.1)

/-- Checks a specification and builds it, with the slot in hand. -/
def build (spec : Spec) : Action Slot := do
  let _ ← Action.look fun w => check w [] spec
  Action.alter fun w =>
    let built := construct w spec
    (built.2, built.1)

end Spec

end SlotTree
