import SlotTree.Tree.Shape
import SlotTree.Workspace.Change
import SlotTree.Workspace.CursorScript
import SlotTree.Workspace.Machines

/-! # Commands -/

namespace SlotTree

/-- The words for making a node, which agree. -/
inductive Maker where
  | create
  | quick
  | wrap

/-- A command to a workspace. -/
inductive Command where
  | make (register : Field String) (maker : Field Maker) (tree : Spec)
  | spine (register : Field String) (n : Field Nat) (patterns : Field (List (List Mark)))
  | complete (register : Field String) (arity depth : Field Nat)
  | wide (register : Field String) (n : Field Nat)
  /-- Makes a leaf with the default value. -/
  | makeDefault (register : Field String)
  | drop (register : Field String)
  | policy
  | share (target : Target) (into : Field String)
  /-- Clones a handle below a dismantler at work. -/
  | shareShown (target : MachineTarget) (into : Field String)
  | count (target : Target)
  | exclusive (register : Field String)
  | query (target : Target) (query : Query)
  | format (target : Target) (style : Field Style)
  | write (target : Target) (start : Field String) (limit : Field (Option Nat))
  | cursors (acts : Field (List CursorAct))
  | change (target : Target) (change : Change)
  /-- Takes the value out of the node of a register, which ends. -/
  | intoValue (register : Field String)
  | machine (command : MachineCommand)
  | unknown

namespace Action

/-- Puts a slot in hand into a register. The register is looked at last, so a slot that finds none
is given up. -/
def store (register : Field String) (s : Slot) : Action Unit :=
  holding [s] do
    let name ← look fun _ => register.need
    modify (·.assign name s)

/-- Builds a specification into a register. -/
def make (register : Field String) (maker : Field Maker) (tree : Spec) : Action Answer := do
  let _ ← look fun _ => maker.need
  let s ← tree.build
  store register s
  return .nothing

/-- Makes a numbered tree in a register. -/
def plant (register : Field String) (t : Tree Nat) : Action Answer := do
  let root ← alter fun w =>
    let grown := w.grow (t.map fun n : Nat => .int n)
    (grown.2, grown.1)
  store register (some root)
  return .nothing

/-- Makes a numbered tree in a register, its root once the register is known: without one, only what
is below the root is given up. -/
def plantRootLast (register : Field String) (t : Tree Nat) : Action Answer := do
  let t := t.map fun n : Nat => Value.int n
  let slots ← alter fun w =>
    let grown := w.growRow t.slots
    (grown.2, grown.1)
  holding slots do
    let name ← look fun _ => register.need
    modify fun w =>
      let made := w.heap.alloc t.value slots
      { w with heap := made.1 }.assign name (some made.2)
    return .nothing

/-- Whether the patterns make a spine: at least one node, and in each pattern one slot for the spine
below. -/
def isSpine (n : Nat) (patterns : List (List Mark)) : Bool :=
  n != 0 && !patterns.isEmpty && patterns.all fun marks => marks.count .below == 1

/-- Makes a spine in a register. -/
def spine (register : Field String) (n : Field Nat) (patterns : Field (List (List Mark))) :
    Action Answer := do
  let n ← look fun _ => n.need
  let patterns ← look fun _ => patterns.need
  if isSpine n patterns then plant register (.spine n patterns) else throw .badInput

/-- Makes a complete tree in a register. -/
def complete (register : Field String) (arity depth : Field Nat) : Action Answer := do
  let arity ← look fun _ => arity.need
  let depth ← look fun _ => depth.need
  plant register (.complete arity depth 1)

/-- Makes a wide tree in a register. -/
def wide (register : Field String) (n : Field Nat) : Action Answer := do
  let n ← look fun _ => n.need
  plantRootLast register (.wide n)

/-- Makes a leaf with the default value in a register. -/
def makeDefault (register : Field String) : Action Answer := plantRootLast register (.leaf 0)

/-- Removes a register: whether it held a node. -/
def drop (register : Field String) : Action Answer := do
  let name ← look fun _ => register.need
  let s ← look (·.register name)
  modify fun w =>
    let picked := w.pick name
    picked.1.giveUp [picked.2]
  return .bool s.isSome

/-- Clones what is in a slot, if it can be cloned. A hole always can. -/
def clone (s : Slot) : Action Unit := do
  match s with
  | none => return
  | some id =>
    match (← get).heap.share? id with
    | some h => modify fun w => { w with heap := h }
    | none => throw .unsupported

/-- Clones the handle in a slot into a register: whether there was one. -/
def share (locate : Workspace → Except Failure Slot) (into : Field String) : Action Answer := do
  let s ← look locate
  clone s
  store into s
  return .bool s.isSome

/-- Takes the value out of the node of a register, which must be the only holder. The slots of the
node are given up first; the value dies in the hand. -/
def intoValue (register : Field String) : Action Answer := do
  let name ← look fun _ => register.need
  let id ← look (·.root name)
  let w ← get
  if w.heap.isExclusive id then
    match w.heap.unwrap id with
    | some (value, h, values) =>
      set ({ w with registers := w.registers.erase name }.settle (h, values ++ [value]))
      return .value value
    | none => throw .emptyRegister
  else throw .sharedRoot

end Action

/-- Carries out a command. -/
def Command.exec : Command → Action Answer
  | .make register maker tree => Action.make register maker tree
  | .spine register n patterns => Action.spine register n patterns
  | .complete register arity depth => Action.complete register arity depth
  | .wide register n => Action.wide register n
  | .makeDefault register => Action.makeDefault register
  | .drop register => Action.drop register
  | .policy => do return .text (← get).heap.policy.name
  | .share target into => Action.share (·.locateSlot target) into
  | .shareShown target into => Action.share (·.locateShown target) into
  | .count target => Action.look (·.count target)
  | .exclusive register => Action.look (·.exclusive register)
  | .query target q => Action.look (·.query target q)
  | .format target style => Action.look (·.format target style)
  | .write target start limit => Action.look (·.write target start limit)
  | .cursors acts => do
    let acts ← Action.look fun _ => acts.need
    return .results ((← get).acts .empty acts)
  | .change target c => c.run target
  | .intoValue register => Action.intoValue register
  | .machine command => command.exec
  | .unknown => throw .badInput

end SlotTree
