import SlotTree.Text.Display
import SlotTree.Text.Record
import SlotTree.Walk.Cursor
import SlotTree.Workspace.Answer
import SlotTree.Workspace.Target

/-! # Looking at nodes

Queries read a workspace and leave it as it is.
-/

namespace SlotTree

/-- The words for the ways to list slots, which agree. -/
inductive Listing where
  | iter
  | intoIter
  | children

/-- The ways to write a tree down. -/
inductive Style where
  /-- The drawing as text. -/
  | drawn
  /-- The drawing as it appears on the console. -/
  | printed
  /-- The display of a node. -/
  | display
  /-- The same with a layout: a width of 12, with the text at its right end. -/
  | displayPadded
  /-- The record on one line. -/
  | record
  /-- The record as a block. -/
  | block
  /-- A word that stands for no way. -/
  | unknown
  deriving DecidableEq

/-- What is asked about a node. -/
inductive Query where
  | value
  | hasChild
  | childCount
  /-- The slot at an index that the asker vouches for. -/
  | child (index : Field Nat)
  | slotAt (index : Field Nat)
  | childAt (index : Field Nat)
  | front
  | back
  | slots (listing : Field Listing)
  | walk (order : Field Order)

namespace Workspace

variable (w : Workspace)

/-- The values of the nodes that a walk yields. -/
def valuesOf (trees : List (Tree (Located Value))) : List Value := trees.map (·.value.value)

/-- Answers a question about a node. -/
def inspect (id : NodeId) : Query → Except Failure Answer
  | .value => return .ofOption .value (w.content (some id))
  | .hasChild => return .bool !(w.heap.slotsOf id).isEmpty
  | .childCount => return .number (w.heap.slotsOf id).length
  | .child index => do
    let index ← w.checkBounds id (← index.need)
    return .slot (w.content (w.heap.slotsOf id)[index]?.join)
  | .slotAt index => do
    let s ← (w.heap.slotAt id (← index.need)).mapError .access
    return .slot (w.content s)
  | .childAt index => do
    let child ← (w.heap.childAt id (← index.need)).mapError .access
    return .ofOption .value (w.content (some child))
  | .front => return .ofOption (fun s => .slot (w.content s)) (w.heap.slotsOf id).head?
  | .back => return .ofOption (fun s => .slot (w.content s)) (w.heap.slotsOf id).getLast?
  | .slots listing => do
    let _ ← listing.need
    return .slots ((w.heap.slotsOf id).map w.content)
  | .walk order => do
    let order ← order.need
    return .values (((w.heap.view id).map fun t => valuesOf (t.walk order)).getD [])

/-- Answers a question about the node of a target. -/
def query (t : Target) (q : Query) : Except Failure Answer := do
  w.inspect (← w.locate t) q

/-- The number of handles to the node in a slot. -/
def count (t : Target) : Except Failure Answer := do
  let s ← w.locateSlot t
  return .ofOption (fun n => .number n.count) (s.bind w.heap.get?)

/-- Whether the node of a register may be changed through it. -/
def exclusive (name : Field String) : Except Failure Answer := do
  let s ← w.register (← name.need)
  return .ofOption (fun id => .bool (w.heap.isExclusive id)) s

/-- How a node is shown in a drawing. -/
def label (n : Located Value) : String := n.value.display

/-- Writes down the tree of a target. A hole has a drawing, but neither a display nor a record. -/
def format (t : Target) (style : Field Style) : Except Failure Answer := do
  let s ← w.locateDrawn t
  let style ← style.need
  match style, w.heap.viewSlot s with
  | .drawn, t | .printed, t => return .text (Text.drawing label t)
  | _, none => throw .emptyRegister
  | .display, some t => return .text (Text.display label .plain t)
  | .displayPadded, some t => return .text (Text.display label ⟨' ', some .right, some 12⟩ t)
  | .record, some t => return .text (Text.record (t.map (·.value)))
  | .block, some t => return .text (Text.recordBlock (t.map (·.value)))
  | .unknown, some _ => throw .badInput

/-- Draws the tree of a target into a sink that already holds some text and may have a limit to what
it takes beyond. -/
def write (t : Target) (start : Field String) (limit : Field (Option Nat)) :
    Except Failure Answer := do
  let s ← w.locateDrawn t
  let start ← start.need
  let limit ← limit.need
  let written := Text.writeDrawing label (w.heap.viewSlot s) ⟨start, limit⟩
  return .written written.1 written.2.text

end Workspace

end SlotTree
