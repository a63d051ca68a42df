import SlotTree.Heap.Basic

/-! # Finding nodes by slot index

Navigation follows slot indices downwards, either to read or with the right to change. The right
to change asks that every node on the way is held exclusively.
-/

namespace SlotTree

universe u

/-- Why a slot index leads to no node. -/
inductive AccessError where
  | indexOutOfRange (index count : Nat)
  | emptySlot (index : Nat)
  | sharedChild (index : Nat)
  deriving DecidableEq

def AccessError.message : AccessError → String
  | .indexOutOfRange index count =>
    s!"child index {index} out of range for node with {count} children"
  | .emptySlot index => s!"child slot {index} is empty"
  | .sharedChild index => s!"child {index} is shared with other handles"

namespace Heap

variable {α : Type u}

/-- The slot at an index. -/
def slotAt (h : Heap α) (id : NodeId) (index : Nat) : Except AccessError Slot :=
  match (h.slotsOf id)[index]? with
  | some s => .ok s
  | none => .error (.indexOutOfRange index (h.slotsOf id).length)

/-- The node in the slot at an index. -/
def childAt (h : Heap α) (id : NodeId) (index : Nat) : Except AccessError NodeId :=
  match h.slotAt id index with
  | .ok (some child) => .ok child
  | .ok none => .error (.emptySlot index)
  | .error e => .error e

/-- The node in the slot at an index, if this slot alone holds it. -/
def ownChildAt (h : Heap α) (id : NodeId) (index : Nat) : Except AccessError NodeId :=
  match h.childAt id index with
  | .ok child => if h.isExclusive child then .ok child else .error (.sharedChild index)
  | .error e => .error e

/-- Follows a path of indices to read. -/
def descend (h : Heap α) (id : NodeId) (path : List Nat) : Except AccessError NodeId :=
  path.foldlM h.childAt id

/-- Follows a path of indices to change the node at its end. -/
def descendOwned (h : Heap α) (id : NodeId) (path : List Nat) : Except AccessError NodeId :=
  path.foldlM h.ownChildAt id

end Heap

end SlotTree
