import SlotTree.Heap.Release
import SlotTree.Tree.Basic

/-! # Changing one node

The node to change is named by its identity; whether its holder may change it is the caller's
question. A value or a handle that an edit replaces is given up by the edit, and the values that
die on the way are returned in order.
-/

namespace SlotTree.Heap

universe u

variable {α : Type u}

/-- Replaces the value of a node; the old one is given up. -/
def setValue (h : Heap α) (id : NodeId) (value : α) : Heap α × List α :=
  match h.get? id with
  | some n => (h.put id { n with value := value }, [n.value])
  | none => (h, [value])

/-- Appends a slot. -/
def pushBack (h : Heap α) (id : NodeId) (s : Slot) : Heap α :=
  h.setSlots id (h.slotsOf id ++ [s])

/-- Takes off the last slot, if there is one. -/
def popBack (h : Heap α) (id : NodeId) : Option (Slot × Heap α) :=
  let slots := h.slotsOf id
  slots.getLast?.map fun s => (s, h.setSlots id slots.dropLast)

/-- Replaces all slots; the old ones are given up first to last. -/
def replaceSlots (h : Heap α) (id : NodeId) (slots : List Slot) : Heap α × List α :=
  let old := h.slotsOf id
  (h.setSlots id slots).release (old.filterMap fun s => s)

/-- Replaces the slot at an index and returns what it held. -/
def exchange (h : Heap α) (id : NodeId) (index : Nat) (s : Slot) : Heap α × Slot :=
  let slots := h.slotsOf id
  (h.setSlots id (slots.set index s), slots[index]?.join)

/-- Makes holes of the slots at the given indices, and gives up what they held in slot order.
Also counts the nodes that were taken out. -/
def punch (h : Heap α) (id : NodeId) (holes : List Nat) : (Heap α × List α) × Nat :=
  let slots := h.slotsOf id
  let kept := slots.mapIdx fun i s => if holes.contains i then none else s
  let taken := (slots.mapIdx fun i s => if holes.contains i then s else none).filterMap
    fun s => s
  ((h.setSlots id kept).release taken, taken.length)

/-- Takes the value out of a node that ends with it: its slots are given up, the value is not. -/
def unwrap (h : Heap α) (id : NodeId) : Option (α × Heap α × List α) :=
  (h.get? id).map fun n => (n.value, (h.free id).release n.handles)

mutual

/-- Makes the nodes of a tree and returns the handle to its root. -/
def plant (h : Heap α) : Tree α → Heap α × NodeId
  | .node v row =>
    let (h, slots) := plantRow h row
    h.alloc v slots

/-- Makes the nodes of a row of slots, left to right. -/
def plantRow (h : Heap α) : Row α → Heap α × List Slot
  | [] => (h, [])
  | none :: rest =>
    let (h, slots) := plantRow h rest
    (h, none :: slots)
  | some t :: rest =>
    let (h, id) := plant h t
    let (h, slots) := plantRow h rest
    (h, some id :: slots)

end

end SlotTree.Heap
