import SlotTree.Heap.Basic
import SlotTree.Tree.Basic

/-! # What a handle shows

Following the handles from a node unfolds it to a tree; a node that is reached on two ways stands
at two places of the tree, under one identity. Each node is followed only once, and its tree is put
at all its places, so unfolding takes no longer than the heap is large, however large the tree is.
-/

namespace SlotTree

universe u

/-- A node as seen from outside: its identity, its handle count and its value. -/
structure Located (α : Type u) where
  id : NodeId
  count : Nat
  value : α

namespace Heap

variable {α : Type u}

/-- The trees found so far, each at the identity of its root. -/
abbrev Seen (α : Type u) := Array (Option (Tree (Located α)))

/-- Unfolds the slots of a node, left to right. -/
def unfoldRow (unfold : NodeId → Seen α → Option (Tree (Located α)) × Seen α) :
    List Slot → Seen α → Row (Located α) × Seen α
  | [], seen => ([], seen)
  | none :: rest, seen =>
    let (row, seen) := unfoldRow unfold rest seen
    (none :: row, seen)
  | some id :: rest, seen =>
    let (t, seen) := unfold id seen
    let (row, seen) := unfoldRow unfold rest seen
    (t :: row, seen)

/-- Unfolds a node down to a depth, unless its tree is known. -/
def unfold (h : Heap α) : Nat → NodeId → Seen α → Option (Tree (Located α)) × Seen α
  | 0, _, seen => (none, seen)
  | depth + 1, id, seen =>
    match seen[id]?.join with
    | some t => (some t, seen)
    | none =>
      match h.get? id with
      | none => (none, seen)
      | some n =>
        let (row, seen) := unfoldRow (h.unfold depth) n.slots seen
        let t := .node ⟨id, n.count, n.value⟩ row
        (some t, seen.setIfInBounds id (some t))

/-- The tree below a node. No handle leads upwards, so no path is longer than the number of
cells. -/
def view (h : Heap α) (id : NodeId) : Option (Tree (Located α)) :=
  (h.unfold h.cells.size id (Array.replicate h.cells.size none)).1

/-- The tree in a slot. -/
def viewSlot (h : Heap α) (s : Slot) : Option (Tree (Located α)) := s.bind h.view

end Heap

end SlotTree
