import SlotTree.Heap.View
import SlotTree.Walk.BreadthFirst
import SlotTree.Walk.DepthFirst
import SlotTree.Walk.InOrder

/-! # Cursors

A cursor is a walk in one of the three orders. Two cursors of one order are at the same position
when both are at the end, or both stand at one node, whatever way led there.
-/

namespace SlotTree

universe u

/-- The orders in which a tree is walked. -/
inductive Order where
  | breadthFirst
  | depthFirst
  | inOrder
  deriving DecidableEq

/-- A walk under way. -/
inductive Cursor (α : Type u) where
  | breadthFirst (walk : BreadthFirst α)
  | depthFirst (walk : DepthFirst α)
  | inOrder (walk : InOrder α)

namespace Cursor

variable {α : Type u}

def start : Order → Tree α → Cursor α
  | .breadthFirst, root => .breadthFirst (.start root)
  | .depthFirst, root => .depthFirst (.start root)
  | .inOrder, root => .inOrder (.start root)

def order : Cursor α → Order
  | .breadthFirst _ => .breadthFirst
  | .depthFirst _ => .depthFirst
  | .inOrder _ => .inOrder

/-- The node that `next` yields. -/
def current : Cursor α → Option (Tree α)
  | .breadthFirst w => w.current
  | .depthFirst w => w.current
  | .inOrder w => w.current

def isExhausted (c : Cursor α) : Bool := c.current.isNone

/-- Yields a node and moves on; `none` at the end. -/
def next : Cursor α → Option (Tree α × Cursor α)
  | .breadthFirst w => w.next.map fun (t, w) => (t, .breadthFirst w)
  | .depthFirst w => w.next.map fun (t, w) => (t, .depthFirst w)
  | .inOrder w => w.next.map fun (t, w) => (t, .inOrder w)

/-- The number of nodes not yet yielded. -/
def remaining : Cursor α → Nat
  | .breadthFirst w => w.remaining
  | .depthFirst w => w.remaining
  | .inOrder w => w.remaining

/-- Yields up to a number of nodes, behind those yielded before. -/
def takeOnto (noted : Array (Tree α)) : Nat → Cursor α → List (Tree α) × Cursor α
  | 0, c => (noted.toList, c)
  | n + 1, c =>
    match c.next with
    | none => (noted.toList, c)
    | some (t, c) => takeOnto (noted.push t) n c

/-- Yields up to a number of nodes. -/
def take (n : Nat) (c : Cursor α) : List (Tree α) × Cursor α := takeOnto #[] n c

/-- Yields all that is left. -/
def takeAll (c : Cursor α) : List (Tree α) × Cursor α := c.take c.remaining

/-- Whether two positions are the same: both past the end, or at one node. -/
def samePosition : Option (Tree (Located α)) → Option (Tree (Located α)) → Bool
  | none, none => true
  | some s, some t => s.value.id == t.value.id
  | _, _ => false

/-- Compares positions; cursors of different orders cannot be compared. -/
def equals? (c d : Cursor (Located α)) : Option Bool :=
  if c.order = d.order then some (samePosition c.current d.current) else none

/-! ## One node after the other -/

section Take

variable {c after : Cursor α} {t : Tree α}

theorem takeOnto_of_done (hnext : c.next = none) (noted : Array (Tree α)) (n : Nat) :
    takeOnto noted n c = (noted.toList, c) := by
  cases n <;> simp [takeOnto, hnext]

theorem takeOnto_succ (hnext : c.next = some (t, after)) (noted : Array (Tree α)) (n : Nat) :
    takeOnto noted (n + 1) c = takeOnto (noted.push t) n after := by
  simp [takeOnto, hnext]

/-- What was yielded before comes first, and has no part in the walk. -/
theorem takeOnto_eq (noted : Array (Tree α)) (n : Nat) (c : Cursor α) :
    takeOnto noted n c = (noted.toList ++ (c.take n).1, (c.take n).2) := by
  induction n generalizing noted c with
  | zero => simp [takeOnto, take]
  | succ n ih =>
    cases hnext : c.next with
    | none => simp [take, takeOnto_of_done hnext]
    | some found =>
      rw [take, takeOnto_succ hnext, takeOnto_succ hnext, ih, ih (#[].push _)]
      simp

theorem take_of_done (hnext : c.next = none) (n : Nat) : c.take n = ([], c) :=
  takeOnto_of_done hnext #[] n

theorem take_succ (hnext : c.next = some (t, after)) (n : Nat) :
    c.take (n + 1) = (t :: (after.take n).1, (after.take n).2) := by
  rw [take, takeOnto_succ hnext, takeOnto_eq]
  simp

end Take

end Cursor

/-- All nodes of a tree in an order. -/
def Tree.walk {α : Type u} (t : Tree α) (order : Order) : List (Tree α) :=
  (Cursor.start order t).takeAll.1

end SlotTree
