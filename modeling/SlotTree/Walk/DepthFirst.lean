import SlotTree.Tree.Basic

/-! # Walking in pre-order -/

namespace SlotTree

universe u

/-- A walk that visits a node before its children, left to right. It stands at the node it yields
next, and keeps the slots not yet seen of each ancestor, innermost first. -/
structure DepthFirst (α : Type u) where
  current : Option (Tree α)
  pending : List (Row α)

namespace DepthFirst

variable {α : Type u}

def start (root : Tree α) : DepthFirst α := ⟨some root, []⟩

/-- Stands at the first tree in the rows, which lose it and the holes before it. -/
def seek : List (Row α) → DepthFirst α
  | [] => ⟨none, []⟩
  | row :: rows =>
    match Tree.firstPresent? row with
    | some (t, rest) => ⟨some t, rest :: rows⟩
    | none => seek rows

/-- Yields a node and moves on; `none` at the end. -/
def next (w : DepthFirst α) : Option (Tree α × DepthFirst α) :=
  w.current.map fun t => (t, seek (t.slots :: w.pending))

/-- The number of nodes not yet yielded. -/
def remaining (w : DepthFirst α) : Nat :=
  (w.current.map Tree.size).getD 0 + w.pending.foldr (Tree.rowSize · + ·) 0

end DepthFirst

end SlotTree
