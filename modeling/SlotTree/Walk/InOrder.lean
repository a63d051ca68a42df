import SlotTree.Tree.Basic

/-! # Walking in order

For any number of slots, in-order is: the subtree of the first slot, the node, the subtrees of the
other slots. After a hole in the first slot the node itself comes first.
-/

namespace SlotTree

universe u

namespace InOrder

/-- What is left of an ancestor: itself, while its leftmost subtree is not done, and the slots
right of the first one. -/
structure Frame (α : Type u) where
  pending : Option (Tree α)
  rest : Row α

end InOrder

/-- A walk that visits the leftmost subtree, then the node, then the remaining subtrees. It stands
at the node it yields next, below its ancestors, innermost first. -/
structure InOrder (α : Type u) where
  current : Option (Tree α)
  frames : List (InOrder.Frame α)

namespace InOrder

variable {α : Type u}

mutual

/-- Goes down the first slots as far as they hold trees. -/
def leftmost : Tree α → List (Frame α) → InOrder α
  | .node v row, frames => leftmostFrom (.node v row) row frames

/-- Goes down from a tree with these slots. -/
def leftmostFrom (t : Tree α) : Row α → List (Frame α) → InOrder α
  | [], frames => ⟨some t, frames⟩
  | none :: rest, frames => ⟨some t, ⟨none, rest⟩ :: frames⟩
  | some left :: rest, frames => leftmost left (⟨some t, rest⟩ :: frames)

end

def start (root : Tree α) : InOrder α := leftmost root []

/-- Stands at the first node that the frames still have to yield. -/
def seek : List (Frame α) → InOrder α
  | [] => ⟨none, []⟩
  | ⟨some t, rest⟩ :: frames => ⟨some t, ⟨none, rest⟩ :: frames⟩
  | ⟨none, rest⟩ :: frames =>
    match Tree.firstPresent? rest with
    | some (t, rest) => leftmost t (⟨none, rest⟩ :: frames)
    | none => seek frames

/-- Yields a node and moves on; `none` at the end. -/
def next (w : InOrder α) : Option (Tree α × InOrder α) :=
  w.current.map fun t => (t, seek w.frames)

/-- The number of nodes that a frame still has to yield. -/
def Frame.remaining (f : Frame α) : Nat := f.pending.toList.length + Tree.rowSize f.rest

/-- The number of nodes not yet yielded. -/
def remaining (w : InOrder α) : Nat :=
  w.current.toList.length + w.frames.foldr (·.remaining + ·) 0

end InOrder

end SlotTree
