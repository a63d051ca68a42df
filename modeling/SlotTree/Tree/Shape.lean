import SlotTree.Tree.Basic

/-! # Trees of regular shape

The nodes are numbered: a spine by height, a complete tree level by level, a wide tree from left to
right.
-/

namespace SlotTree

/-- What stands in a slot of a spine node: the spine below, a hole or a leaf of its own. -/
inductive Mark where
  | below
  | hole
  | leaf
  deriving DecidableEq

namespace Tree

/-- The slots of a spine node above a spine; its leaves take the next free numbers. Also returns the
number that is free then. -/
def spineRow (below : Tree Nat) : Nat → List Mark → Row Nat × Nat
  | free, [] => ([], free)
  | free, .below :: marks =>
    let after := spineRow below free marks
    (some below :: after.1, after.2)
  | free, .hole :: marks =>
    let after := spineRow below free marks
    (none :: after.1, after.2)
  | free, .leaf :: marks =>
    let after := spineRow below (free + 1) marks
    (some (leaf free) :: after.1, after.2)

/-- A spine of nodes `n - 1` down to `0`. The slots of node `i` follow the pattern at place `i - 1`,
counted round; the leaves beside the spine are numbered from `n`, lowest node first. -/
def spine (n : Nat) (patterns : List (List Mark)) : Tree Nat :=
  let grown := (List.range (n - 1)).foldl (fun (grown : Tree Nat × Nat) i =>
    let row := spineRow grown.1 grown.2 ((patterns[i % patterns.length]?).getD [])
    (.node (i + 1) row.1, row.2)) (leaf 0, n)
  grown.1

/-- The part of a complete tree below a node: for each further level of depth a node has `arity`
children, whose numbers follow level by level. -/
def complete (arity : Nat) : Nat → Nat → Tree Nat
  | depth + 2, number =>
    .node number ((List.range arity).map fun j =>
      some (complete arity (depth + 1) (arity * (number - 1) + 2 + j)))
  | _, number => leaf number

/-- A node above `n` leaves. -/
def wide (n : Nat) : Tree Nat :=
  .node 0 ((List.range n).map fun i => some (leaf (i + 1)))

end Tree

end SlotTree
