import SlotTree.Tree.Basic

/-! # Walking level by level -/

namespace SlotTree

universe u

/-- A walk that visits a tree level by level, left to right: the rest of the level being visited,
and of the next one the children of the nodes already visited, those of the last node first. -/
structure BreadthFirst (α : Type u) where
  thisLevel : List (Tree α)
  families : List (List (Tree α))

namespace BreadthFirst

variable {α : Type u}

def start (root : Tree α) : BreadthFirst α := ⟨[root], []⟩

/-- The node to be yielded next. -/
def current (w : BreadthFirst α) : Option (Tree α) := w.thisLevel.head?

/-- What is known of the next level, left to right. -/
def nextLevel (w : BreadthFirst α) : List (Tree α) := w.families.reverse.flatten

/-- Yields a node and collects its children; after the last node of a level the collected one
takes its place. -/
def next (w : BreadthFirst α) : Option (Tree α × BreadthFirst α) :=
  match w.thisLevel with
  | [] => none
  | [t] => some (t, ⟨nextLevel ⟨[], t.children :: w.families⟩, []⟩)
  | t :: rest => some (t, ⟨rest, t.children :: w.families⟩)

/-- The number of nodes not yet yielded. -/
def remaining (w : BreadthFirst α) : Nat :=
  w.thisLevel.foldr (·.size + ·) 0 + w.nextLevel.foldr (·.size + ·) 0

end BreadthFirst

end SlotTree
