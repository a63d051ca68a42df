/-! # Trees of slots

A tree is a value above an ordered row of slots. A slot holds a tree or is a hole; holes count
as slots, and the nodes of a tree are its present descendants.
-/

namespace SlotTree

universe u v

/-- A value above an ordered row of slots, each a tree or a hole. -/
inductive Tree (α : Type u) where
  | node (value : α) (slots : List (Option (Tree α)))

/-- The slots of one node, left to right. -/
abbrev Row (α : Type u) := List (Option (Tree α))

namespace Tree

variable {α : Type u} {β : Type v}

def value : Tree α → α
  | .node v _ => v

def slots : Tree α → Row α
  | .node _ row => row

/-- A node without slots. -/
def leaf (v : α) : Tree α := .node v []

/-- The trees in the slots, holes skipped. -/
def children (t : Tree α) : List (Tree α) := t.slots.filterMap id

/-- The first tree of a row, with the slots after it. -/
def firstPresent? : Row α → Option (Tree α × Row α)
  | [] => none
  | none :: rest => firstPresent? rest
  | some t :: rest => some (t, rest)

mutual

/-- The number of nodes. -/
def size : Tree α → Nat
  | .node _ row => rowSize row + 1

/-- The number of nodes in a row of slots. -/
def rowSize : Row α → Nat
  | [] => 0
  | none :: rest => rowSize rest
  | some t :: rest => size t + rowSize rest

end

mutual

/-- Relabels every node. -/
def map (f : α → β) : Tree α → Tree β
  | .node v row => .node (f v) (mapRow f row)

/-- Relabels every node of a row. -/
def mapRow (f : α → β) : Row α → Row β
  | [] => []
  | none :: rest => none :: mapRow f rest
  | some t :: rest => some (map f t) :: mapRow f rest

end

@[simp] theorem value_node (v : α) (row : Row α) : (Tree.node v row).value = v := rfl

@[simp] theorem slots_node (v : α) (row : Row α) : (Tree.node v row).slots = row := rfl

theorem size_eq (t : Tree α) : t.size = rowSize t.slots + 1 := by
  cases t
  rfl

end Tree

end SlotTree
