import SlotTree.Policy

/-! # What a heap reports

Every value that dies is reported, and so is the progress of the two ways of taking a tree apart
without recursion.
-/

namespace SlotTree

universe u

/-- One entry of the record of a run. -/
inductive Event (α : Type u) where
  /-- A value died. -/
  | released (value : α)
  /-- A pass of a drain ended; `pops` counts from the start of the drain. -/
  | drained (pass pops : Nat)
  /-- A drain is complete. -/
  | cleared (policy : Policy) (passes pops : Nat)
  /-- A dismantler that had work to do came to its end. -/
  | dismantled (policy : Policy) (steps rotations : Nat)

/-- The events of values that died in this order. -/
def Event.ofReleased {α : Type u} (values : List α) : List (Event α) := values.map .released

end SlotTree
