/-! # Ownership policies -/

namespace SlotTree

/-- How many handles may lead to one node. -/
inductive Policy where
  /-- Exactly one handle leads to a node: handles move and are never cloned. -/
  | unique
  /-- Handles are counted: a node lives until the last one to it is released. -/
  | shared
  deriving DecidableEq

/-- The word for a policy in reports. -/
def Policy.name : Policy → String
  | .unique => "unique"
  | .shared => "shared"

end SlotTree
