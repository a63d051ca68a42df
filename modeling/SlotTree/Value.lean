import SlotTree.Text.Quoted

/-! # Values -/

namespace SlotTree

/-- What the nodes of a workspace carry: a 64-bit integer or text. -/
inductive Value where
  | int (n : Int)
  | str (text : String)
  deriving DecidableEq

namespace Value

/-- An integer, if it has 64 bits. -/
def ofInt? (n : Int) : Option Value :=
  if -0x8000000000000000 ≤ n ∧ n < 0x8000000000000000 then some (.int n) else none

/-- The plain text of a value. -/
def display : Value → String
  | .int n => toString n
  | .str text => text

/-- The text of a value with strings quoted by a rule. -/
def literal (escape : Char → List Char) : Value → String
  | .int n => toString n
  | .str text => Text.quote escape text

end Value

end SlotTree
