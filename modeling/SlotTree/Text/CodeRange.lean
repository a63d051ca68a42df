/-! # Sets of characters given by ranges of code points -/

namespace SlotTree.Text

/-- The first and the last code point of a run. -/
abbrev CodeRange := Nat × Nat

/-- Whether a character lies in one of the runs. -/
def inRanges (ranges : List CodeRange) (c : Char) : Bool :=
  ranges.any fun r => r.1 ≤ c.toNat && c.toNat ≤ r.2

end SlotTree.Text
