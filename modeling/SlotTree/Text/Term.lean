import SlotTree.Heap.View
import SlotTree.Value

/-! # Trees as terms

A term is the value of a node followed by its slots in brackets, if it has slots; a hole is an
underscore. A node with more than one handle shows their number and a star in front.
-/

namespace SlotTree.Text

mutual

/-- Appends the term of a tree to a text. -/
def writeTerm : Tree (Located Value) → String → String
  | .node ⟨_, count, value⟩ row, out =>
    let out := if 1 < count then out ++ toString count ++ "*" else out
    let out := out ++ value.literal termEscape
    if row.isEmpty then out else writeTerms "(" row out ++ ")"

/-- Appends the terms of a row, the first after a lead and the others after a comma. -/
def writeTerms (lead : String) : Row (Located Value) → String → String
  | [], out => out
  | none :: rest, out => writeTerms "," rest (out ++ lead ++ "_")
  | some t :: rest, out => writeTerms "," rest (writeTerm t (out ++ lead))

end

/-- The term of a slot. -/
def slotTerm : Option (Tree (Located Value)) → String
  | none => "_"
  | some t => writeTerm t ""

/-- A node at the top, without its handle count and always with brackets around the slots. -/
def bracketedTerm (t : Tree (Located Value)) : String :=
  writeTerms "" t.slots (t.value.value.literal termEscape ++ "[") ++ "]"

end SlotTree.Text
