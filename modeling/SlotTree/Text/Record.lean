import SlotTree.Tree.Basic
import SlotTree.Value

/-! # Trees as records

A record names the two fields of a node, its value and its slots. It is written on one line, or as
a block with one item per line.
-/

namespace SlotTree.Text

mutual

/-- Appends a record on one line to a text. -/
def writeRecord : Tree Value → String → String
  | .node v row, out =>
    writeRecords "" row
      (out ++ "Tree \x7b value: " ++ v.literal recordEscape ++ ", children: [") ++ "] \x7d"

/-- Appends the slots of a row, the first after a lead and the others after a comma. -/
def writeRecords (lead : String) : Row Value → String → String
  | [], out => out
  | none :: rest, out => writeRecords ", " rest (out ++ lead ++ "None")
  | some t :: rest, out => writeRecords ", " rest (writeRecord t (out ++ lead ++ "Some(") ++ ")")

end

/-- A record on one line. -/
def record (t : Tree Value) : String := writeRecord t ""

mutual

/-- Appends a record as a block, whose lines after the first start with a margin. -/
def writeBlock (margin : String) : Tree Value → String → String
  | .node v row, out =>
    let out := out ++ "Tree \x7b\n" ++ margin ++ "    value: " ++ v.literal recordEscape ++ ",\n" ++
      margin ++ "    children: ["
    let out :=
      if row.isEmpty then out
      else writeBlocks (margin ++ "        ") row (out ++ "\n") ++ margin ++ "    "
    out ++ "],\n" ++ margin ++ "\x7d"

/-- Appends the lines of the slots of a row. -/
def writeBlocks (margin : String) : Row Value → String → String
  | [], out => out
  | none :: rest, out => writeBlocks margin rest (out ++ margin ++ "None,\n")
  | some t :: rest, out =>
    let out := out ++ margin ++ "Some(\n" ++ margin ++ "    "
    let out := writeBlock (margin ++ "    ") t out
    writeBlocks margin rest (out ++ ",\n" ++ margin ++ "),\n")

end

/-- A record as a block. -/
def recordBlock (t : Tree Value) : String := writeBlock "" t ""

end SlotTree.Text
