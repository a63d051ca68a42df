import SlotTree.Text.Sink
import SlotTree.Tree.Basic

/-! # Drawing trees

A drawing has one line per node and per hole, in pre-order. In front of it stand a branch and, for
each ancestor below the root, a bar, or blanks if the ancestor is in a last slot. A drawing goes
piece by piece to a sink, and ends with the first piece that the sink refuses.
-/

namespace SlotTree.Text

universe u v

/-- How a hole is shown. -/
def holeText : String := "(null)"

/-- The branch to a slot, the last of its row or not. -/
def branch (isLast : Bool) : String := if isLast then "└──" else "├──"

/-- What the lines below a slot start with. -/
def indent (isLast : Bool) : String := if isLast then "    " else "│   "

variable {α : Type u} {σ : Type v} (label : α → String) (put : String → σ → Except σ σ)

/-- Writes a line in two pieces. -/
def putLine (text : String) (s : σ) : Except σ σ := put text s >>= put "\n"

mutual

/-- Draws a tree whose first line is already led in; the other lines start with a margin. -/
def drawTree (margin : String) : Tree α → σ → Except σ σ
  | .node v row, s => putLine put (label v) s >>= drawRow margin row

/-- Draws the slots of a row. -/
def drawRow (margin : String) : Row α → σ → Except σ σ
  | [], s => .ok s
  | none :: rest, s =>
    put (margin ++ branch rest.isEmpty ++ " ") s >>= putLine put holeText >>= drawRow margin rest
  | some t :: rest, s =>
    put (margin ++ branch rest.isEmpty ++ " ") s >>=
      drawTree (margin ++ indent rest.isEmpty) t >>= drawRow margin rest

end

/-- Draws a tree, or the lack of one. -/
def draw (t : Option (Tree α)) (s : σ) : Except σ σ :=
  match t with
  | none => putLine put holeText s
  | some t => drawTree label put "" t s

/-- Writes a drawing into a sink: whether all of it went in, and the sink. -/
def writeDrawing (t : Option (Tree α)) (s : Sink) : Bool × Sink :=
  match draw label Sink.put t s with
  | .ok s => (true, s)
  | .error s => (false, s)

/-- The drawing as text. -/
def drawing (t : Option (Tree α)) : String := (writeDrawing label t ⟨"", none⟩).2.text

end SlotTree.Text
