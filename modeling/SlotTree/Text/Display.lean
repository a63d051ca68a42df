import SlotTree.Text.Drawing

/-! # Displaying trees

A display is asked for with a layout. A formatter carries the layout to those who pad what they
write, and passes all pieces on to its sink as they are. A drawing is written piece by piece, so its
layout is not looked at.
-/

namespace SlotTree.Text

universe u

/-- Where a text stands in a width that is larger. -/
inductive Alignment where
  | left
  | center
  | right

/-- What is asked of a display: a width, the place of the text in it and what fills the rest. -/
structure Layout where
  fill : Char
  alignment : Option Alignment
  width : Option Nat

/-- No width is asked for. -/
def Layout.plain : Layout := ⟨' ', none, none⟩

/-- A sink with the layout that was asked for. -/
structure Formatter where
  layout : Layout
  sink : Sink

/-- Passes a piece on to the sink. -/
def Formatter.put (piece : String) (f : Formatter) : Except Formatter Formatter :=
  match f.sink.put piece with
  | .ok s => .ok { f with sink := s }
  | .error s => .error { f with sink := s }

/-- The display of a tree is its drawing, written to a formatter. -/
def display {α : Type u} (label : α → String) (layout : Layout) (t : Tree α) : String :=
  match draw label Formatter.put (some t) ⟨layout, ⟨"", none⟩⟩ with
  | .ok f => f.sink.text
  | .error f => f.sink.text

end SlotTree.Text
