/-! # Sinks for text -/

namespace SlotTree.Text

/-- A place that text is written to. Its room, if it has a limit, is the number of characters that
it still takes. -/
structure Sink where
  text : String
  room : Option Nat

/-- Appends a piece of text. A sink with too little room takes what it can and fails. -/
def Sink.put (piece : String) (s : Sink) : Except Sink Sink :=
  match s.room with
  | none => .ok { s with text := s.text ++ piece }
  | some room =>
    if piece.length ≤ room then .ok ⟨s.text ++ piece, some (room - piece.length)⟩
    else .error ⟨s.text ++ String.ofList (piece.toList.take room), some 0⟩

end SlotTree.Text
