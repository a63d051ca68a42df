import SlotTree.Text.Drawing

/-! # The lines of a drawing

Drawing goes through a list of pieces, each put after the one before, so it ends with the first
piece that is refused. In a sink without limit the pieces make up the lines of the places of the
tree, in pre-order. A line starts with one group for each step from the root to its place.
-/

namespace SlotTree.Text

universe u v w

variable {α : Type u} {β : Type v} {σ : Type w} (label : α → String)
  (put : String → σ → Except σ σ)

/-! ## Pieces -/

mutual

/-- The pieces of a tree whose first line is already led in. -/
def treePieces (margin : String) : Tree α → List String
  | .node v row => label v :: "\n" :: rowPieces margin row

/-- The pieces of the slots of a row. -/
def rowPieces (margin : String) : Row α → List String
  | [] => []
  | none :: rest =>
    (margin ++ branch rest.isEmpty ++ " ") :: holeText :: "\n" :: rowPieces margin rest
  | some t :: rest =>
    (margin ++ branch rest.isEmpty ++ " ") ::
      (treePieces (margin ++ indent rest.isEmpty) t ++ rowPieces margin rest)

end

/-- The pieces of a drawing. -/
def pieces : Option (Tree α) → List String
  | none => [holeText, "\n"]
  | some t => treePieces label "" t

/-- Puts pieces one after another, up to the first one that is refused. -/
def putAll (pieces : List String) (s : σ) : Except σ σ :=
  pieces.foldlM (fun s piece => put piece s) s

theorem putAll_nil : putAll put [] = pure := rfl

theorem putAll_cons (piece : String) (rest : List String) :
    putAll put (piece :: rest) = fun s => put piece s >>= putAll put rest := by
  funext s
  rw [putAll, List.foldlM_cons]
  rfl

theorem putAll_append (front rest : List String) :
    putAll put (front ++ rest) = fun s => putAll put front s >>= putAll put rest := by
  funext s
  rw [putAll, List.foldlM_append]
  rfl

mutual

theorem drawTree_eq_putAll (margin : String) (t : Tree α) :
    drawTree label put margin t = putAll put (treePieces label margin t) := by
  funext s
  cases t with
  | node v row =>
      simp only [drawTree, treePieces, putLine, putAll_cons, bind_assoc,
        drawRow_eq_putAll margin row]

theorem drawRow_eq_putAll (margin : String) (row : Row α) :
    drawRow label put margin row = putAll put (rowPieces label margin row) := by
  funext s
  match row with
  | [] => rfl
  | none :: rest =>
      simp only [drawRow, rowPieces, putLine, putAll_cons, bind_assoc,
        drawRow_eq_putAll margin rest]
  | some t :: rest =>
      simp only [drawRow, rowPieces, putAll_cons, putAll_append, bind_assoc,
        drawTree_eq_putAll (margin ++ indent rest.isEmpty) t, drawRow_eq_putAll margin rest]

end

/-- To draw is to put the pieces one after another. -/
theorem draw_eq_putAll (t : Option (Tree α)) (s : σ) :
    draw label put t s = putAll put (pieces label t) s := by
  cases t with
  | none => simp only [draw, putLine, pieces, putAll_cons, putAll_nil, bind_pure]
  | some t => rw [draw, drawTree_eq_putAll, pieces]

/-! ### Pieces in a sink -/

theorem Sink.put_empty (s : Sink) : s.put "" = .ok s := by
  obtain ⟨text, _ | room⟩ := s <;> simp [put]

/-- A sink takes a text in two parts as it takes it in one go. -/
theorem Sink.put_append (front rest : String) (s : Sink) :
    s.put (front ++ rest) = s.put front >>= Sink.put rest := by
  obtain ⟨text, _ | room⟩ := s
  · simp [put, bind, Except.bind, String.append_assoc]
  · simp only [put, String.length_append, String.toList_append, List.take_append,
      String.length_toList, bind, Except.bind]
    by_cases hfront : front.length ≤ room
    · have hboth : front.length + rest.length ≤ room ↔ rest.length ≤ room - front.length := by
        omega
      have hall : front.toList.take room = front.toList :=
        List.take_of_length_le (by rwa [String.length_toList])
      simp only [if_pos hfront, hboth, hall, Nat.sub_sub, String.ofList_append,
        String.ofList_toList, String.append_assoc]
    · have hboth : ¬ front.length + rest.length ≤ room := by omega
      have hfull : room - front.length = 0 := by omega
      simp [if_neg hfront, if_neg hboth, hfull]

theorem putAll_sink (pieces : List String) (s : Sink) :
    putAll Sink.put pieces s = s.put (String.join pieces) := by
  induction pieces generalizing s with
  | nil => exact s.put_empty.symm
  | cons piece rest ih =>
      rw [putAll_cons, String.join_cons, Sink.put_append]
      exact congrArg (s.put piece >>= ·) (funext ih)

theorem putAll_unlimited (pieces : List String) (text : String) :
    putAll Sink.put pieces ⟨text, none⟩ = .ok ⟨text ++ String.join pieces, none⟩ :=
  putAll_sink pieces ⟨text, none⟩

theorem drawing_eq_join (t : Option (Tree α)) : drawing label t = String.join (pieces label t) := by
  rw [drawing, writeDrawing, draw_eq_putAll, putAll_unlimited, String.empty_append]

/-! ## Lines -/

/-- A place of a tree as it is drawn: for each step from the root whether it leads to a last slot,
and the text of the place. -/
structure Line where
  steps : List Bool
  text : String

/-- What the lines below a place start with. -/
def margin (steps : List Bool) : String := String.join (steps.map indent)

/-- The groups in front of the text of a place: an indent for each step but the last one, and a
branch for that. -/
def lead : List Bool → String
  | [] => ""
  | [last] => branch last ++ " "
  | step :: next :: steps => indent step ++ lead (next :: steps)

/-- A line with its end. -/
def Line.render (l : Line) : String := lead l.steps ++ l.text ++ "\n"

mutual

/-- The lines of a tree at a place. -/
def treeLines (steps : List Bool) : Tree α → List Line
  | .node v row => ⟨steps, label v⟩ :: rowLines steps row

/-- The lines of the slots of a row below a place. -/
def rowLines (steps : List Bool) : Row α → List Line
  | [] => []
  | none :: rest => ⟨steps ++ [rest.isEmpty], holeText⟩ :: rowLines steps rest
  | some t :: rest => treeLines (steps ++ [rest.isEmpty]) t ++ rowLines steps rest

end

/-- The lines of a drawing. -/
def lines : Option (Tree α) → List Line
  | none => [⟨[], holeText⟩]
  | some t => treeLines label [] t

theorem margin_concat (steps : List Bool) (last : Bool) :
    margin (steps ++ [last]) = margin steps ++ indent last := by
  simp [margin]

theorem lead_concat (steps : List Bool) (last : Bool) :
    lead (steps ++ [last]) = margin steps ++ branch last ++ " " := by
  induction steps with
  | nil => simp [lead, margin]
  | cons step steps ih =>
      cases steps with
      | nil => simp [lead, margin, String.append_assoc]
      | cons next steps =>
          rw [List.cons_append, List.cons_append, lead, ← List.cons_append, ih]
          simp only [margin, List.map_cons, String.join_cons, String.append_assoc]

mutual

theorem join_treePieces (steps : List Bool) (t : Tree α) :
    lead steps ++ String.join (treePieces label (margin steps) t) =
      String.join ((treeLines label steps t).map Line.render) := by
  cases t with
  | node v row =>
      rw [treePieces, treeLines, List.map_cons, String.join_cons, String.join_cons,
        String.join_cons, Line.render, join_rowPieces steps row, String.append_assoc,
        String.append_assoc]

theorem join_rowPieces (steps : List Bool) (row : Row α) :
    String.join (rowPieces label (margin steps) row) =
      String.join ((rowLines label steps row).map Line.render) := by
  match row with
  | [] => rfl
  | none :: rest =>
      rw [rowPieces, rowLines, List.map_cons, ← lead_concat]
      simp only [String.join_cons, Line.render, String.append_assoc, join_rowPieces steps rest]
  | some t :: rest =>
      rw [rowPieces, rowLines, ← lead_concat, ← margin_concat, List.map_append, String.join_append,
        String.join_cons, String.join_append,
        ← join_treePieces, ← join_rowPieces, String.append_assoc]

end

/-- A drawing is the text of its lines. -/
theorem drawing_eq_lines (t : Option (Tree α)) :
    drawing label t = String.join ((lines label t).map Line.render) := by
  rw [drawing_eq_join]
  cases t with
  | none => rfl
  | some t =>
      have hlines := join_treePieces label [] t
      rwa [lead, String.empty_append] at hlines

end SlotTree.Text
