import SlotTree.Proofs.Walk.Sequence
import SlotTree.Proofs.Text.Drawing
import Mathlib.Data.List.TakeWhile

/-! # Reading a drawing

A drawing can be read back from its lines. The groups in front of a line are indents up to the first
one that is none, which is the branch; what follows is shown text, whatever it looks like. The
number of the groups is the depth of the place, and the depths of all places in pre-order give the
tree. So a drawing determines the tree of the texts it shows, if each of these stands on one line
and is none that a hole is shown by.
-/

namespace SlotTree.Text

universe u v

variable {α : Type u} {β : Type v} {label : α → String}

/-! ## A reader -/

/-- The number of groups in front of a text, and the text. -/
def readGroups : List Char → Nat × List Char
  | a :: b :: c :: d :: rest =>
    if [a, b, c, d] = (indent true).toList ∨ [a, b, c, d] = (indent false).toList then
      ((readGroups rest).1 + 1, (readGroups rest).2)
    else (1, rest)
  | rest => (0, rest)

/-- The places of a drawing with their depths, from the last one back: each takes for its slots
what follows it at greater depth. -/
def regrow : List (Nat × String) → List (Nat × Option (Tree String))
  | [] => []
  | (depth, text) :: rest =>
    let below := (regrow rest).takeWhile fun place => depth < place.1
    let beside := (regrow rest).dropWhile fun place => depth < place.1
    (depth, if text = holeText then none else some (.node text (below.map Prod.snd))) :: beside

/-- The depth and the text of a line below the root. -/
def readLine (chars : List Char) : Nat × String :=
  ((readGroups chars).1, String.ofList (readGroups chars).2)

/-- Reads a drawing, whose first line has no groups in front. -/
def readDrawing (text : String) : Option (Tree String) :=
  match (text.toList.splitOn '\n').dropLast with
  | [] => none
  | root :: below => (regrow ((0, String.ofList root) :: below.map readLine)).head?.bind Prod.snd

/-! ## Lines -/

theorem readGroups_indent (step : Bool) (rest : List Char) :
    readGroups ((indent step).toList ++ rest) =
      ((readGroups rest).1 + 1, (readGroups rest).2) := by
  cases step <;> simp [indent, readGroups]

theorem readGroups_branch (last : Bool) (rest : List Char) :
    readGroups ((branch last ++ " ").toList ++ rest) = (1, rest) := by
  cases last <;> simp [branch, readGroups, indent]

/-- The groups of a line are read off its start, whatever the text is. -/
theorem readGroups_lead {steps : List Bool} (hsteps : steps ≠ []) (rest : List Char) :
    readGroups ((lead steps).toList ++ rest) = (steps.length, rest) := by
  induction steps with
  | nil => exact absurd rfl hsteps
  | cons step steps ih =>
      cases steps with
      | nil => exact readGroups_branch step rest
      | cons next steps =>
          rw [lead, String.toList_append, List.append_assoc, readGroups_indent, ih (by simp)]
          rfl

/-- Rows that end with a line feed and have no other are found again by splitting at it. -/
theorem splitOn_flatMap {rows : List (List Char)} (hrows : ∀ row ∈ rows, '\n' ∉ row) :
    (rows.flatMap (· ++ ['\n'])).splitOn '\n' = rows ++ [[]] := by
  induction rows with
  | nil => rfl
  | cons row rows ih =>
      have hrow : ∀ c ∈ row, (c == '\n') = false := by
        intro c hc
        have hne : c ≠ '\n' := by
          rintro rfl
          exact hrows row List.mem_cons_self hc
        simpa using hne
      have hrest := ih fun other hother => hrows other (List.mem_cons_of_mem _ hother)
      rw [List.splitOn] at hrest ⊢
      rw [List.flatMap_cons, List.append_assoc, List.singleton_append,
        List.splitOnP_append_cons_of_forall_mem hrow '\n' (beq_self_eq_true _), hrest,
        List.cons_append]

/-- A line without its end. -/
def Line.row (l : Line) : List Char := (lead l.steps).toList ++ l.text.toList

/-- The depth and the text of a place. -/
def Line.place (l : Line) : Nat × String := (l.steps.length, l.text)

theorem readLine_row {l : Line} (hsteps : l.steps ≠ []) : readLine l.row = l.place := by
  rw [readLine, Line.row, readGroups_lead hsteps, String.ofList_toList, Line.place]

theorem toList_drawing (label : α → String) (t : Option (Tree α)) :
    (drawing label t).toList = ((lines label t).map Line.row).flatMap (· ++ ['\n']) := by
  rw [drawing_eq_lines, String.toList_join, List.flatMap_map, List.flatMap_map]
  simp only [Line.render, String.toList_append, Line.row]
  rfl

theorem newline_not_mem_lead (steps : List Bool) : '\n' ∉ (lead steps).toList := by
  induction steps with
  | nil => simp [lead]
  | cons step steps ih =>
      cases steps with
      | nil => cases step <;> simp [lead, branch]
      | cons next steps =>
          rw [lead, String.toList_append, List.mem_append, not_or]
          exact ⟨by cases step <;> simp [indent], ih⟩

/-! ## Trees -/

/-- A text that reads as itself: it stands on one line, and does not look like a hole. -/
def Plain (text : String) : Prop := '\n' ∉ text.toList ∧ text ≠ holeText

instance (text : String) : Decidable (Plain text) := inferInstanceAs (Decidable (_ ∧ _))

/-- All nodes are shown by plain texts. -/
def Legible (label : α → String) (t : Option (Tree α)) : Prop :=
  ∀ s ∈ t.elim [] Tree.preorder, Plain (label s.value)

/-- A place takes what follows one step deeper, up to the first place that is not deeper. -/
theorem regrow_cons {depth : Nat} {rest : List (Nat × String)}
    {beside : List (Nat × Option (Tree String))} (below : List (Option (Tree String)))
    (text : String)
    (hrest : regrow rest = below.map (fun s => (depth + 1, s)) ++ beside)
    (hbeside : ∀ place ∈ beside.head?, place.1 ≤ depth) :
    regrow ((depth, text) :: rest) =
      (depth, if text = holeText then none else some (.node text below)) :: beside := by
  have hdeeper : ∀ place ∈ below.map (fun s => (depth + 1, s)), decide (depth < place.1) := by
    simp
  have hstop : beside.takeWhile (fun place => depth < place.1) = [] ∧
      beside.dropWhile (fun place => depth < place.1) = beside := by
    cases beside with
    | nil => exact ⟨rfl, rfl⟩
    | cons place beside =>
        have hplace : ¬ depth < place.1 := Nat.not_lt.2 (hbeside place rfl)
        simp [hplace]
  rw [regrow, hrest, List.takeWhile_append_of_pos hdeeper, List.dropWhile_append_of_pos hdeeper,
    hstop.1, hstop.2, List.append_nil, List.map_map]
  simp only [Function.comp_def, List.map_id']

/-- In front of a row stands a place of the row, or what follows it. -/
theorem head_le {steps : List Bool} {row : Row String} {beside : List (Nat × Option (Tree String))}
    (hbeside : ∀ place ∈ beside.head?, place.1 ≤ steps.length + 1) :
    ∀ place ∈ (row.map (fun s => (steps.length + 1, s)) ++ beside).head?,
      place.1 ≤ steps.length + 1 := by
  cases row with
  | nil => exact hbeside
  | cons s row => simp

instance (label : α → String) (t : Option (Tree α)) : Decidable (Legible label t) :=
  inferInstanceAs (Decidable (∀ s ∈ t.elim [] Tree.preorder, Plain (label s.value)))

mutual

/-- The lines of a tree read as the tree, whatever follows that is not deeper. -/
theorem regrow_treeLines {t : Tree α} (ht : ∀ s ∈ t.preorder, label s.value ≠ holeText)
    (steps : List Bool) {rest : List (Nat × String)}
    (hrest : ∀ place ∈ (regrow rest).head?, place.1 ≤ steps.length) :
    regrow ((treeLines label steps t).map Line.place ++ rest) =
      (steps.length, some (t.map label)) :: regrow rest := by
  cases t with
  | node v row =>
      have hrow := regrow_rowLines (fun s hs => ht s (List.mem_cons_of_mem _ hs)) steps
        fun place hplace => Nat.le_succ_of_le (hrest place hplace)
      have hshown : label v ≠ holeText := ht (.node v row) List.mem_cons_self
      rw [treeLines, List.map_cons, List.cons_append, Line.place, regrow_cons _ _ hrow hrest,
        if_neg hshown, Tree.map]

theorem regrow_rowLines {row : Row α} (hrow : ∀ s ∈ Tree.rowPreorder row, label s.value ≠ holeText)
    (steps : List Bool) {rest : List (Nat × String)}
    (hrest : ∀ place ∈ (regrow rest).head?, place.1 ≤ steps.length + 1) :
    regrow ((rowLines label steps row).map Line.place ++ rest) =
      (Tree.mapRow label row).map (fun s => (steps.length + 1, s)) ++ regrow rest := by
  match row with
  | [] => rfl
  | none :: row =>
      change ∀ s ∈ Tree.rowPreorder row, label s.value ≠ holeText at hrow
      have hbeside := regrow_rowLines hrow steps hrest
      have hhole := regrow_cons [] holeText (hbeside.trans (List.nil_append _).symm)
        (head_le hrest)
      rw [if_pos rfl] at hhole
      rw [rowLines, List.map_cons, List.cons_append, Line.place, List.length_append,
        List.length_singleton, hhole, Tree.mapRow, List.map_cons, List.cons_append]
  | some t :: row =>
      have hbeside := regrow_rowLines
        (fun s hs => hrow s (List.mem_append_right _ hs)) steps hrest
      have hstop : ∀ place ∈ (regrow ((rowLines label steps row).map Line.place ++ rest)).head?,
          place.1 ≤ (steps ++ [row.isEmpty]).length := by
        rw [hbeside, List.length_append]
        exact head_le hrest
      have ht := regrow_treeLines (fun s hs => hrow s (List.mem_append_left _ hs))
        (steps ++ [row.isEmpty]) hstop
      rw [rowLines, List.map_append, List.append_assoc, ht, hbeside, List.length_append]
      rfl

end

mutual

theorem length_le_of_mem_treeLines {t : Tree α} {steps : List Bool} {l : Line}
    (hl : l ∈ treeLines label steps t) : steps.length ≤ l.steps.length := by
  cases t with
  | node v row =>
      rcases List.mem_cons.1 hl with rfl | hl
      · exact le_refl _
      · exact (length_lt_of_mem_rowLines hl).le

/-- The places below another are deeper. -/
theorem length_lt_of_mem_rowLines {row : Row α} {steps : List Bool} {l : Line}
    (hl : l ∈ rowLines label steps row) : steps.length < l.steps.length := by
  match row with
  | [] => nomatch hl
  | none :: row =>
      rcases List.mem_cons.1 hl with rfl | hl
      · simp
      · exact length_lt_of_mem_rowLines hl
  | some t :: row =>
      rcases List.mem_append.1 hl with hl | hl
      · have hle := length_le_of_mem_treeLines hl
        rw [List.length_append, List.length_singleton] at hle
        exact hle
      · exact length_lt_of_mem_rowLines hl

end

mutual

theorem newline_not_mem_treeLines {t : Tree α}
    (ht : ∀ s ∈ t.preorder, '\n' ∉ (label s.value).toList)
    (steps : List Bool) : ∀ l ∈ treeLines label steps t, '\n' ∉ l.text.toList := by
  cases t with
  | node v row =>
      intro l hl
      rcases List.mem_cons.1 hl with rfl | hl
      · exact ht (.node v row) List.mem_cons_self
      · exact newline_not_mem_rowLines (fun s hs => ht s (List.mem_cons_of_mem _ hs)) steps l hl

theorem newline_not_mem_rowLines {row : Row α}
    (hrow : ∀ s ∈ Tree.rowPreorder row, '\n' ∉ (label s.value).toList)
    (steps : List Bool) : ∀ l ∈ rowLines label steps row, '\n' ∉ l.text.toList := by
  intro l hl
  match row with
  | [] => nomatch hl
  | none :: row =>
      rcases List.mem_cons.1 hl with rfl | hl
      · simp [holeText]
      · change ∀ s ∈ Tree.rowPreorder row, '\n' ∉ (label s.value).toList at hrow
        exact newline_not_mem_rowLines hrow steps l hl
  | some t :: row =>
      rcases List.mem_append.1 hl with hl | hl
      · exact newline_not_mem_treeLines (fun s hs => hrow s (List.mem_append_left _ hs)) _ l hl
      · exact newline_not_mem_rowLines (fun s hs => hrow s (List.mem_append_right _ hs)) steps l hl

end

/-! ## Drawings -/

/-- The lines of a tree are read as its places. -/
theorem readLine_treeLines (v : α) (row : Row α) :
    (0, String.ofList (Line.row ⟨[], label v⟩)) ::
        ((rowLines label [] row).map Line.row).map readLine =
      (treeLines label [] (.node v row)).map Line.place := by
  have hroot : String.ofList (Line.row ⟨[], label v⟩) = label v := by
    rw [Line.row, lead, String.toList_empty, List.nil_append, String.ofList_toList]
  have hbelow : ∀ l ∈ rowLines label [] row, (readLine ∘ Line.row) l = l.place := by
    intro l hl
    exact readLine_row (List.length_pos_iff.1 (length_lt_of_mem_rowLines hl))
  rw [hroot, List.map_map, List.map_congr_left hbelow, treeLines, List.map_cons]
  rfl

/-- No line of a legible drawing has a line feed before its end. -/
theorem newline_not_mem_lines {t : Option (Tree α)} (ht : Legible label t) :
    ∀ row ∈ (lines label t).map Line.row, '\n' ∉ row := by
  intro row hrow
  obtain ⟨l, hl, rfl⟩ := List.mem_map.1 hrow
  rw [Line.row, List.mem_append, not_or]
  refine ⟨newline_not_mem_lead l.steps, ?_⟩
  cases t with
  | none =>
      obtain rfl := List.mem_singleton.1 hl
      simp [holeText]
  | some t => exact newline_not_mem_treeLines (fun s hs => (ht s hs).1) [] l hl

/-- A drawing reads as the tree of the texts that it shows. -/
theorem readDrawing_drawing {t : Option (Tree α)} (ht : Legible label t) :
    readDrawing (drawing label t) = t.map (Tree.map label) := by
  rw [readDrawing, toList_drawing, splitOn_flatMap (newline_not_mem_lines ht), List.dropLast_concat]
  cases t with
  | none => simp [lines, Line.row, lead, regrow]
  | some t =>
      have hshown : ∀ s ∈ t.preorder, label s.value ≠ holeText := fun s hs => (ht s hs).2
      have hnothing : ∀ place ∈ (regrow []).head?, place.1 ≤ 0 := by simp [regrow]
      have hread := regrow_treeLines hshown [] hnothing
      cases t with
      | node v row =>
          rw [List.append_nil, ← readLine_treeLines] at hread
          simp only [lines, treeLines, List.map_cons] at hread ⊢
          rw [hread]
          rfl

/-! ### Drawings of shown trees -/

mutual

theorem treeLines_map (steps : List Bool) (t : Tree α) :
    treeLines id steps (t.map label) = treeLines label steps t := by
  cases t with
  | node v row => rw [Tree.map, treeLines, rowLines_map steps row, treeLines, id]

theorem rowLines_map (steps : List Bool) (row : Row α) :
    rowLines id steps (Tree.mapRow label row) = rowLines label steps row := by
  have hlength : ∀ row : Row α, (Tree.mapRow label row).isEmpty = row.isEmpty := by
    rintro (_ | ⟨_ | _, _⟩) <;> rfl
  match row with
  | [] => rfl
  | none :: rest => rw [Tree.mapRow, rowLines, rowLines_map steps rest, hlength, rowLines]
  | some t :: rest =>
      rw [Tree.mapRow, rowLines, treeLines_map, rowLines_map steps rest, hlength, rowLines]

end

/-- A drawing shows no more of a tree than its texts. -/
theorem drawing_map (t : Option (Tree α)) :
    drawing id (t.map (Tree.map label)) = drawing label t := by
  rw [drawing_eq_lines, drawing_eq_lines]
  cases t with
  | none => rfl
  | some t => rw [Option.map_some, lines, treeLines_map, lines]

/-- A legible drawing can be read back, so two of them are the same text only if they show trees of
the same shape, with the same texts at all places. -/
theorem drawing_determines_tree {other : β → String} {s : Option (Tree α)} {t : Option (Tree β)}
    (hs : Legible label s) (ht : Legible other t) :
    readDrawing (drawing label s) = s.map (Tree.map label) ∧
    (drawing label s = drawing other t ↔ s.map (Tree.map label) = t.map (Tree.map other)) := by
  refine ⟨readDrawing_drawing hs, fun heq => ?_, fun heq => ?_⟩
  · rw [← readDrawing_drawing hs, heq, readDrawing_drawing ht]
  · rw [← drawing_map s, heq, drawing_map t]

/-- A tree whose texts look like groups, like lines and like nothing at all. -/
def imitation : Tree String :=
  .node "├── (null)" [some (.node "" [none]), none, some (.node "    └── " [some (.leaf " ")])]

/-- The same texts in the same order, with the last one a step higher. -/
def lifted : Tree String :=
  .node "├── (null)" [some (.node "" [none]), none, some (.leaf "    └── "), some (.leaf " ")]

theorem drawing_determines_tree_imitation :
    Legible id (some imitation) ∧ Legible id (some lifted) ∧
    readDrawing (drawing id (some imitation)) = (some imitation).map (Tree.map id) ∧
    (drawing id (some imitation) = drawing id (some lifted) ↔
      (some imitation).map (Tree.map id) = (some lifted).map (Tree.map id)) ∧
    drawing id (some imitation) ≠ drawing id (some lifted) := by
  have hs : Legible id (some imitation) := by decide
  have ht : Legible id (some lifted) := by decide
  obtain ⟨hread, hiff⟩ := drawing_determines_tree hs ht
  refine ⟨hs, ht, hread, hiff, fun heq => ?_⟩
  have hsame := hiff.1 heq
  simp [imitation, lifted, Tree.map, Tree.mapRow] at hsame

end SlotTree.Text
