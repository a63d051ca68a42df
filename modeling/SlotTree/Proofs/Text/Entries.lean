import SlotTree.Proofs.Text.Drawing
import SlotTree.Proofs.Walk.Paths
import SlotTree.Text.Display

/-! # The entries of a drawing

Each slot of a tree, and the root, has one entry in the drawing. What an entry looks like can be
told from the path to its slot alone: for each step of the path, whether it takes the last slot of
its row, and then what stands in the slot.
-/

namespace SlotTree.Text

universe u

variable {α : Type u} (label : α → String)

open SlotTree.Tree

/-- For each index of a path whether it is the last one of its row. -/
def lastSteps : Tree α → List Nat → List Bool
  | _, [] => []
  | t, i :: path =>
    (i + 1 == t.slots.length) :: (t.slots[i]?.join).elim [] fun below => lastSteps below path

/-- The text that stands for a node or a hole. -/
def shown (s : Option (Tree α)) : String := s.elim holeText fun t => label t.value

/-- The line of the slot at the end of a path. -/
def lineAt (t : Tree α) (path : List Nat) : Line := ⟨lastSteps t path, shown label (t.nodeAt? path)⟩

/-- The entry of the slot at the end of a path: an indent for each step but the last one, a branch
for that, the text and a line feed. -/
def entry (t : Tree α) (path : List Nat) : String := (lineAt label t path).render

/-! ## Lines by paths -/

/-- The line of a place as it is drawn, below the steps that lead to the tree. -/
def lineBelow (steps : List Bool) (t : Tree α) (path : List Nat) : Line :=
  ⟨steps ++ lastSteps t path, shown label (t.nodeAt? path)⟩

mutual

theorem treeLines_eq_map (steps : List Bool) (t : Tree α) :
    treeLines label steps t = t.paths.map (lineBelow label steps t) := by
  cases t with
  | node v row =>
      have hrow := rowLines_eq_map steps v [] row
      rw [List.length_nil, List.nil_append] at hrow
      rw [treeLines, hrow, paths, List.map_cons, lineBelow, lastSteps, List.append_nil, nodeAt?,
        slotAt?_nil]
      rfl

/-- The lines of a part of a row, in the node with the whole row. -/
theorem rowLines_eq_map (steps : List Bool) (v : α) (front row : Row α) :
    rowLines label steps row =
      (rowPaths front.length row).map (lineBelow label steps (.node v (front ++ row))) := by
  match row with
  | [] => rfl
  | s :: rest =>
      have hhere : (front ++ s :: rest)[front.length]? = some s := by simp
      have hlast : (front.length + 1 == (front ++ s :: rest).length) = rest.isEmpty := by
        cases rest <;> simp
      have hlater := rowLines_eq_map steps v (front ++ [s]) rest
      rw [List.append_assoc, List.singleton_append, List.length_append, List.length_singleton]
        at hlater
      cases s with
      | none =>
          rw [rowLines, rowPaths, List.map_cons, ← hlater, lineBelow, lastSteps, slots_node, hlast,
            hhere, nodeAt?, slotAt?_cons, slots_node, hhere]
          rfl
      | some t =>
          have hbelow : (lineBelow label steps (.node v (front ++ some t :: rest))) ∘
              (front.length :: ·) = lineBelow label (steps ++ [rest.isEmpty]) t := by
            funext path
            rw [Function.comp_apply, lineBelow, lastSteps, slots_node, hlast, hhere, nodeAt?,
              slotAt?_cons, slots_node, hhere, lineBelow, List.append_assoc]
            rfl
          rw [rowLines, rowPaths, List.map_append, List.map_map, hbelow, ← hlater,
            ← treeLines_eq_map]

end

theorem lines_eq_map (t : Tree α) : lines label (some t) = t.paths.map (lineAt label t) :=
  treeLines_eq_map label [] t

/-- A drawing is the text of its entries. -/
theorem drawing_eq_entries (t : Tree α) :
    drawing label (some t) = String.join (t.paths.map (entry label t)) := by
  rw [drawing_eq_lines, lines_eq_map, List.map_map]
  rfl

/-! ## Where a drawing goes -/

/-- A sink without limit takes a drawing as a whole, behind what it holds. -/
theorem writeDrawing_unlimited (t : Option (Tree α)) (start : String) :
    writeDrawing label t ⟨start, none⟩ = (true, ⟨start ++ drawing label t, none⟩) := by
  rw [writeDrawing, draw_eq_putAll, putAll_unlimited, drawing_eq_join]

/-- Pieces go through a formatter to its sink. -/
theorem putAll_formatter (pieces : List String) (layout : Layout) (text : String) :
    putAll Formatter.put pieces ⟨layout, ⟨text, none⟩⟩ =
      .ok ⟨layout, ⟨text ++ String.join pieces, none⟩⟩ := by
  induction pieces generalizing text with
  | nil => simp [putAll, pure, Except.pure]
  | cons piece rest ih =>
      rw [putAll_cons, String.join_cons, ← String.append_assoc]
      exact ih (text ++ piece)

theorem display_eq_drawing (layout : Layout) (t : Tree α) :
    display label layout t = drawing label (some t) := by
  rw [display, draw_eq_putAll, putAll_formatter, String.empty_append, drawing_eq_join]

/-- A drawing has one entry for each path of the tree, in pre-order. The paths are all that lead to
a slot, and one to the root; those to nodes come to them in the order of a depth-first walk. All
ways to get the drawing give this one text, whatever layout is asked for. -/
theorem drawing_entries (t : Tree α) :
    let text := String.join (t.paths.map (entry label t))
    (∀ path, path ∈ t.paths ↔ (slotAt? (some t) path).isSome) ∧
    t.paths.Pairwise (· < ·) ∧
    t.paths.length = 1 + (t.preorder.map fun s => s.slots.length).sum ∧
    t.paths.filterMap t.nodeAt? = t.walk .depthFirst ∧
    (∀ start, writeDrawing label (some t) ⟨start, none⟩ = (true, ⟨start ++ text, none⟩)) ∧
    drawing label (some t) = text ∧
    (∀ layout, display label layout t = text) ∧
    (∀ start, writeDrawing label none ⟨start, none⟩ = (true, ⟨start ++ "(null)\n", none⟩)) ∧
    drawing label none = "(null)\n" := by
  have hnone : drawing label none = "(null)\n" := drawing_eq_join label none
  refine ⟨fun path => mem_paths, pairwise_paths t, length_paths t, ?_, fun start => ?_,
    drawing_eq_entries label t, fun layout => ?_, fun start => ?_, hnone⟩
  · rw [filterMap_paths, walk_depthFirst]
  · rw [writeDrawing_unlimited, drawing_eq_entries]
  · rw [display_eq_drawing, drawing_eq_entries]
  · rw [writeDrawing_unlimited, hnone]

end SlotTree.Text
