import SlotTree.Proofs.Text.PrefixFree
import SlotTree.Text.Record

/-! # Records determine trees

A record tells where it ends: its value ends by itself, and in its row a lead or a bracket comes
next, after which a hole and a tree begin differently. So a text starts with the record of at most
one tree, whatever the values of the tree look like.
-/

namespace SlotTree.Text

/-- The row of a record, whose first slot comes after a lead. -/
def rowRecord (lead : String) (row : Row Value) : String := writeRecords lead row ""

/-! ## Equations -/

mutual

theorem writeRecord_eq (t : Tree Value) (out : String) : writeRecord t out = out ++ record t := by
  cases t with
  | node v row =>
      rw [record, writeRecord, writeRecord, writeRecords_eq "" row, writeRecords_eq "" row]
      simp only [String.append_assoc, String.empty_append]

theorem writeRecords_eq (lead : String) (row : Row Value) (out : String) :
    writeRecords lead row out = out ++ rowRecord lead row := by
  match row with
  | [] => simp [rowRecord, writeRecords]
  | none :: rest =>
      rw [rowRecord, writeRecords, writeRecords, writeRecords_eq ", " rest,
        writeRecords_eq ", " rest]
      simp only [String.append_assoc, String.empty_append]
  | some t :: rest =>
      rw [rowRecord, writeRecords, writeRecords, writeRecords_eq ", " rest,
        writeRecords_eq ", " rest, writeRecord_eq t, writeRecord_eq t]
      simp only [String.append_assoc, String.empty_append]

end

theorem record_node (v : Value) (row : Row Value) :
    record (.node v row) = "Tree \x7b value: " ++ v.literal recordEscape ++ ", children: [" ++
      rowRecord "" row ++ "] \x7d" := by
  rw [record, writeRecord, writeRecords_eq]
  simp only [String.empty_append]

@[simp] theorem rowRecord_nil (lead : String) : rowRecord lead [] = "" := rfl

theorem rowRecord_hole (lead : String) (rest : Row Value) :
    rowRecord lead (none :: rest) = lead ++ "None" ++ rowRecord ", " rest := by
  rw [rowRecord, writeRecords, writeRecords_eq, String.empty_append]

theorem rowRecord_tree (lead : String) (t : Tree Value) (rest : Row Value) :
    rowRecord lead (some t :: rest) =
      lead ++ "Some(" ++ record t ++ ")" ++ rowRecord ", " rest := by
  rw [rowRecord, writeRecords, writeRecords_eq, writeRecord_eq, String.empty_append]

/-! ## Records at the start of a text -/

mutual

theorem eq_of_record_append {s t : Tree Value} {x y : List Char}
    (heq : (record s).toList ++ x = (record t).toList ++ y) : s = t ∧ x = y := by
  match s, t with
  | .node v row, .node w other =>
      have hcomma : ", children: [".toList = ',' :: " children: [".toList := rfl
      have hbracket : "] \x7d".toList = ']' :: " \x7d".toList := rfl
      simp only [record_node, String.toList_append, List.append_assoc,
        List.append_cancel_left_eq, hcomma, hbracket, List.cons_append] at heq
      obtain ⟨rfl, hlater⟩ := eq_of_literal_append heq
      obtain ⟨rfl, hrest⟩ := eq_of_rowRecord_append (.inl rfl) (List.append_cancel_left hlater)
      exact ⟨rfl, List.append_cancel_left hrest⟩

/-- A row ends with a bracket, and all its slots but the first one follow a comma. -/
theorem eq_of_rowRecord_append {lead : String} (hlead : lead = "" ∨ lead = ", ")
    {row other : Row Value} {x y : List Char}
    (heq : (rowRecord lead row).toList ++ ']' :: x = (rowRecord lead other).toList ++ ']' :: y) :
    row = other ∧ x = y := by
  match row, other with
  -- the bracket is neither the start of a lead nor, where that is empty, the start of a slot
  | [], [] => exact ⟨rfl, List.tail_eq_of_cons_eq heq⟩
  | [], none :: other => rcases hlead with rfl | rfl <;> simp [rowRecord_hole] at heq
  | [], some t :: other => rcases hlead with rfl | rfl <;> simp [rowRecord_tree] at heq
  | none :: row, [] => rcases hlead with rfl | rfl <;> simp [rowRecord_hole] at heq
  | some s :: row, [] => rcases hlead with rfl | rfl <;> simp [rowRecord_tree] at heq
  | none :: row, some t :: other => simp [rowRecord_hole, rowRecord_tree] at heq
  | some s :: row, none :: other => simp [rowRecord_hole, rowRecord_tree] at heq
  | none :: row, none :: other =>
      simp only [rowRecord_hole, String.toList_append, List.append_assoc,
        List.append_cancel_left_eq] at heq
      obtain ⟨rfl, hrest⟩ := eq_of_rowRecord_append (.inr rfl) heq
      exact ⟨rfl, hrest⟩
  | some s :: row, some t :: other =>
      simp only [rowRecord_tree, String.toList_append, List.append_assoc,
        List.append_cancel_left_eq] at heq
      obtain ⟨rfl, hlater⟩ := eq_of_record_append heq
      obtain ⟨rfl, hrest⟩ := eq_of_rowRecord_append (.inr rfl) (List.append_cancel_left hlater)
      exact ⟨rfl, hrest⟩

end

/-- Trees have the same record only if they are the same: the same slots and holes at all places,
with the same values, whatever text stands in these. -/
theorem record_determines_tree (s t : Tree Value) : record s = record t ↔ s = t := by
  refine ⟨fun heq => ?_, fun heq => heq ▸ rfl⟩
  have hsame : (record s).toList ++ [] = (record t).toList ++ [] := by rw [heq]
  exact (eq_of_record_append hsame).1

end SlotTree.Text
