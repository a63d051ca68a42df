import SlotTree.Walk.Cursor

/-! # What walks yield

The nodes of a tree in pre-order and in order are lists by recursion over the tree. A walk stands
at the head of such a list and keeps the rest of it in its frames, in parts.
-/

namespace SlotTree

universe u v

variable {α : Type u} {β : Type v}

namespace Tree

mutual

/-- The nodes, each before those below it. -/
def preorder : Tree α → List (Tree α)
  | .node v row => .node v row :: rowPreorder row

/-- The nodes in a row, each before those below it. -/
def rowPreorder : Row α → List (Tree α)
  | [] => []
  | none :: rest => rowPreorder rest
  | some t :: rest => preorder t ++ rowPreorder rest

end

mutual

/-- The nodes, each after those below its first slot and before those below its other slots. -/
def inorder : Tree α → List (Tree α)
  | .node v [] => [.node v []]
  | .node v (none :: rest) => .node v (none :: rest) :: rowInorder rest
  | .node v (some left :: rest) => inorder left ++ .node v (some left :: rest) :: rowInorder rest

/-- The nodes in a row, in order. -/
def rowInorder : Row α → List (Tree α)
  | [] => []
  | none :: rest => rowInorder rest
  | some t :: rest => inorder t ++ rowInorder rest

end

theorem preorder_eq (t : Tree α) : t.preorder = t :: rowPreorder t.slots := by
  cases t
  rfl

theorem rowPreorder_append (xs ys : Row α) :
    rowPreorder (xs ++ ys) = rowPreorder xs ++ rowPreorder ys := by
  induction xs with
  | nil => rfl
  | cons s xs ih => cases s <;> simp [rowPreorder, ih]

theorem mem_preorder_self (t : Tree α) : t ∈ t.preorder := by
  rw [preorder_eq]
  exact List.mem_cons_self

/-- The nodes of a tree are among those of a row that holds it. -/
theorem preorder_subset_rowPreorder {t : Tree α} {row : Row α} (ht : some t ∈ row) :
    t.preorder ⊆ rowPreorder row := by
  obtain ⟨front, back, rfl⟩ := List.append_of_mem ht
  rw [rowPreorder_append]
  intro s hs
  exact List.mem_append_right _ (List.mem_append_left _ hs)

mutual

theorem length_preorder (t : Tree α) : t.preorder.length = t.size := by
  cases t with
  | node v row => rw [preorder, List.length_cons, length_rowPreorder row, size]

theorem length_rowPreorder (row : Row α) : (rowPreorder row).length = rowSize row := by
  match row with
  | [] => rfl
  | none :: rest => exact length_rowPreorder rest
  | some t :: rest =>
      rw [rowPreorder, List.length_append, length_preorder t, length_rowPreorder rest, rowSize]

end

mutual

theorem length_inorder (t : Tree α) : t.inorder.length = t.size := by
  match t with
  | .node v [] => rfl
  | .node v (none :: rest) => rw [inorder, List.length_cons, length_rowInorder rest, size, rowSize]
  | .node v (some left :: rest) =>
      rw [inorder, List.length_append, List.length_cons, length_inorder left,
        length_rowInorder rest, size, rowSize]
      rfl

theorem length_rowInorder (row : Row α) : (rowInorder row).length = rowSize row := by
  match row with
  | [] => rfl
  | none :: rest => exact length_rowInorder rest
  | some t :: rest =>
      rw [rowInorder, List.length_append, length_inorder t, length_rowInorder rest, rowSize]

end

/-! ## Relabelled trees -/

theorem value_map (f : α → β) (t : Tree α) : (t.map f).value = f t.value := by
  cases t
  rfl

theorem slots_map (f : α → β) (t : Tree α) : (t.map f).slots = mapRow f t.slots := by
  cases t
  rfl

mutual

theorem preorder_map (f : α → β) (t : Tree α) :
    (t.map f).preorder = t.preorder.map (Tree.map f) := by
  cases t with
  | node v row => rw [map, preorder, rowPreorder_map f row, preorder, List.map_cons, map]

theorem rowPreorder_map (f : α → β) (row : Row α) :
    rowPreorder (mapRow f row) = (rowPreorder row).map (Tree.map f) := by
  match row with
  | [] => rfl
  | none :: rest => exact rowPreorder_map f rest
  | some t :: rest =>
      rw [mapRow, rowPreorder, preorder_map f t, rowPreorder_map f rest, rowPreorder,
        List.map_append]

end

/-! ## Rows after the holes at the front -/

theorem rowPreorder_of_firstPresent? (row : Row α) :
    rowPreorder row = (firstPresent? row).elim [] fun p => p.1.preorder ++ rowPreorder p.2 := by
  induction row with
  | nil => rfl
  | cons s rest ih =>
      cases s with
      | none => exact ih
      | some t => rfl

theorem rowInorder_of_firstPresent? (row : Row α) :
    rowInorder row = (firstPresent? row).elim [] fun p => p.1.inorder ++ rowInorder p.2 := by
  induction row with
  | nil => rfl
  | cons s rest ih =>
      cases s with
      | none => exact ih
      | some t => rfl

end Tree

open SlotTree.Tree

/-! ## Walks by what they have left -/

/-- A cursor yields these nodes one after another, and nothing after them. -/
inductive Cursor.Yields : Cursor α → List (Tree α) → Prop where
  | done {c : Cursor α} (hnext : c.next = none) : Yields c []
  | step {c after : Cursor α} {t : Tree α} {rest : List (Tree α)}
      (hnext : c.next = some (t, after)) : Yields after rest → Yields c (t :: rest)

/-- Walks whose next node is always the head of what they have left yield just that. -/
theorem Cursor.yields_of_next {W : Type v} {cursor : W → Cursor α} {left : W → List (Tree α)}
    (hnext : ∀ w, left w = [] ∧ (cursor w).next = none ∨
      ∃ t after, (cursor w).next = some (t, cursor after) ∧ left w = t :: left after) (w : W) :
    (cursor w).Yields (left w) := by
  induction hleft : left w generalizing w with
  | nil =>
      rcases hnext w with ⟨-, hnone⟩ | ⟨t, after, -, hcons⟩
      · exact .done hnone
      · simp [hleft] at hcons
  | cons t rest ih =>
      rcases hnext w with ⟨hnil, -⟩ | ⟨_, after, hsome, hcons⟩
      · simp [hleft] at hnil
      · rw [hleft] at hcons
        obtain ⟨rfl, hrest⟩ := List.cons.inj hcons
        exact .step hsome (ih after hrest.symm)

theorem Cursor.Yields.take_eq {c : Cursor α} {nodes : List (Tree α)} (hc : c.Yields nodes)
    (n : Nat) : (c.take n).1 = nodes.take n ∧ (c.take n).2.Yields (nodes.drop n) := by
  induction n generalizing c nodes with
  | zero => exact ⟨rfl, hc⟩
  | succ n ih =>
      cases hc with
      | done hnext =>
          rw [Cursor.take_of_done hnext]
          exact ⟨rfl, .done hnext⟩
      | step hnext hafter =>
          obtain ⟨htake, hdrop⟩ := ih hafter
          rw [Cursor.take_succ hnext]
          exact ⟨congrArg (_ :: ·) htake, hdrop⟩

theorem Cursor.Yields.takeAll_eq {c : Cursor α} {nodes : List (Tree α)} (hc : c.Yields nodes)
    (hremaining : c.remaining = nodes.length) : c.takeAll.1 = nodes := by
  rw [Cursor.takeAll, hremaining, (hc.take_eq _).1, List.take_length]

namespace DepthFirst

/-- The nodes not yet yielded. -/
def left (w : DepthFirst α) : List (Tree α) :=
  match w.current with
  | none => []
  | some t => t.preorder ++ w.pending.flatMap rowPreorder

theorem left_seek (rows : List (Row α)) : (seek rows).left = rows.flatMap rowPreorder := by
  induction rows with
  | nil => rfl
  | cons row rows ih =>
      rw [List.flatMap_cons, rowPreorder_of_firstPresent? row, seek]
      cases firstPresent? row with
      | none => exact ih
      | some found => simp [left]

theorem yields (w : DepthFirst α) : (Cursor.depthFirst w).Yields w.left := by
  refine Cursor.yields_of_next (fun w : DepthFirst α => ?_) w
  cases hcurrent : w.current with
  | none => exact .inl ⟨by simp [left, hcurrent], by simp [Cursor.next, next, hcurrent]⟩
  | some t =>
      refine .inr ⟨t, seek (t.slots :: w.pending), by simp [Cursor.next, next, hcurrent], ?_⟩
      rw [left_seek, left, hcurrent]
      simp [preorder_eq t]

end DepthFirst

namespace InOrder

/-- The nodes that a frame still has to yield. -/
def Frame.left (f : Frame α) : List (Tree α) := f.pending.toList ++ rowInorder f.rest

/-- The nodes not yet yielded. -/
def left (w : InOrder α) : List (Tree α) :=
  match w.current with
  | none => []
  | some t => t :: w.frames.flatMap Frame.left

theorem left_leftmost (t : Tree α) (frames : List (Frame α)) :
    (leftmost t frames).left = t.inorder ++ frames.flatMap Frame.left := by
  match t with
  | .node v [] => rfl
  | .node v (none :: rest) => rfl
  | .node v (some first :: rest) =>
      rw [leftmost, leftmostFrom, left_leftmost first]
      simp [inorder, Frame.left]

theorem left_seek (frames : List (Frame α)) : (seek frames).left = frames.flatMap Frame.left := by
  induction frames with
  | nil => rfl
  | cons f frames ih =>
      obtain ⟨pending, rest⟩ := f
      cases pending with
      | some t => rfl
      | none =>
          rw [seek, List.flatMap_cons, Frame.left, rowInorder_of_firstPresent? rest]
          cases firstPresent? rest with
          | none => exact ih
          | some found => simp [left_leftmost, Frame.left]

theorem yields (w : InOrder α) : (Cursor.inOrder w).Yields w.left := by
  refine Cursor.yields_of_next (fun w : InOrder α => ?_) w
  cases hcurrent : w.current with
  | none => exact .inl ⟨by simp [left, hcurrent], by simp [Cursor.next, next, hcurrent]⟩
  | some t =>
      refine .inr ⟨t, seek w.frames, by simp [Cursor.next, next, hcurrent], ?_⟩
      rw [left_seek, left, hcurrent]

theorem remaining_leftmost (t : Tree α) (frames : List (Frame α)) :
    (leftmost t frames).remaining = t.size + frames.foldr (·.remaining + ·) 0 := by
  match t with
  | .node v [] => simp [leftmost, leftmostFrom, remaining, size, rowSize]
  | .node v (none :: rest) =>
      simp [leftmost, leftmostFrom, remaining, size, rowSize, Frame.remaining]
      omega
  | .node v (some first :: rest) =>
      rw [leftmost, leftmostFrom, remaining_leftmost first]
      simp [size, rowSize, Frame.remaining]
      omega

end InOrder

/-! ## Whole walks -/

theorem DepthFirst.yields_start (t : Tree α) : (Cursor.start .depthFirst t).Yields t.preorder := by
  have hleft : (DepthFirst.start t).left = t.preorder := List.append_nil _
  rw [← hleft]
  exact (DepthFirst.start t).yields

theorem InOrder.yields_start (t : Tree α) : (Cursor.start .inOrder t).Yields t.inorder := by
  have hleft : (InOrder.start t).left = t.inorder := by
    rw [InOrder.start, InOrder.left_leftmost, List.flatMap_nil, List.append_nil]
  rw [← hleft]
  exact (InOrder.start t).yields

theorem Tree.walk_depthFirst (t : Tree α) : t.walk .depthFirst = t.preorder := by
  apply (DepthFirst.yields_start t).takeAll_eq
  rw [length_preorder]
  rfl

theorem Tree.walk_inOrder (t : Tree α) : t.walk .inOrder = t.inorder := by
  apply (InOrder.yields_start t).takeAll_eq
  rw [length_inorder]
  exact InOrder.remaining_leftmost t []

end SlotTree
