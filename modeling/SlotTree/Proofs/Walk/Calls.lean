import SlotTree.Proofs.Walk.Sequence

/-! # Calls of a walk

A walk is asked for its next node again and again, also after its end, where it answers nothing and
stays as it is. What it yields is read off the answers, and before each call `current` shows what
the answer will be. Main results: a depth-first walk lists the nodes in the order of
`Tree.preorder`, and a walk in order in that of `Tree.inorder`.
-/

namespace SlotTree

universe u

variable {α : Type u}

namespace Cursor

/-- The answer to a call of `next`, and the cursor after it. -/
def call (c : Cursor α) : Option (Tree α) × Cursor α :=
  match c.next with
  | none => (none, c)
  | some (t, after) => (some t, after)

/-- The cursor after a number of calls. -/
def after (c : Cursor α) : Nat → Cursor α
  | 0 => c
  | k + 1 => c.call.2.after k

/-- The calls answer with these nodes one after another, and with nothing ever after. Between two
calls the cursor stands at the node that the second one answers. -/
structure Lists (c : Cursor α) (nodes : List (Tree α)) : Prop where
  answers : ∀ k, (c.after k).call.1 = nodes[k]?
  current : ∀ k, (c.after k).current = nodes[k]?
  ended : ∀ j k, j ≤ k → (c.after j).call.1 = none → (c.after k).call.1 = none

/-- The cursor stands at what it answers. -/
theorem call_fst (c : Cursor α) : c.call.1 = c.current := by
  have hnext : c.current = c.next.map Prod.fst := by
    cases c with
    | breadthFirst w =>
        obtain ⟨thisLevel, families⟩ := w
        match thisLevel with
        | [] => rfl
        | [t] => rfl
        | t :: s :: rest => rfl
    | depthFirst w => cases hw : w.current <;> simp [current, next, DepthFirst.next, hw]
    | inOrder w => cases hw : w.current <;> simp [current, next, InOrder.next, hw]
  rw [hnext, call]
  cases c.next <;> rfl

/-! ## Cursors by what they have left -/

variable {c : Cursor α} {nodes : List (Tree α)}

theorem Yields.call_snd (hc : c.Yields nodes) : c.call.2.Yields nodes.tail := by
  cases hc with
  | done hnext =>
      rw [call, hnext]
      exact .done hnext
  | step hnext hafter =>
      rw [call, hnext]
      exact hafter

theorem Yields.current_eq (hc : c.Yields nodes) : c.current = nodes.head? := by
  rw [← call_fst]
  cases hc with
  | done hnext => rw [call, hnext, List.head?_nil]
  | step hnext _ => rw [call, hnext, List.head?_cons]

theorem Yields.after (hc : c.Yields nodes) (k : Nat) : (c.after k).Yields (nodes.drop k) := by
  induction k generalizing c nodes with
  | zero => exact hc
  | succ k ih =>
      rw [← List.drop_tail]
      exact ih hc.call_snd

theorem Yields.lists (hc : c.Yields nodes) : c.Lists nodes := by
  have hcurrent : ∀ k, (c.after k).current = nodes[k]? := fun k => by
    rw [(hc.after k).current_eq, List.head?_drop]
  refine ⟨fun k => (call_fst _).trans (hcurrent k), hcurrent, fun j k hle hnone => ?_⟩
  rw [call_fst, hcurrent, List.getElem?_eq_none_iff] at hnone ⊢
  exact Nat.le_trans hnone hle

end Cursor

/-! ## Depth first and in order -/

/-- A depth-first walk yields a node and then what is below its slots from left to right. A hole
yields nothing, and a node that is below several slots is yielded once for each. -/
theorem Cursor.depthFirst_lists (t : Tree α) :
    t.walk .depthFirst = t.preorder ∧ (start .depthFirst t).Lists t.preorder :=
  ⟨t.walk_depthFirst, (DepthFirst.yields_start t).lists⟩

/-- A walk in order yields what is below the first slot of a node, the node, and what is below its
other slots from left to right. Where the first slot is a hole, or there is none, the node comes
first. -/
theorem Cursor.inOrder_lists (t : Tree α) :
    t.walk .inOrder = t.inorder ∧ (start .inOrder t).Lists t.inorder :=
  ⟨t.walk_inOrder, (InOrder.yields_start t).lists⟩

end SlotTree
