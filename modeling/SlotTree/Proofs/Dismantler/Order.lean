import SlotTree.Proofs.Dismantler.Turning

/-! # Dismantling in order

No turn changes the order of a tree: each drops the first node in order or none. So an unshared
binary tree of propped nodes is dismantled in order.
-/

namespace SlotTree

universe u

variable {α : Type u}

namespace Dismantler

open Heap

/-- The values in order. -/
def inorderValues (row : Row (Located α)) : List α :=
  (Tree.rowInorder row).map fun t => t.value.value

/-- What steps do to the tree that is left: the values that they drop are the first ones in order,
and the next steps find a tree of the same kind. -/
structure OrderSpec (s : Option (Tree (Located α))) (o : Outcome α)
    (left : Option (Tree (Located α))) : Prop where
  standing : o.machine.Standing o.heap left
  fit : Fit [left]
  values_eq : inorderValues [s] = o.values ++ inorderValues [left]

variable {l : Located α} {row rest : Row (Located α)} {s : Option (Tree (Located α))}

@[simp] theorem inorderValues_nil : inorderValues ([] : Row (Located α)) = [] := rfl

@[simp] theorem inorderValues_hole : inorderValues (none :: rest) = inorderValues rest := rfl

@[simp] theorem inorderValues_leaf :
    inorderValues (some (.node l []) :: rest) = l.value :: inorderValues rest := rfl

@[simp] theorem inorderValues_node : inorderValues (some (.node l (s :: row)) :: rest) =
    inorderValues [s] ++ l.value :: (inorderValues row ++ inorderValues rest) := by
  cases s <;> simp [inorderValues, Tree.rowInorder, Tree.inorder]

/-- A turn drops the first node in order or none, and leaves the order of the others. -/
theorem Turn.order {a b : Remains α} {values : List α} {n r : Nat} (hturn : Turn a values n r b) :
    inorderValues [a.tree] = values ++ inorderValues [b.tree] := by
  cases hturn with
  | idle => rfl
  | rotate p l r hrow => rcases hrow with rfl | ⟨rfl, rfl⟩ <;> simp
  | leaf => rfl
  | leafBelow => simp
  | down => rfl
  | right => simp
  | close => simp

theorem Turns.order {a b : Remains α} {values : List α} {n r : Nat}
    (hturns : Turns a values n r b) :
    inorderValues [a.tree] = values ++ inorderValues [b.tree] := by
  induction hturns with
  | refl => rfl
  | head hturn _ ih => rw [hturn.order, ih, List.append_assoc]

variable {m : Dismantler} {h : Heap α} {others : List NodeId}

theorem runFor_order (budget : Nat) (owned : h.Owned (m.held ++ others)) (ready : m.Ready h)
    (hstanding : m.Standing h s) (hfit : Fit [s]) :
    ∃ left, OrderSpec s (runFor budget m h) left := by
  obtain ⟨left, n, r, spec⟩ := runFor_turns budget owned ready hstanding hfit
  exact ⟨left, spec.standing, spec.turns.fit hfit, spec.turns.order⟩

/-- A run drops all that is left, in order. -/
theorem run_order (owned : h.Owned (m.held ++ others)) (ready : m.Ready h)
    (hstanding : m.Standing h s) (hfit : Fit [s]) :
    Event.releasedIn (m.run h).2.2 = inorderValues [s] := by
  obtain ⟨n, r, hturns, -, -⟩ := run_turns owned ready hstanding hfit
  simpa using hturns.order.symm

end Dismantler

namespace Heap

open Dismantler Event

/-- An unshared tree of propped nodes is dismantled in order, all at once as after any number of
single steps. -/
theorem dismantle_inOrder {h : Heap α} {root : NodeId} {others : List NodeId}
    (owned : h.Owned (root :: others)) :
    ∃ t, h.view root = some t ∧
      ((∀ s ∈ t.walk .depthFirst, s.value.count = 1) → (∀ s ∈ t.walk .depthFirst, s.Propped) →
        releasedIn (h.dismantle (some root)).2 =
          (t.walk .inOrder).map (fun s => s.value.value) ∧
        ∀ steps, let o := runFor steps (start (some root)) h
          o.values ++ releasedIn (o.machine.run o.heap).2.2 =
            (t.walk .inOrder).map fun s => s.value.value) := by
  obtain ⟨t, hview, ht⟩ := owned.view_eq (owned.live_of_mem List.mem_cons_self)
  refine ⟨t, hview, fun hunshared hpropped => ?_⟩
  have hfit : Fit [some t] := by
    rw [Tree.walk_depthFirst] at hunshared hpropped
    intro s hs
    have hs : s ∈ t.preorder := by simpa [Tree.rowPreorder] using hs
    exact ⟨hunshared s hs, hpropped s hs⟩
  have hvalues : inorderValues [some t] = (t.walk .inOrder).map fun s => s.value.value := by
    simp [inorderValues, Tree.rowInorder, Tree.walk_inOrder]
  have owned : h.Owned ((start (some root)).held ++ others) := by rwa [held_start]
  have hready := ready_start (some root) h
  have hstanding : (start (some root)).Standing h (some t) := .alone rfl rfl ht
  rw [← hvalues, dismantle, run_order owned hready hstanding hfit]
  refine ⟨rfl, fun steps => ?_⟩
  have hkept := runFor_kept steps owned hready
  obtain ⟨left, hfirst⟩ := runFor_order steps owned hready hstanding hfit
  dsimp only
  rw [run_order hkept.owned hkept.ready hfirst.standing hfirst.fit, ← hfirst.values_eq]

/-- Two nodes with two leaves each below the first and none below the second. -/
def balanced : Heap Nat :=
  ⟨.unique, #[some ⟨1, 1, []⟩, some ⟨1, 3, []⟩, some ⟨1, 2, [some 0, some 1]⟩, some ⟨1, 5, []⟩,
    some ⟨1, 4, [some 2, some 3]⟩]⟩

theorem owned_balanced : balanced.Owned [4] := by
  have hfirst : ((empty .unique).alloc 1 []).1.Owned [0] := (owned_empty .unique).alloc 1
  have hsecond : (⟨.unique, #[some ⟨1, 1, []⟩, some ⟨1, 3, []⟩]⟩ : Heap Nat).Owned [1, 0] :=
    @Owned.alloc _ _ [0] [] hfirst 3
  have hleft : (⟨.unique, #[some ⟨1, 1, []⟩, some ⟨1, 3, []⟩, some ⟨1, 2, [some 0, some 1]⟩]⟩ :
      Heap Nat).Owned [2] :=
    @Owned.alloc _ _ [] [some 0, some 1] (hsecond.perm (List.Perm.swap _ _ _)) 2
  have hright := @Owned.alloc _ _ [2] [] hleft 5
  exact @Owned.alloc _ _ [] [some 2, some 3] (hright.perm (List.Perm.swap _ _ _)) 4

theorem dismantle_inOrder_balanced : balanced.Owned [4] ∧
    ∃ t, balanced.view 4 = some t ∧ (∀ s ∈ t.walk .depthFirst, s.value.count = 1) ∧
      (∀ s ∈ t.walk .depthFirst, s.Propped) ∧
      releasedIn (balanced.dismantle (some 4)).2 = [1, 2, 3, 4, 5] ∧
      ∀ steps, let o := runFor steps (start (some 4)) balanced
        o.values ++ releasedIn (o.machine.run o.heap).2.2 = [1, 2, 3, 4, 5] := by
  obtain ⟨t, hview, horder⟩ := dismantle_inOrder owned_balanced
  obtain rfl := Option.some.inj (hview.symm.trans rfl)
  refine ⟨owned_balanced, _, hview, ?_⟩
  rw [Tree.walk_depthFirst, Tree.walk_inOrder] at horder
  rw [Tree.walk_depthFirst]
  exact ⟨by decide, by decide, horder (by decide) (by decide)⟩

end Heap

end SlotTree
