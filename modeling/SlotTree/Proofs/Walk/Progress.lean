import SlotTree.Proofs.Heap.Paths
import SlotTree.Proofs.Walk.Levels

/-! # Cursors at one position

Two cursors are at the same position if they stand at one node. Where no node is reached by two
paths, each walk comes to each node once, so cursors of one order over one tree meet only where they
have gone equally far. Over trees without a common node they meet only at the end.
-/

namespace SlotTree

universe u

variable {α : Type u}

open scoped List

/-! ## Walks in the three orders -/

namespace Tree

mutual

theorem inorder_perm (t : Tree α) : t.inorder ~ t.preorder := by
  match t with
  | .node v [] => exact .refl _
  | .node v (none :: rest) => exact (rowInorder_perm rest).cons _
  | .node v (some left :: rest) =>
      rw [inorder, preorder, rowPreorder]
      exact List.perm_middle.trans (((inorder_perm left).append (rowInorder_perm rest)).cons _)

theorem rowInorder_perm (row : Row α) : rowInorder row ~ rowPreorder row := by
  match row with
  | [] => exact .refl _
  | none :: rest => exact rowInorder_perm rest
  | some t :: rest => exact (inorder_perm t).append (rowInorder_perm rest)

end

/-- All walks come to the same nodes. -/
theorem walk_perm (t : Tree α) (order : Order) : t.walk order ~ t.preorder := by
  cases order with
  | breadthFirst =>
      rw [walk_breadthFirst, ← sort_places, ← map_snd_places 0 t]
      exact (List.mergeSort_perm _ _).map Prod.snd
  | depthFirst => exact .of_eq t.walk_depthFirst
  | inOrder => exact t.walk_inOrder ▸ t.inorder_perm

theorem length_walk (t : Tree α) (order : Order) : (t.walk order).length = t.size :=
  (t.walk_perm order).length_eq.trans t.length_preorder

end Tree

namespace Cursor

theorem yields_start (order : Order) (t : Tree α) : (start order t).Yields (t.walk order) := by
  cases order with
  | breadthFirst => exact t.walk_breadthFirst ▸ BreadthFirst.yields_start t
  | depthFirst => exact t.walk_depthFirst ▸ DepthFirst.yields_start t
  | inOrder => exact t.walk_inOrder ▸ InOrder.yields_start t

theorem isExhausted_after {order : Order} {t : Tree α} {k : Nat} :
    ((start order t).after k).isExhausted = true ↔ t.size ≤ k := by
  rw [isExhausted, (yields_start order t).lists.current, Option.isNone_iff_eq_none,
    List.getElem?_eq_none_iff, t.length_walk]

theorem order_start (order : Order) (t : Tree α) : (start order t).order = order := by
  cases order <;> rfl

theorem order_call (c : Cursor α) : c.call.2.order = c.order := by
  cases c with
  | breadthFirst w => cases hnext : w.next <;> simp [call, next, hnext, order]
  | depthFirst w => cases hnext : w.next <;> simp [call, next, hnext, order]
  | inOrder w => cases hnext : w.next <;> simp [call, next, hnext, order]

theorem order_after (c : Cursor α) (k : Nat) : (c.after k).order = c.order := by
  induction k generalizing c with
  | zero => rfl
  | succ k ih => rw [after, ih, order_call]

/-- After some calls, cursors of one order are compared by what their next calls answer. -/
theorem equals?_after (order : Order) (s t : Tree (Located α)) (k m : Nat) :
    ((start order s).after k).equals? ((start order t).after m) =
      some (samePosition (s.walk order)[k]? (t.walk order)[m]?) := by
  rw [equals?, order_after, order_after, order_start, order_start, if_pos rfl,
    (yields_start order s).lists.current, (yields_start order t).lists.current]

/-- In a list without repeated identities, a position is how far one has gone. -/
theorem samePosition_getElem? {nodes : List (Tree (Located α))}
    (hnodup : (nodes.map fun s => s.value.id).Nodup) (k m : Nat) :
    samePosition nodes[k]? nodes[m]? = decide (min k nodes.length = min m nodes.length) := by
  have hwithin {i : Nat} {s : Tree (Located α)} (hi : nodes[i]? = some s) : i < nodes.length :=
    (List.getElem?_eq_some_iff.1 hi).1
  cases hk : nodes[k]? with
  | none =>
      have hk := List.getElem?_eq_none_iff.1 hk
      cases hm : nodes[m]? with
      | none =>
          have hm := List.getElem?_eq_none_iff.1 hm
          exact (decide_eq_true (by omega)).symm
      | some t =>
          have hm := hwithin hm
          exact (decide_eq_false (by omega)).symm
  | some s =>
      cases hm : nodes[m]? with
      | none =>
          have hk := hwithin hk
          have hm := List.getElem?_eq_none_iff.1 hm
          exact (decide_eq_false (by omega)).symm
      | some t =>
          have hlt : k < (nodes.map fun s => s.value.id).length := by
            simpa using hwithin hk
          have hids : s.value.id = t.value.id ↔ k = m := by
            rw [← List.getElem?_inj hlt hnodup]
            simp [hk, hm]
          have hk := hwithin hk
          have hm := hwithin hm
          have hmin : s.value.id = t.value.id ↔ min k nodes.length = min m nodes.length := by
            rw [hids, Nat.min_eq_left hk.le, Nat.min_eq_left hm.le]
          exact (Bool.beq_eq_decide_eq _ _).trans (decide_eq_decide.2 hmin)

/-- Over nodes without a common identity, a position is the same only past both ends. -/
theorem samePosition_apart {s t : Option (Tree (Located α))}
    (hapart : ∀ a ∈ s, ∀ b ∈ t, a.value.id ≠ b.value.id) :
    samePosition s t = (s.isNone && t.isNone) := by
  cases s with
  | none => cases t <;> rfl
  | some a =>
      cases t with
      | none => rfl
      | some b => exact beq_eq_false_iff_ne.2 (hapart a rfl b rfl)

end Cursor

/-! ## Cursors over the nodes of a heap -/

namespace Heap

variable {h : Heap α} {holders : List NodeId}

/-- A walk of a view in which each node has one place yields no node twice. -/
theorem nodup_walk {t : Tree (Located α)} (hnodup : (idsOf t).Nodup) (order : Order) :
    ((t.walk order).map fun s => s.value.id).Nodup :=
  ((t.walk_perm order).map fun s : Tree (Located α) => s.value.id).nodup_iff.2 hnodup

theorem reaches_of_mem_walk {id : NodeId} {t s : Tree (Located α)} (ht : Unfolds h.located id t)
    {order : Order} (hs : s ∈ t.walk order) : h.Reaches id s.value.id :=
  (mem_idsOf ht).1 (List.mem_map.2 ⟨s, (t.walk_perm order).subset hs, rfl⟩)

/-- Below a node to whose nodes no two paths lead, cursors of one order are equal if they have gone
equally far, where whoever is at the end has gone as far as there are nodes. Cursors of one order
over nodes that reach nothing in common are equal if both are at the end. -/
theorem equal_progress (owned : h.Owned holders) :
    (∀ id, h.Live id → h.Untangled id →
      ∃ t, h.view id = some t ∧ t.size = h.height id ∧
        ∀ order k m,
          ((Cursor.start order t).after k).equals? ((Cursor.start order t).after m) =
            some (decide (min k t.size = min m t.size))) ∧
    (∀ a b, h.Live a → h.Live b → (∀ id, h.Reaches a id → ¬ h.Reaches b id) →
      ∃ s t, h.view a = some s ∧ h.view b = some t ∧
        ∀ order k m,
          ((Cursor.start order s).after k).equals? ((Cursor.start order t).after m) =
            some (((Cursor.start order s).after k).isExhausted &&
              ((Cursor.start order t).after m).isExhausted)) := by
  refine ⟨fun id hid huntangled => ?_, fun a b ha hb hapart => ?_⟩
  · obtain ⟨t, hview, ht⟩ := owned.view_eq hid
    have hnodup := (untangled_iff_nodup ht).1 huntangled
    refine ⟨t, hview, size_eq_height owned hid ht hnodup, fun order k m => ?_⟩
    rw [Cursor.equals?_after, Cursor.samePosition_getElem? (nodup_walk hnodup order), t.length_walk]
  · obtain ⟨s, hviewA, hs⟩ := owned.view_eq ha
    obtain ⟨t, hviewB, ht⟩ := owned.view_eq hb
    refine ⟨s, t, hviewA, hviewB, fun order k m => ?_⟩
    rw [Cursor.equals?_after, Cursor.samePosition_apart, Cursor.isExhausted, Cursor.isExhausted,
      (Cursor.yields_start order s).lists.current, (Cursor.yields_start order t).lists.current]
    intro x hx y hy heq
    have hreachA := reaches_of_mem_walk hs (List.mem_of_getElem? hx)
    have hreachB := reaches_of_mem_walk ht (List.mem_of_getElem? hy)
    exact hapart _ hreachA (heq ▸ hreachB)

/-- A leaf in the second slot of a node, and another leaf twice below a third node. -/
def grove : Heap Nat :=
  ⟨.shared, #[some ⟨1, 4, []⟩, some ⟨1, 2, [none, some 0]⟩, some ⟨2, 3, []⟩,
    some ⟨1, 1, [some 2, some 2]⟩]⟩

theorem owned_grove : grove.Owned [3, 1] := by
  have hleaf : ((empty .shared).alloc 4 []).1.Owned [0] := (owned_empty .shared).alloc 4
  have hnode : (⟨.shared, #[some ⟨1, 4, []⟩, some ⟨1, 2, [none, some 0]⟩]⟩ : Heap Nat).Owned [1] :=
    @Owned.alloc _ _ [] [none, some 0] hleaf 2
  have hother : (⟨.shared, #[some ⟨1, 4, []⟩, some ⟨1, 2, [none, some 0]⟩, some ⟨1, 3, []⟩]⟩ :
      Heap Nat).Owned [2, 1] := @Owned.alloc _ _ [1] [] hnode 3
  have htwice : (⟨.shared, #[some ⟨1, 4, []⟩, some ⟨1, 2, [none, some 0]⟩, some ⟨2, 3, []⟩]⟩ :
      Heap Nat).Owned [2, 2, 1] := hother.share rfl
  exact @Owned.alloc _ _ [1] [some 2, some 2] htwice 1

theorem equal_progress_grove : grove.Owned [3, 1] ∧ grove.Live 1 ∧ grove.Live 3 ∧
    grove.Untangled 1 ∧ (∀ id, grove.Reaches 1 id → ¬ grove.Reaches 3 id) ∧
    ∃ s t, grove.view 1 = some s ∧ grove.view 3 = some t ∧
      ∀ order,
        ((Cursor.start order s).after 1).equals? ((Cursor.start order s).after 0) = some false ∧
        ((Cursor.start order s).after 5).equals? ((Cursor.start order t).after 3) = some true := by
  have hone : grove.Live 1 := by decide
  have hthree : grove.Live 3 := by decide
  obtain ⟨s, hviewA, hs⟩ := owned_grove.view_eq hone
  obtain ⟨t, hviewB, ht⟩ := owned_grove.view_eq hthree
  have hidsA : idsOf s = [1, 0] := by
    have hview : (grove.view 1).map idsOf = some [1, 0] := by decide
    rw [hviewA] at hview
    exact Option.some.inj hview
  have hidsB : idsOf t = [3, 2, 2] := by
    have hview : (grove.view 3).map idsOf = some [3, 2, 2] := by decide
    rw [hviewB] at hview
    exact Option.some.inj hview
  have huntangled : grove.Untangled 1 := by
    rw [untangled_iff_nodup hs, hidsA]
    decide
  have hapart : ∀ id, grove.Reaches 1 id → ¬ grove.Reaches 3 id := by
    intro id hid hid'
    rw [← mem_idsOf hs, hidsA] at hid
    rw [← mem_idsOf ht, hidsB] at hid'
    have hnone : ∀ x ∈ [1, 0], x ∉ [3, 2, 2] := by decide
    exact hnone id hid hid'
  have hsize : s.size = 2 := by
    rw [← Tree.length_preorder, ← List.length_map fun s => s.value.id]
    exact congrArg List.length hidsA
  have hsize' : t.size = 3 := by
    rw [← Tree.length_preorder, ← List.length_map fun s => s.value.id]
    exact congrArg List.length hidsB
  obtain ⟨heach, hpairs⟩ := equal_progress owned_grove
  obtain ⟨s', hview, -, hsame⟩ := heach 1 hone huntangled
  obtain rfl := Option.some.inj (hviewA.symm.trans hview)
  obtain ⟨s', t', hview, hview', hboth⟩ := hpairs 1 3 hone hthree hapart
  obtain rfl := Option.some.inj (hviewA.symm.trans hview)
  obtain rfl := Option.some.inj (hviewB.symm.trans hview')
  refine ⟨owned_grove, hone, hthree, huntangled, hapart, s, t, hviewA, hviewB, fun order => ?_⟩
  constructor
  · rw [hsame order 1 0, hsize]
    rfl
  · rw [hboth order 5 3, Cursor.isExhausted_after.2 (by omega),
      Cursor.isExhausted_after.2 (by omega), Bool.and_self]

end Heap

end SlotTree
