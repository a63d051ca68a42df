import SlotTree.Proofs.Dismantler.Order

/-! # The work of a dismantling

On a tree whose nodes have no slots or two, each turn uses up a fixed share of the tree. A node down
the second slots from the root is released in one step. Any other node is first entered from above,
which takes a step of its own, and if it has slots the parent is then rotated below it.
-/

namespace SlotTree

universe u

variable {α : Type u}

open List

namespace Tree

mutual

/-- A node, and the nodes down the second slots from it. -/
def rightSpine : Tree α → List (Tree α)
  | .node v row => .node v row :: rowSpine row

/-- The right spine of the tree in the second slot. -/
def rowSpine : Row α → List (Tree α)
  | _ :: some t :: _ => rightSpine t
  | _ => []

end

mutual

/-- The nodes that are not on the right spine. -/
def offSpine : Tree α → List (Tree α)
  | .node _ row => rowOffSpine row

/-- The nodes in a row that are not on the right spine of the node above. -/
def rowOffSpine : Row α → List (Tree α)
  | s :: some t :: rest => rowPreorder [s] ++ offSpine t ++ rowPreorder rest
  | row => rowPreorder row

end

/-- A node has no slots or two. -/
def Paired (t : Tree α) : Prop := t.slots = [] ∨ t.slots.length = 2

instance (t : Tree α) : Decidable t.Paired :=
  decidable_of_iff (t.slots.isEmpty ∨ t.slots.length = 2) (by simp [Paired])

mutual

theorem preorder_perm_spine (t : Tree α) : t.preorder ~ t.rightSpine ++ t.offSpine := by
  cases t with
  | node v row => exact (rowPreorder_perm_spine row).cons _

theorem rowPreorder_perm_spine (row : Row α) :
    rowPreorder row ~ rowSpine row ++ rowOffSpine row := by
  match row with
  | [] => exact .refl _
  | [_] => exact .refl _
  | _ :: none :: _ => exact .refl _
  | s :: some t :: rest =>
      have ht := preorder_perm_spine t
      have hsplit : rowPreorder (s :: some t :: rest) =
          rowPreorder [s] ++ (t.preorder ++ rowPreorder rest) :=
        rowPreorder_append [s] (some t :: rest)
      rw [hsplit, rowSpine, rowOffSpine]
      calc rowPreorder [s] ++ (t.preorder ++ rowPreorder rest)
          _ ~ rowPreorder [s] ++ (t.rightSpine ++ t.offSpine ++ rowPreorder rest) :=
              (ht.append_right _).append_left _
          _ = rowPreorder [s] ++ (t.rightSpine ++ (t.offSpine ++ rowPreorder rest)) := by
              rw [List.append_assoc]
          _ ~ t.rightSpine ++ (rowPreorder [s] ++ (t.offSpine ++ rowPreorder rest)) :=
              perm_append_comm_assoc _ _ _
          _ = t.rightSpine ++ (rowPreorder [s] ++ t.offSpine ++ rowPreorder rest) := by
              rw [List.append_assoc]

end

@[simp] theorem rowSpine_pair (f s : Option (Tree α)) : rowSpine [f, s] = s.elim [] rightSpine := by
  cases s <;> rfl

@[simp] theorem rowOffSpine_pair (f s : Option (Tree α)) :
    rowOffSpine [f, s] = rowPreorder [f] ++ s.elim [] offSpine := by
  cases s with
  | none => exact rowPreorder_append [f] [none]
  | some t => simp [rowOffSpine, rowPreorder]

end Tree

namespace Dismantler

open Heap

/-- The nodes of a row have no slots or two each. -/
def AllPaired (row : Row (Located α)) : Prop := ∀ t ∈ Tree.rowPreorder row, t.Paired

/-- The number of nodes that have slots. -/
def branching (nodes : List (Tree (Located α))) : Nat := nodes.countP fun t => !t.slots.isEmpty

/-- The steps that a tree takes: one for a node of the right spine, two for any other. -/
def stepsOf (s : Option (Tree (Located α))) : Nat :=
  (s.elim [] Tree.rightSpine).length + 2 * (s.elim [] Tree.offSpine).length

/-- The rotations that a tree takes: one for each node with slots that is not on the right spine. -/
def rotationsOf (s : Option (Tree (Located α))) : Nat := branching (s.elim [] Tree.offSpine)

/-- What turns of a tree of paired nodes count is the work that they save, and they leave such a
tree. Where a parent waits, the node below it is entered already, and one step less is left. -/
structure WorkSpec (a b : Remains α) (n r : Nat) : Prop where
  paired : AllPaired [b.tree]
  steps_eq : stepsOf a.tree + b.waiting.toNat = n + a.waiting.toNat + stepsOf b.tree
  rotations_eq : rotationsOf a.tree = r + rotationsOf b.tree

variable {l : Located α} {row : Row (Located α)} {f s : Option (Tree (Located α))}

theorem allPaired_cons : AllPaired (s :: row) ↔ AllPaired [s] ∧ AllPaired row :=
  Tree.forall_rowPreorder_cons

theorem allPaired_node :
    AllPaired [some (.node l row)] ↔ (Tree.node l row).Paired ∧ AllPaired row :=
  Tree.forall_rowPreorder_node

theorem allPaired_nil : AllPaired ([] : Row (Located α)) := by
  simp [AllPaired, Tree.rowPreorder]

theorem allPaired_pair :
    AllPaired [some (.node l [f, s])] ↔ AllPaired [f] ∧ AllPaired [s] := by
  rw [allPaired_node, allPaired_cons]
  exact and_iff_right (.inr rfl)

@[simp] theorem branching_nil : branching ([] : List (Tree (Located α))) = 0 := rfl

theorem branching_append (nodes more : List (Tree (Located α))) :
    branching (nodes ++ more) = branching nodes + branching more := List.countP_append

theorem branching_cons_pair (nodes : List (Tree (Located α))) :
    branching (.node l [f, s] :: nodes) = 1 + branching nodes := by
  rw [branching, branching, List.countP_cons, Nat.add_comm]
  rfl

theorem rowPreorder_pair : Tree.rowPreorder [some (.node l [f, s])] =
    .node l [f, s] :: (Tree.rowPreorder [f] ++ Tree.rowPreorder [s]) := by
  rw [← Tree.rowPreorder_append]
  simp [Tree.rowPreorder, Tree.preorder]

theorem stepsOf_pair :
    stepsOf (some (.node l [f, s])) = 1 + 2 * (Tree.rowPreorder [f]).length + stepsOf s := by
  simp only [stepsOf, Option.elim_some, Tree.rightSpine, Tree.offSpine, Tree.rowSpine_pair,
    Tree.rowOffSpine_pair, List.length_cons, List.length_append]
  omega

theorem rotationsOf_pair : rotationsOf (some (.node l [f, s])) =
    branching (Tree.rowPreorder [f]) + rotationsOf s := by
  simp [rotationsOf, Tree.offSpine, branching_append]

/-- A rotation keeps the number of nodes beside the spine of the tree, but takes the lower of the
two nodes up to it. -/
theorem work_rotate (p l : Located α) {f g : Option (Tree (Located α))} (r : Tree (Located α))
    (hpaired : AllPaired [some (.node p [some (.node l [f, g]), some r])]) :
    WorkSpec ⟨true, some (.node p [some (.node l [f, g]), some r])⟩
      ⟨false, some (.node l [f, some (.node p [g, some r])])⟩ 0 1 := by
  simp only [allPaired_pair] at hpaired
  obtain ⟨⟨hf, hg⟩, hr⟩ := hpaired
  refine ⟨?_, ?_, ?_⟩
  · simp only [allPaired_pair]
    exact ⟨hf, hg, hr⟩
  · simp only [stepsOf_pair, rowPreorder_pair, List.length_cons, List.length_append,
      Bool.toNat_true, Bool.toNat_false]
    omega
  · simp only [rotationsOf_pair, rowPreorder_pair, branching_cons_pair, branching_append]
    omega

theorem Turn.work {a b : Remains α} {values : List α} {n r : Nat} (hturn : Turn a values n r b)
    (hpaired : AllPaired [a.tree]) : WorkSpec a b n r := by
  cases hturn with
  | idle => exact ⟨hpaired, (Nat.zero_add _).symm, (Nat.zero_add _).symm⟩
  | rotate p l r hrow =>
      rcases hrow with rfl | ⟨rfl, rfl⟩
      · exact work_rotate p l r hpaired
      · -- A sole slot is padded by a rotation, but no node has one.
        have hnode := (allPaired_cons.1 (allPaired_node.1 hpaired).2).1
        simp [allPaired_node, Tree.Paired] at hnode
  | leaf => exact ⟨allPaired_nil, rfl, rfl⟩
  | leafBelow p l above =>
      obtain ⟨hnode, hrow⟩ := allPaired_node.1 hpaired
      obtain ⟨s, rfl⟩ : ∃ s, above = [s] := by
        simpa [Tree.Paired, List.length_eq_one_iff] using hnode
      refine ⟨allPaired_pair.2 ⟨allPaired_nil, (allPaired_cons.1 hrow).2⟩, ?_, ?_⟩
      · simp only [stepsOf_pair, Tree.rowPreorder, Tree.preorder, List.length_append,
          List.length_cons, List.length_nil, Bool.toNat_true, Bool.toNat_false]
        omega
      · simp [rotationsOf_pair, Tree.rowPreorder, Tree.preorder, branching]
  | down => exact ⟨hpaired, Nat.add_comm _ _, (Nat.zero_add _).symm⟩
  | right l s =>
      refine ⟨(allPaired_pair.1 hpaired).2, ?_, ?_⟩
      · simp [stepsOf_pair, Tree.rowPreorder]
      · simp [rotationsOf_pair, Tree.rowPreorder]
  | close l => simp [allPaired_node, Tree.Paired] at hpaired

theorem Turns.work {a b : Remains α} {values : List α} {n r : Nat} (hturns : Turns a values n r b)
    (hpaired : AllPaired [a.tree]) : WorkSpec a b n r := by
  induction hturns with
  | refl => exact ⟨hpaired, by omega, (Nat.zero_add _).symm⟩
  | head hturn _ ih =>
      have hfirst := hturn.work hpaired
      have hrest := ih hfirst.paired
      have hsteps := hfirst.steps_eq
      have hmore := hrest.steps_eq
      refine ⟨hrest.paired, by omega, ?_⟩
      rw [hfirst.rotations_eq, hrest.rotations_eq, Nat.add_assoc]

/-- Turns that leave nothing count all the work of a tree. -/
theorem Turns.work_eq {values : List α} {n r : Nat}
    (hturns : Turns ⟨false, s⟩ values n r ⟨false, none⟩) (hpaired : AllPaired [s]) :
    n = stepsOf s ∧ r = rotationsOf s := by
  have hwork := hturns.work hpaired
  exact ⟨hwork.steps_eq.symm, hwork.rotations_eq.symm⟩

theorem stepsOf_eq (t : Tree (Located α)) :
    stepsOf (some t) = 2 * t.size - t.rightSpine.length := by
  have hlength := t.preorder_perm_spine.length_eq
  rw [List.length_append, Tree.length_preorder] at hlength
  rw [stepsOf, Option.elim_some, Option.elim_some]
  omega

variable {h : Heap α} {root : NodeId} {others : List NodeId} {t : Tree (Located α)}

/-- However many single steps precede a run, all of them together do the work of the tree. -/
theorem run_work (owned : h.Owned (root :: others)) (ht : Unfolds h.located root t)
    (hfit : Fit [some t]) (hpaired : AllPaired [some t]) (steps : Nat) :
    let o := runFor steps (start (some root)) h
    let m := (o.machine.run o.heap).1
    m.isDone ∧ m.steps = stepsOf (some t) ∧ m.rotations = rotationsOf (some t) := by
  have owned : h.Owned ((start (some root)).held ++ others) := by rwa [held_start]
  have hready := ready_start (some root) h
  have hkept := runFor_kept steps owned hready
  obtain ⟨left, n, r, hfirst⟩ := runFor_turns steps owned hready (.alone rfl rfl ht) hfit
  obtain ⟨k, q, hrest, hsteps, hrotations⟩ :=
    run_turns hkept.owned hkept.ready hfirst.standing (hfirst.turns.fit hfit)
  obtain ⟨hall, hturned⟩ := (hfirst.turns.trans hrest).work_eq hpaired
  refine ⟨?_, ?_, ?_⟩
  · have hheld := (run_kept hkept.owned hkept.ready).1
    rw [held, List.append_eq_nil_iff] at hheld
    simpa [isDone] using hheld.1
  · rw [hsteps, hfirst.steps_eq, Nat.add_assoc, hall]
    exact Nat.zero_add _
  · rw [hrotations, hfirst.rotations_eq, Nat.add_assoc, hturned]
    exact Nat.zero_add _

end Dismantler

namespace Heap

open Dismantler

/-- On an unshared tree whose nodes have no slots or two and are propped, a dismantling takes one
step for each node of the right spine, two for any other one, and one rotation for each of those
that has slots. -/
theorem dismantle_work {h : Heap α} {root : NodeId} {others : List NodeId}
    (owned : h.Owned (root :: others)) :
    ∃ t, h.view root = some t ∧ t.walk .depthFirst ~ t.rightSpine ++ t.offSpine ∧
      ((∀ s ∈ t.walk .depthFirst, s.value.count = 1) →
        (∀ s ∈ t.walk .depthFirst, s.Paired ∧ s.Propped) →
        (h.dismantle (some root)).2.getLast? = some (.dismantled h.policy
          (2 * t.size - t.rightSpine.length) (t.offSpine.countP fun s => !s.slots.isEmpty)) ∧
        ∀ steps, let o := runFor steps (start (some root)) h
          let m := (o.machine.run o.heap).1
          m.isDone ∧ m.steps = 2 * t.size - t.rightSpine.length ∧
            m.rotations = t.offSpine.countP fun s => !s.slots.isEmpty) := by
  obtain ⟨t, hview, ht⟩ := owned.view_eq (owned.live_of_mem List.mem_cons_self)
  refine ⟨t, hview, ?_, fun hunshared hshape => ?_⟩
  · rw [Tree.walk_depthFirst]
    exact t.preorder_perm_spine
  · have hrow : Tree.rowPreorder [some t] = t.walk .depthFirst := by
      simp [Tree.rowPreorder, Tree.walk_depthFirst]
    have hfit : Fit [some t] := by
      rw [Fit, hrow]
      exact fun s hs => ⟨hunshared s hs, (hshape s hs).2⟩
    have hpaired : AllPaired [some t] := by
      rw [AllPaired, hrow]
      exact fun s hs => (hshape s hs).1
    have hwork := run_work owned ht hfit hpaired
    rw [stepsOf_eq] at hwork
    refine ⟨?_, hwork⟩
    obtain ⟨-, hsteps, hrotations⟩ := hwork 0
    have hrun := (run_eq (start (some root)) h).1
    rw [dismantle, run, if_neg (by simp [start, isDone]), List.getLast?_concat, ← hrun]
    rw [runFor_zero] at hsteps hrotations
    rw [hsteps, hrotations]
    rfl

theorem dismantle_work_balanced : balanced.Owned [4] ∧
    ∃ t, balanced.view 4 = some t ∧ (∀ s ∈ t.walk .depthFirst, s.value.count = 1) ∧
      (∀ s ∈ t.walk .depthFirst, s.Paired ∧ s.Propped) ∧
      (balanced.dismantle (some 4)).2.getLast? = some (.dismantled .unique 8 1) ∧
      ∀ steps, let o := runFor steps (start (some 4)) balanced
        let m := (o.machine.run o.heap).1
        m.isDone ∧ m.steps = 8 ∧ m.rotations = 1 := by
  obtain ⟨t, hview, -, hwork⟩ := dismantle_work owned_balanced
  obtain rfl := Option.some.inj (hview.symm.trans rfl)
  refine ⟨owned_balanced, _, hview, ?_⟩
  rw [Tree.walk_depthFirst] at hwork ⊢
  exact ⟨by decide, by decide, hwork (by decide) (by decide)⟩

end Heap

end SlotTree
