import SlotTree.Dismantler
import SlotTree.Drain
import SlotTree.Proofs.Policies.Heap

/-! # Teardowns under another policy

The drain and the dismantler ask before each descent whether a node may be entered. With single
handles the answer does not depend on the policy, so they take the same way and report the same
values and counters; a report names the policy.
-/

namespace SlotTree

universe u

variable {α : Type u}

/-- The same event under another policy. -/
def Event.under (q : Policy) : Event α → Event α
  | .released value => .released value
  | .drained pass pops => .drained pass pops
  | .cleared _ passes pops => .cleared q passes pops
  | .dismantled _ steps rotations => .dismantled q steps rotations

theorem Event.map_under_ofReleased (q : Policy) (values : List α) :
    (Event.ofReleased values).map (Event.under q) = Event.ofReleased values := by
  rw [ofReleased, List.map_map]
  rfl

namespace Heap

variable (q : Policy) {h : Heap α}

/-! ## The drain -/

/-- What is left of a row, under another policy. -/
def Shed.under (s : Shed α) : Shed α := { s with heap := s.heap.under q }

/-- What a pass leaves, under another policy. -/
def Pass.under (p : Pass α) : Pass α := { p with heap := p.heap.under q }

/-- Slots are taken off until the same one can be entered. -/
theorem Single.shed (single : h.Single) (slots : List Slot) :
    (h.shed slots).heap.Single ∧ (h.under q).shed slots = (h.shed slots).under q := by
  induction slots generalizing h with
  | nil => exact ⟨single, rfl⟩
  | cons s rest ih =>
      have hunder := single.enter?_under q s
      cases hnext : h.enter? s with
      | some next =>
          rw [hnext] at hunder
          rw [shed_enter hnext, shed_enter hunder]
          exact ⟨single, rfl⟩
      | none =>
          rw [hnext] at hunder
          obtain ⟨hsingle, heq⟩ := ih (single.release s.toList)
          rw [shed_refused hnext, shed_refused hunder]
          simp only [releaseSlot, release_under, heq]
          exact ⟨hsingle, rfl⟩

theorem Single.drainPass (single : h.Single) (depth : Nat) (cursor : NodeId) :
    (Heap.drainPass depth h cursor).heap.Single ∧
      Heap.drainPass depth (h.under q) cursor = (Heap.drainPass depth h cursor).under q := by
  induction depth generalizing h cursor with
  | zero => exact ⟨single, rfl⟩
  | succ depth ih =>
      have hunder : (h.under q).enter? ((h.under q).slotsOf cursor).getLast?.join =
          h.enter? (h.slotsOf cursor).getLast?.join := single.enter?_under q _
      cases hnext : h.enter? (h.slotsOf cursor).getLast?.join with
      | some next =>
          rw [hnext] at hunder
          rw [drainPass_enter hnext, drainPass_enter hunder]
          exact ih single next
      | none =>
          rw [hnext] at hunder
          obtain ⟨hsingle, heq⟩ :=
            (single.setSlots cursor []).shed q (h.slotsOf cursor).reverse
          generalize hs : (h.setSlots cursor []).shed (h.slotsOf cursor).reverse = s at hsingle heq
          have hs' : ((h.under q).setSlots cursor []).shed ((h.under q).slotsOf cursor).reverse =
              s.under q := by rw [setSlots_under, slotsOf_under, heq]
          cases hstop : s.stop with
          | none =>
              rw [drainPass_done hnext hs hstop, drainPass_done hunder hs' hstop]
              exact ⟨hsingle, rfl⟩
          | some stop =>
              obtain ⟨hrest, hlater⟩ := ih (hsingle.setSlots cursor s.left) stop.1
              have hback : (s.under q).heap.setSlots cursor (s.under q).left =
                  (s.heap.setSlots cursor s.left).under q := setSlots_under q s.heap cursor s.left
              rw [drainPass_stop hnext hs hstop, drainPass_stop hunder hs' hstop]
              simp only [hback, hlater]
              exact ⟨hrest, rfl⟩

theorem Single.drainFrom (single : h.Single) (budget : Nat) (root : NodeId) (passes pops : Nat) :
    (Heap.drainFrom budget h root passes pops).1.Single ∧
      Heap.drainFrom budget (h.under q) root passes pops =
        ((Heap.drainFrom budget h root passes pops).1.under q,
          (Heap.drainFrom budget h root passes pops).2.map (Event.under q)) := by
  induction budget generalizing h passes pops with
  | zero => exact ⟨single, rfl⟩
  | succ budget ih =>
      by_cases hrow : h.slotsOf root = []
      · rw [drainFrom_of_empty hrow, drainFrom_of_empty (h := h.under q) hrow]
        exact ⟨single, rfl⟩
      · obtain ⟨hpass, heq⟩ := single.drainPass q h.cells.size root
        have hsize : (h.under q).cells.size = h.cells.size := rfl
        obtain ⟨hrest, hlater⟩ :=
          ih hpass (passes + 1) (pops + (Heap.drainPass h.cells.size h root).pops)
        rw [drainFrom_succ hrow, drainFrom_succ (h := h.under q) hrow]
        simp only [hsize, heq, Pass.under, hlater]
        refine ⟨hrest, ?_⟩
        simp [Event.map_under_ofReleased, Event.under]

/-- The drain makes the same passes, and reports the same counters. -/
theorem Single.drain (single : h.Single) (root : NodeId) :
    (h.drain root).1.Single ∧ (h.under q).drain root =
      ((h.drain root).1.under q, (h.drain root).2.map (Event.under q)) :=
  single.drainFrom q h.cells.size root 0 0

end Heap

namespace Dismantler

open Heap

variable (q : Policy) {h : Heap α} {m : Dismantler}

/-! ## The dismantler -/

/-- What a step leaves, under another policy. -/
def Outcome.under (o : Outcome α) : Outcome α := { o with heap := o.heap.under q }

theorem rotate_under (h : Heap α) (current parent : NodeId) :
    rotate (h.under q) current parent = (rotate h current parent).under q := by
  simp only [rotate, slotsOf_under, setSlots_under]
  split <;> rfl

theorem single_rotate (single : h.Single) (current parent : NodeId) :
    (rotate h current parent).Single := by
  unfold rotate
  split
  · exact ((single.setSlots current _).setSlots parent []).setSlots parent _
  · exact single

theorem single_settleParent (single : h.Single) (m : Dismantler) (current : NodeId) :
    (settleParent m h current).heap.Single ∧
      settleParent m (h.under q) current = (settleParent m h current).under q := by
  unfold settleParent
  cases m.parent with
  | none => exact ⟨single, rfl⟩
  | some parent =>
      have hloaded : isLoaded (h.under q) parent = isLoaded h parent := by
        rw [isLoaded, isLoaded, single.isExclusive_under, slotsOf_under]
      dsimp only
      rw [hloaded]
      by_cases hparent : isLoaded h parent
      · rw [if_pos hparent, if_pos hparent, rotate_under]
        exact ⟨single_rotate single current parent, rfl⟩
      · rw [if_neg hparent, if_neg hparent, release_under]
        exact ⟨single.release [parent], rfl⟩

theorem single_proceed (single : h.Single) (m : Dismantler) (current : NodeId) :
    (proceed m h current).heap.Single ∧
      proceed m (h.under q) current = (proceed m h current).under q := by
  unfold proceed
  rw [slotsOf_under]
  split
  · exact ⟨single.setSlots current _, by rw [setSlots_under]; rfl⟩
  · refine ⟨(single.setSlots current _).release [current], ?_⟩
    simp only [setSlots_under, release_under]
    rfl
  · exact ⟨single.setSlots current _, by rw [setSlots_under]; rfl⟩

/-- A step takes the same branch, as both policies let the machine enter its current node. -/
theorem single_advance (single : h.Single) (m : Dismantler) (current : NodeId) :
    (advance m h current).heap.Single ∧
      advance m (h.under q) current = (advance m h current).under q := by
  unfold advance
  rw [single.enter?_under]
  cases h.enter? (some current) with
  | none =>
      simp only [release_under]
      exact ⟨single.release [current], rfl⟩
  | some _ =>
      obtain ⟨hsettled, heq⟩ :=
        single_settleParent q single { m with steps := m.steps + 1 } current
      simp only [heq, Outcome.under]
      obtain ⟨hmoved, heq⟩ := single_proceed q hsettled
        (settleParent { m with steps := m.steps + 1 } h current).machine current
      simp only [heq]
      exact ⟨hmoved, rfl⟩

theorem single_runFor (single : h.Single) (n : Nat) (m : Dismantler) :
    (runFor n m h).heap.Single ∧ runFor n m (h.under q) = (runFor n m h).under q := by
  induction n generalizing m h with
  | zero => exact ⟨single, rfl⟩
  | succ n ih =>
      cases hcurrent : m.current with
      | none =>
          rw [runFor_of_done hcurrent, runFor_of_done hcurrent]
          exact ⟨single, rfl⟩
      | some current =>
          obtain ⟨hstep, heq⟩ := single_advance q single m current
          obtain ⟨hrest, hlater⟩ := ih hstep (advance m h current).machine
          rw [runFor_succ hcurrent, runFor_succ hcurrent]
          simp only [heq, Outcome.under, hlater]
          exact ⟨hrest, trivial⟩

/-- A run takes the same steps, and reports the same counters. -/
theorem single_run (single : h.Single) (m : Dismantler) :
    (m.run h).2.1.Single ∧ m.run (h.under q) =
      ((m.run h).1, (m.run h).2.1.under q, (m.run h).2.2.map (Event.under q)) := by
  unfold run
  have hbudget : budget (h.under q) = budget h := rfl
  by_cases hdone : m.isDone
  · simp only [hdone, if_true]
    exact ⟨single, rfl⟩
  · obtain ⟨hran, heq⟩ := single_runFor q single (budget h) m
    simp only [hdone, hbudget, heq]
    refine ⟨hran, ?_⟩
    simp [Outcome.under, Event.map_under_ofReleased, Event.under, Heap.under]

end Dismantler

end SlotTree
