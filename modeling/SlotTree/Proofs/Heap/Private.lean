import SlotTree.Heap.Access
import SlotTree.Proofs.Heap.Release

/-! # Private nodes

A path on which every node has a single handle is the only way to its end: whoever holds a handle
other than the first one of the path does not reach the node at the end.
-/

namespace SlotTree.Heap

universe u

variable {α : Type u} {h : Heap α} {others : List NodeId} {root id : NodeId}

open List

/-- The single handle to a node is out of reach of some holders. -/
structure Private (h : Heap α) (others : List NodeId) (id : NodeId) : Prop where
  sole : h.countOf id = 1
  hidden : ¬ h.Reached others id

theorem ownChildAt_ok {index : Nat} {child : NodeId} (hok : h.ownChildAt id index = .ok child) :
    h.Edge id child ∧ h.isExclusive child := by
  unfold ownChildAt childAt slotAt at hok
  cases hslot : (h.slotsOf id)[index]? with
  | none => simp [hslot] at hok
  | some s =>
      cases s with
      | none => simp [hslot] at hok
      | some other =>
          by_cases hexclusive : h.isExclusive other
          · obtain rfl : other = child := by simpa [hslot, hexclusive] using hok
            exact ⟨List.mem_of_getElem? hslot, hexclusive⟩
          · simp [hslot, hexclusive] at hok

/-- A single handle in a slot is hidden by the node that holds it. -/
theorem Private.child (hprivate : h.Private others id) (owned : h.Owned (root :: others))
    {child : NodeId} (hedge : h.Edge id child) (hsole : h.countOf child = 1) :
    h.Private others child := by
  obtain ⟨hheld, honly⟩ := owned.of_edge_sole hedge hsole
  refine ⟨hsole, fun hreach => ?_⟩
  rcases hreach.mem_or_edge with hmem | ⟨a, ha, hedge'⟩
  · exact hheld (List.mem_cons_of_mem _ hmem)
  · exact hprivate.hidden (honly a hedge' ▸ ha)

theorem Owned.private_root (owned : h.Owned (root :: others)) (hroot : h.isExclusive root) :
    h.Private others root :=
  ⟨owned.isExclusive_iff.1 hroot, owned.not_reached_of_held_sole (owned.isExclusive_iff.1 hroot)⟩

/-- What is found on an owned path is private to the holder of the first handle. -/
theorem Private.descendOwned (hprivate : h.Private others id) (owned : h.Owned (root :: others))
    {path : List Nat} {target : NodeId} (hok : h.descendOwned id path = .ok target) :
    h.Private others target := by
  induction path generalizing id with
  | nil =>
      obtain rfl : id = target := by simpa [Heap.descendOwned, pure, Except.pure] using hok
      exact hprivate
  | cons index path ih =>
      cases hchild : h.ownChildAt id index with
      | error e => simp [Heap.descendOwned, hchild, bind, Except.bind] at hok
      | ok child =>
          obtain ⟨hedge, hexclusive⟩ := ownChildAt_ok hchild
          have hrest : h.descendOwned child path = .ok target := by
            simpa [Heap.descendOwned, hchild, bind, Except.bind] using hok
          exact ih (hprivate.child owned hedge (owned.isExclusive_iff.1 hexclusive)) hrest

theorem Private.live (hprivate : h.Private others id) : h.Live id :=
  Owned.live_of_countOf_pos (by rw [hprivate.sole]; exact Nat.one_pos)

/-- A private node may take slots in hand of other holders: nothing below them leads back to it. -/
theorem Owned.setSlots_of_private {holders : List NodeId} (owned : h.Owned holders)
    (hprivate : h.Private others id) {slots : List Slot} {after : List NodeId}
    (hnew : ∀ b, some b ∈ slots → some b ∉ h.slotsOf id → b ∈ others)
    (hcount : ∀ x, after.count x + slots.count (some x) =
      holders.count x + (h.slotsOf id).count (some x)) :
    (h.setSlots id slots).Owned after := by
  apply owned.setSlots hprivate.live hcount
  intro b hb hold hpath
  exact hprivate.hidden ⟨b, hnew b hb hold, hpath⟩

end SlotTree.Heap
