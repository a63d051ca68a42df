import SlotTree.Proofs.Drain.Semantics

/-! # Pops that free one node at most

A slot that cannot be descended into is a hole, or one of several handles to its node, or the only
handle to a node without slots. So a pop never sets off another release.
-/

namespace SlotTree.Heap

universe u

variable {α : Type u} {h : Heap α} {holders : List NodeId}

open List

theorem setSlots_put_comm {id other : NodeId} (hne : id ≠ other) (n : Node α) (row : List Slot) :
    (h.setSlots other row).put id n = (h.put id n).setSlots other row := by
  cases hother : h.get? other with
  | none => simp [setSlots, hother, get?_put_other hne.symm]
  | some m =>
      have hput : (h.put id n).get? other = some m := (get?_put_other hne.symm n).trans hother
      simp only [setSlots, hother, hput]
      simp only [put, Array.setIfInBounds_comm _ _ hne]

theorem setSlots_free_comm {id other : NodeId} (hne : id ≠ other) (row : List Slot) :
    (h.setSlots other row).free id = (h.free id).setSlots other row := by
  cases hother : h.get? other with
  | none => simp [setSlots, hother, get?_free_other hne.symm]
  | some m =>
      have hfree : (h.free id).get? other = some m := (get?_free_other hne.symm).trans hother
      simp only [setSlots, hother, hfree]
      simp only [put, free, Array.setIfInBounds_comm _ _ hne]

/-- Giving up a handle to a node that cannot be entered touches this node alone, whatever is done
to the row of another one meanwhile. -/
theorem Owned.release_refused (owned : h.Owned holders) {id other : NodeId} {n : Node α}
    (hn : h.get? id = some n) (hne : id ≠ other) (refused : h.enter? (some id) = none) :
    (1 < n.count ∧ ∀ row, (h.setSlots other row).release [id] =
      ((h.put id { n with count := n.count - 1 }).setSlots other row, [])) ∨
    (n.count = 1 ∧ n.slots = [] ∧ ∀ row,
      (h.setSlots other row).release [id] = ((h.free id).setSlots other row, [n.value])) := by
  have hget : ∀ row, (h.setSlots other row).get? id = some n := fun row => by
    simpa [get?_setSlots, hne] using hn
  by_cases hmore : 1 < n.count
  · refine .inl ⟨hmore, fun row => ?_⟩
    rw [release_lower (hget row) hmore, setSlots_put_comm hne, release_nil]
  · have hpos := owned.positive id (live_iff.2 ⟨n, hn⟩)
    rw [countOf_eq hn] at hpos
    have hone : n.count = 1 := by omega
    have hbare : n.slots = [] := by
      rw [← slotsOf_eq hn]
      exact enter?_eq_none.1 refused (owned.isExclusive_iff.2 (by rw [countOf_eq hn, hone]))
    refine .inr ⟨hone, hbare, fun row => ?_⟩
    rw [release_last (hget row) hmore, setSlots_free_comm hne, Node.handles, hbare,
      List.filterMap_nil, List.nil_append, release_nil]

/-- No node holds itself. -/
theorem Owned.not_mem_slotsOf_self (owned : h.Owned holders) (id : NodeId) :
    some id ∉ h.slotsOf id :=
  fun hedge => owned.acyclic id (.single hedge)

namespace Pop

/-- A pop takes off a hole, or one of several handles to a node, or the only handle to a node that
holds nothing. What it does is no more than that. -/
inductive Shallow (p : Pop α) : Prop where
  | hole (hslot : p.slot = none)
      (hresult : p.result = (p.heap.setSlots p.cursor p.rest, []))
  | shared (id : NodeId) (n : Node α) (hslot : p.slot = some id) (hn : p.heap.get? id = some n)
      (hcount : 1 < n.count)
      (hresult : p.result =
        ((p.heap.put id { n with count := n.count - 1 }).setSlots p.cursor p.rest, []))
  | bare (id : NodeId) (n : Node α) (hslot : p.slot = some id) (hn : p.heap.get? id = some n)
      (hcount : n.count = 1) (hslots : n.slots = [])
      (hresult : p.result = ((p.heap.free id).setSlots p.cursor p.rest, [n.value]))

variable {p : Pop α}

/-- The row of the cursor is what is left, and the slot that goes. -/
theorem slotsOf_cursor (hlast : (p.heap.slotsOf p.cursor).getLast? = some p.slot) :
    p.heap.slotsOf p.cursor = p.rest ++ [p.slot] := by
  obtain ⟨ys, hrow⟩ := List.getLast?_eq_some_iff.1 hlast
  rw [rest, hrow, List.dropLast_concat]

theorem live_cursor (hlast : (p.heap.slotsOf p.cursor).getLast? = some p.slot) :
    p.heap.Live p.cursor := by
  by_contra hdead
  simp [slotsOf_of_not_live hdead] at hlast

/-- What is popped although it may hold a node is refused at the entrance. -/
theorem refused (owned : p.heap.Owned holders)
    (hlast : (p.heap.slotsOf p.cursor).getLast? = some p.slot)
    (hcan : ¬ p.heap.canDescend (p.heap.slotsOf p.cursor)) {id : NodeId}
    (hslot : p.slot = some id) :
    ∃ n, p.heap.get? id = some n ∧ id ≠ p.cursor ∧ p.heap.enter? (some id) = none := by
  have hedge : p.heap.Edge p.cursor id := by
    rw [Edge, slotsOf_cursor hlast, hslot]
    simp
  obtain ⟨n, hn⟩ := live_iff.1 (owned.live_of_edge hedge)
  refine ⟨n, hn, ?_, ?_⟩
  · rintro rfl
    exact owned.not_mem_slotsOf_self p.cursor hedge
  · rw [Option.eq_none_iff_forall_ne_some]
    intro next hnext
    exact hcan (canDescend_iff.2 ⟨next, by rwa [hlast, Option.join_some, hslot]⟩)

theorem shallow (owned : p.heap.Owned holders)
    (hlast : (p.heap.slotsOf p.cursor).getLast? = some p.slot)
    (hcan : ¬ p.heap.canDescend (p.heap.slotsOf p.cursor)) : p.Shallow := by
  cases hslot : p.slot with
  | none => exact .hole hslot (by simp [result, hslot, releaseSlot])
  | some id =>
      obtain ⟨n, hn, hne, hrefused⟩ := refused owned hlast hcan hslot
      have hresult : p.result = (p.heap.setSlots p.cursor p.rest).release [id] := by
        rw [result, hslot, releaseSlot, Option.toList_some]
      rcases owned.release_refused hn hne hrefused with
        ⟨hmore, hrelease⟩ | ⟨hone, hbare, hrelease⟩
      · exact .shared id n hslot hn hmore (hresult.trans (hrelease p.rest))
      · exact .bare id n hslot hn hone hbare (hresult.trans (hrelease p.rest))

/-- A pop does not look at the row of the cursor, which may as well be in hand. -/
theorem result_any_row (owned : p.heap.Owned holders)
    (hlast : (p.heap.slotsOf p.cursor).getLast? = some p.slot)
    (hcan : ¬ p.heap.canDescend (p.heap.slotsOf p.cursor)) :
    ∃ k : Heap α, k.Live p.cursor ∧
      ∀ row, (p.heap.setSlots p.cursor row).releaseSlot p.slot =
        (k.setSlots p.cursor row, p.result.2) := by
  have hlive := live_cursor hlast
  cases hslot : p.slot with
  | none => exact ⟨p.heap, hlive, fun row => by simp [result, hslot, releaseSlot]⟩
  | some id =>
      obtain ⟨n, hn, hne, hrefused⟩ := refused owned hlast hcan hslot
      rw [result, hslot]
      simp only [releaseSlot, Option.toList_some]
      rcases owned.release_refused hn hne hrefused with
        ⟨-, hrelease⟩ | ⟨-, -, hrelease⟩
      · refine ⟨p.heap.put id { n with count := n.count - 1 }, ?_, fun row => ?_⟩
        · rwa [live_iff_content?, content?_recount hn, ← live_iff_content?]
        · rw [hrelease row, hrelease p.rest]
      · refine ⟨p.heap.free id, ?_, fun row => ?_⟩
        · rwa [live_iff_content?, content?_free_other hne.symm, ← live_iff_content?]
        · rw [hrelease row, hrelease p.rest]

theorem slotsOf_result (owned : p.heap.Owned holders)
    (hlast : (p.heap.slotsOf p.cursor).getLast? = some p.slot)
    (hcan : ¬ p.heap.canDescend (p.heap.slotsOf p.cursor)) :
    p.result.1.slotsOf p.cursor = p.rest := by
  obtain ⟨k, hk, hany⟩ := result_any_row owned hlast hcan
  rw [result, hany, slotsOf_setSlots_self _ hk]

/-- The popped handle passes from the row into the hand, where it is given up. -/
theorem owned_taken (owned : p.heap.Owned holders)
    (hlast : (p.heap.slotsOf p.cursor).getLast? = some p.slot) :
    (p.heap.setSlots p.cursor p.rest).Owned (p.slot.toList ++ holders) := by
  have hrow := slotsOf_cursor hlast
  refine owned.setSlots (live_cursor hlast) (fun x => ?_) fun b hb hnew => ?_
  · rw [hrow]
    cases p.slot with
    | none => simp
    | some id =>
        simp only [Option.toList_some, List.count_append, List.count_singleton, beq_iff_eq,
          Option.some.injEq]
        omega
  · rw [hrow] at hnew
    exact absurd (List.mem_append_left _ hb) hnew

theorem owned_result (owned : p.heap.Owned holders)
    (hlast : (p.heap.slotsOf p.cursor).getLast? = some p.slot) : p.result.1.Owned holders :=
  (owned_taken owned hlast).release

end Pop

end SlotTree.Heap
