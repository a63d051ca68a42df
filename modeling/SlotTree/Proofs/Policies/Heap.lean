import SlotTree.Heap.Access
import SlotTree.Heap.View
import SlotTree.Proofs.Heap.Release

/-! # Heaps under another policy

A policy decides who may change a node, and whether handles may be cloned. Where every node has a
single handle, its holder may change it under any policy. As long as no handle is cloned this stays
so, and what is done with a heap comes out the same under another policy.
-/

namespace SlotTree.Heap

universe u

variable {α : Type u}

/-- The same nodes under another policy. -/
def under (q : Policy) (h : Heap α) : Heap α := { h with policy := q }

/-- No node has more than one handle. -/
def Single (h : Heap α) : Prop := ∀ id, h.Live id → h.countOf id = 1

theorem single_empty (p : Policy) : (empty p : Heap α).Single := by
  intro id hid
  simp [Live, get?, empty] at hid

namespace Single

variable {h : Heap α} {id : NodeId} (single : h.Single)

include single

theorem count_eq {n : Node α} (hn : h.get? id = some n) : n.count = 1 := by
  rw [← countOf_eq hn]
  exact single id (live_iff.2 ⟨n, hn⟩)

theorem setSlots (id : NodeId) (slots : List Slot) : (h.setSlots id slots).Single := by
  intro other hother
  rw [countOf_setSlots]
  exact single other ((live_setSlots h id slots other).1 hother)

theorem free (id : NodeId) : (h.free id).Single := by
  intro other hother
  by_cases hsame : other = id
  · simp [Live, hsame, get?_free_self] at hother
  · rw [Live, get?_free_other hsame] at hother
    rw [countOf_free, if_neg hsame]
    exact single other hother

theorem alloc (value : α) (slots : List Slot) : (h.alloc value slots).1.Single := by
  intro other hother
  by_cases hnew : other = h.cells.size
  · simp [countOf, get?_alloc, hnew]
  · rw [Live, get?_alloc, if_neg hnew] at hother
    rw [countOf, get?_alloc, if_neg hnew]
    exact single other hother

theorem setValue (id : NodeId) (value : α) : (h.setValue id value).1.Single := by
  unfold Heap.setValue
  split
  · next n hn =>
      intro other hother
      rw [countOf_revalue hn]
      exact single other ((live_revalue hn value other).1 hother)
  · exact single

theorem popBack {s : Slot} {k : Heap α} (hpop : h.popBack id = some (s, k)) : k.Single := by
  obtain ⟨last, -, hpair⟩ := Option.map_eq_some_iff.1 hpop
  obtain ⟨-, rfl⟩ := Prod.mk.inj hpair
  exact single.setSlots id _

theorem release (work : List NodeId) : (h.release work).1.Single := by
  induction h, work using release_induct with
  | nil h => rwa [release_nil]
  | dead h id rest hn ih =>
      rw [release_dead hn]
      exact ih single
  | lower h id rest n hn hmore ih =>
      have hone := single.count_eq hn
      omega
  | last h id rest n hn hlast ih =>
      rw [release_last hn hlast]
      exact ih (single.free id)

theorem unwrap {value : α} {k : Heap α} {values : List α}
    (hunwrap : h.unwrap id = some (value, k, values)) : k.Single := by
  obtain ⟨n, -, hn⟩ := Option.map_eq_some_iff.1 hunwrap
  obtain rfl : _ = k := congrArg (fun u => u.2.1) hn
  exact (single.free id).release n.handles

end Single

section Under

variable (q : Policy) (h : Heap α)

/-! ## Reading -/

@[simp] theorem get?_under (id : NodeId) : (h.under q).get? id = h.get? id := rfl

@[simp] theorem slotsOf_under (id : NodeId) : (h.under q).slotsOf id = h.slotsOf id := rfl

@[simp] theorem unfold_under (depth : Nat) : (h.under q).unfold depth = h.unfold depth := by
  induction depth with
  | zero => rfl
  | succ depth ih =>
      funext id seen
      simp only [unfold, ih, get?_under]

@[simp] theorem view_under (id : NodeId) : (h.under q).view id = h.view id := by
  rw [view, unfold_under]
  rfl

@[simp] theorem viewSlot_under (s : Slot) : (h.under q).viewSlot s = h.viewSlot s := by
  simp only [viewSlot, Option.bind]
  cases s with
  | none => rfl
  | some id => exact view_under q h id

variable {h} in
/-- Who may change a node does not depend on the policy. -/
theorem Single.isExclusive_under (single : h.Single) (id : NodeId) :
    (h.under q).isExclusive id = h.isExclusive id := by
  unfold isExclusive
  rw [get?_under]
  cases hn : h.get? id with
  | none => rfl
  | some n => simp [single.count_eq hn]

variable {h} in
theorem Single.enter?_under (single : h.Single) (s : Slot) :
    (h.under q).enter? s = h.enter? s := by
  simp only [enter?, single.isExclusive_under, slotsOf_under]

variable {h} in
theorem Single.descendOwned_under (single : h.Single) (id : NodeId) (path : List Nat) :
    (h.under q).descendOwned id path = h.descendOwned id path := by
  have hchild : (h.under q).ownChildAt = h.ownChildAt := by
    funext id index
    unfold ownChildAt
    rw [show (h.under q).childAt id index = h.childAt id index from rfl]
    split
    · rw [single.isExclusive_under]
    · rfl
  rw [descendOwned, descendOwned, hchild]

/-! ## Updates -/

@[simp] theorem put_under (id : NodeId) (n : Node α) :
    (h.under q).put id n = (h.put id n).under q := rfl

@[simp] theorem free_under (id : NodeId) : (h.under q).free id = (h.free id).under q := rfl

@[simp] theorem setSlots_under (id : NodeId) (slots : List Slot) :
    (h.under q).setSlots id slots = (h.setSlots id slots).under q := by
  unfold setSlots
  rw [get?_under]
  split <;> rfl

@[simp] theorem release_under (work : List NodeId) :
    (h.under q).release work = ((h.release work).1.under q, (h.release work).2) := by
  induction h, work using release_induct with
  | nil h => rw [release_nil, release_nil]
  | dead h id rest hn ih => rw [release_dead hn, release_dead (h := h.under q) hn, ih]
  | lower h id rest n hn hmore ih =>
      rw [release_lower hn hmore, release_lower (h := h.under q) hn hmore, put_under, ih]
  | last h id rest n hn hlast ih =>
      rw [release_last hn hlast, release_last (h := h.under q) hn hlast, free_under, ih]

/-! ## Edits -/

theorem setValue_under (id : NodeId) (value : α) :
    (h.under q).setValue id value =
      ((h.setValue id value).1.under q, (h.setValue id value).2) := by
  unfold setValue
  rw [get?_under]
  split <;> rfl

theorem popBack_under (id : NodeId) :
    (h.under q).popBack id = (h.popBack id).map (Prod.map (fun s => s) (under q)) := by
  simp only [popBack, slotsOf_under, setSlots_under, Option.map_map]
  rfl

theorem unwrap_under (id : NodeId) :
    (h.under q).unwrap id = (h.unwrap id).map fun u => (u.1, u.2.1.under q, u.2.2) := by
  unfold unwrap
  rw [get?_under]
  cases h.get? id with
  | none => rfl
  | some n => simp

end Under

mutual

theorem plant_under {α : Type u} (q : Policy) (h : Heap α) (t : Tree α) :
    (h.under q).plant t = ((h.plant t).1.under q, (h.plant t).2) := by
  cases t with
  | node v row =>
      unfold plant
      rw [plantRow_under q h row]
      rfl

theorem plantRow_under {α : Type u} (q : Policy) (h : Heap α) (row : Row α) :
    (h.under q).plantRow row = ((h.plantRow row).1.under q, (h.plantRow row).2) := by
  match row with
  | [] => rfl
  | none :: rest =>
      unfold plantRow
      rw [plantRow_under q h rest]
  | some t :: rest =>
      unfold plantRow
      rw [plant_under q h t]
      simp only [plantRow_under q (h.plant t).1 rest]

end

mutual

theorem Single.plant {α : Type u} {h : Heap α} (single : h.Single) (t : Tree α) :
    (h.plant t).1.Single := by
  cases t with
  | node v row => exact (Single.plantRow single row).alloc v _

theorem Single.plantRow {α : Type u} {h : Heap α} (single : h.Single) (row : Row α) :
    (h.plantRow row).1.Single := by
  match row with
  | [] => exact single
  | none :: rest => exact Single.plantRow single rest
  | some t :: rest => exact Single.plantRow (Single.plant single t) rest

end

end SlotTree.Heap
