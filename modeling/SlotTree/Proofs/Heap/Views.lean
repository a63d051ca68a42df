import SlotTree.Heap.Edit
import Mathlib.Algebra.BigOperators.Group.List.Basic
import Mathlib.Algebra.GroupWithZero.Nat
import Mathlib.Data.List.Perm.Basic

/-! # Views of the nodes of a heap

A node is looked at through three views: its content, that is its value and slots, its handle
count, and the number of handles to it in slots. Two heaps of one policy and size that agree in
contents and counts are equal.
-/

namespace SlotTree

universe u

variable {α : Type u}

theorem Node.count_handles (n : Node α) (id : NodeId) :
    n.handles.count id = n.slots.count (some id) := by
  obtain ⟨count, value, slots⟩ := n
  simp only [Node.handles]
  induction slots with
  | nil => rfl
  | cons s slots ih =>
      cases s with
      | none => simpa using ih
      | some other => simpa [List.count_cons] using ih

namespace Heap

/-! ## Views of a node -/

/-- The value and the slots of a live node. -/
def content? (h : Heap α) (id : NodeId) : Option (α × List Slot) :=
  (h.get? id).map fun n => (n.value, n.slots)

/-- The handle count of a node, 0 for a dead one. -/
def countOf (h : Heap α) (id : NodeId) : Nat := ((h.get? id).map Node.count).getD 0

/-- The number of handles to a node in the slots of live nodes. -/
def handlesTo (h : Heap α) (id : NodeId) : Nat := h.weigh fun n => n.slots.count (some id)

/-- Whether a node is alive. -/
def Live (h : Heap α) (id : NodeId) : Prop := (h.get? id).isSome

/-- The values of the live nodes, in order of creation. -/
def values (h : Heap α) : List α := h.cells.toList.filterMap fun cell => cell.map Node.value

instance (h : Heap α) (id : NodeId) : Decidable (h.Live id) := inferInstanceAs (Decidable (_ = _))

theorem live_iff {h : Heap α} {id : NodeId} : h.Live id ↔ ∃ n, h.get? id = some n :=
  Option.isSome_iff_exists

theorem Live.lt_size {h : Heap α} {id : NodeId} (hid : h.Live id) : id < h.cells.size := by
  obtain ⟨n, hn⟩ := live_iff.1 hid
  exact lt_size_of_get? hn

theorem live_iff_content? {h : Heap α} {id : NodeId} : h.Live id ↔ (h.content? id).isSome := by
  simp [Live, content?]

theorem slotsOf_eq {h : Heap α} {id : NodeId} {n : Node α} (hn : h.get? id = some n) :
    h.slotsOf id = n.slots := by
  simp [slotsOf, hn]

theorem countOf_eq {h : Heap α} {id : NodeId} {n : Node α} (hn : h.get? id = some n) :
    h.countOf id = n.count := by
  simp [countOf, hn]

theorem countOf_of_not_live {h : Heap α} {id : NodeId} (hid : ¬ h.Live id) : h.countOf id = 0 := by
  have hnone : h.get? id = none := by simpa [Live] using hid
  simp [countOf, hnone]

theorem slotsOf_of_not_live {h : Heap α} {id : NodeId} (hid : ¬ h.Live id) :
    h.slotsOf id = [] := by
  have hnone : h.get? id = none := by simpa [Live] using hid
  simp [slotsOf, hnone]

theorem slotsOf_eq_getD (h : Heap α) (id : NodeId) :
    h.slotsOf id = ((h.get? id).map Node.slots).getD [] := by
  cases hn : h.get? id <;> simp [slotsOf, hn]

theorem slotsOf_eq_content? (h : Heap α) (id : NodeId) :
    h.slotsOf id = ((h.content? id).map Prod.snd).getD [] := by
  rw [slotsOf_eq_getD, content?, Option.map_map]
  rfl

/-- Two heaps of one content have the same slots. -/
theorem slotsOf_congr {h k : Heap α} {id : NodeId} (hid : k.content? id = h.content? id) :
    k.slotsOf id = h.slotsOf id := by
  rw [slotsOf_eq_content?, slotsOf_eq_content?, hid]

theorem isExclusive_iff {h : Heap α} {id : NodeId} :
    h.isExclusive id ↔ h.Live id ∧ (h.policy = .unique ∨ h.countOf id = 1) := by
  cases hn : h.get? id <;> simp [isExclusive, Live, countOf, hn]

theorem enter?_eq_some {h : Heap α} {s : Slot} {id : NodeId} :
    h.enter? s = some id ↔ s = some id ∧ h.isExclusive id ∧ h.slotsOf id ≠ [] := by
  cases s with
  | none => simp [enter?]
  | some other =>
      simp only [enter?, Option.filter_eq_some_iff, Option.some.injEq]
      constructor
      · rintro ⟨rfl, hall⟩
        simpa using hall
      · rintro ⟨rfl, hall⟩
        exact ⟨rfl, by simpa using hall⟩

theorem enter?_eq_none {h : Heap α} {id : NodeId} :
    h.enter? (some id) = none ↔ (h.isExclusive id → h.slotsOf id = []) := by
  simp [enter?]

/-- A handle is refused, or the node entered is its own. -/
theorem enter?_cases (h : Heap α) (id : NodeId) :
    h.enter? (some id) = none ∨ h.enter? (some id) = some id := by
  cases hentered : h.enter? (some id) with
  | none => exact .inl rfl
  | some other =>
      obtain rfl : id = other := Option.some.inj (enter?_eq_some.1 hentered).1
      exact .inr rfl

/-! ## Equal heaps -/

theorem ext_get? {h k : Heap α} (hpolicy : k.policy = h.policy)
    (hsize : k.cells.size = h.cells.size) (hget : ∀ id, k.get? id = h.get? id) : k = h := by
  obtain ⟨p, cells⟩ := h
  obtain ⟨q, others⟩ := k
  obtain rfl : q = p := hpolicy
  congr 1
  apply Array.ext hsize
  intro i hi hi'
  simpa [get?, hi, hi'] using hget i

theorem ext_content {h k : Heap α} (hpolicy : k.policy = h.policy)
    (hsize : k.cells.size = h.cells.size) (hcontent : ∀ id, k.content? id = h.content? id)
    (hcount : ∀ id, k.countOf id = h.countOf id) : k = h := by
  refine ext_get? hpolicy hsize fun id => ?_
  have hc := hcontent id
  have hn := hcount id
  cases hk : k.get? id with
  | none => cases hh : h.get? id <;> simp_all [content?]
  | some m =>
      cases hh : h.get? id with
      | none => simp_all [content?]
      | some n =>
          obtain ⟨_, _, _⟩ := m
          obtain ⟨_, _, _⟩ := n
          simp_all [content?, countOf]

/-! ## Measures -/

theorem weigh_eq_sum (f : Node α → Nat) (h : Heap α) :
    h.weigh f = (h.cells.toList.map fun cell => (cell.map f).getD 0).sum := by
  rw [weigh, List.sum_eq_foldr, List.foldr_map]

theorem weigh_congr {h k : Heap α} {f : Node α → Nat} (hsize : k.cells.size = h.cells.size)
    (hget : ∀ id, (k.get? id).map f = (h.get? id).map f) : k.weigh f = h.weigh f := by
  have hmap : k.cells.toList.map (fun cell => (cell.map f).getD 0) =
      h.cells.toList.map (fun cell => (cell.map f).getD 0) := by
    apply List.ext_getElem (by simpa using hsize)
    intro i hi hi'
    have hi : i < k.cells.size := by simpa using hi
    have hi' : i < h.cells.size := by simpa using hi'
    have := hget i
    simp only [get?, hi, hi', getElem?_pos, Option.join_some] at this
    simp [this]
  simp only [weigh_eq_sum, hmap]

theorem le_weigh {h : Heap α} {id : NodeId} {n : Node α} (hn : h.get? id = some n)
    (f : Node α → Nat) : f n ≤ h.weigh f := by
  have := weigh_free hn f
  omega

/-- Two nodes have their parts in a measure side by side. -/
theorem add_le_weigh {h : Heap α} {a b : NodeId} {m n : Node α} (hne : a ≠ b)
    (hm : h.get? a = some m) (hn : h.get? b = some n) (f : Node α → Nat) :
    f m + f n ≤ h.weigh f := by
  have hfree := weigh_free hm f
  have hrest : (h.free a).get? b = some n := (get?_free_other hne.symm).trans hn
  have := le_weigh hrest f
  omega

theorem exists_of_weigh_pos {h : Heap α} {f : Node α → Nat} (hpos : 0 < h.weigh f) :
    ∃ id n, h.get? id = some n ∧ 0 < f n := by
  by_contra hnone
  push Not at hnone
  have hzero : h.weigh f = 0 := by
    rw [weigh_eq_sum]
    apply List.sum_eq_zero
    intro x hx
    obtain ⟨cell, hcell, rfl⟩ := List.mem_map.1 hx
    cases cell with
    | none => rfl
    | some n =>
        obtain ⟨i, hi, hget⟩ := List.getElem_of_mem hcell
        have hn : h.get? i = some n := by
          have hi : i < h.cells.size := by simpa using hi
          have hget : h.cells[i] = some n := by simpa using hget
          simp [get?, hi, hget]
        simpa using hnone i n hn
  omega

theorem count_le_handlesTo (h : Heap α) (a b : NodeId) :
    (h.slotsOf a).count (some b) ≤ h.handlesTo b := by
  cases hn : h.get? a with
  | none => simp [slotsOf, hn]
  | some n =>
      rw [slotsOf_eq hn]
      exact le_weigh hn fun n => n.slots.count (some b)

/-- The handles to a node depend on the contents only. -/
theorem handlesTo_congr {h k : Heap α} (hsize : k.cells.size = h.cells.size)
    (hcontent : ∀ id, k.content? id = h.content? id) (id : NodeId) :
    k.handlesTo id = h.handlesTo id := by
  apply weigh_congr hsize
  intro other
  have := congrArg (Option.map fun c : α × List Slot => c.2.count (some id)) (hcontent other)
  simpa [content?, Function.comp_def] using this

end Heap

end SlotTree
