import SlotTree.Proofs.Heap.Views

/-! # Views after an update

Each update of a heap is described by what it does to the views of the nodes.
-/

namespace SlotTree.Heap

universe u v

variable {α : Type u}

open List

private theorem filterMap_set_perm {β : Type u} (f : β → Option α) (l : List β) (i : Nat) (a b : β)
    (ha : l[i]? = some a) :
    (f a).toList ++ (l.set i b).filterMap f ~ (f b).toList ++ l.filterMap f := by
  induction l generalizing i with
  | nil => simp at ha
  | cons x l ih =>
      cases i with
      | zero =>
          obtain rfl : x = a := by simpa using ha
          simp only [List.set_cons_zero]
          cases hx : f x <;> cases hb : f b <;> simp [hx, hb, List.Perm.swap]
      | succ i =>
          have ih := ih i (by simpa using ha)
          simp only [List.set_cons_succ, List.filterMap_cons]
          cases hx : f x with
          | none => simpa [hx] using ih
          | some y =>
              apply List.perm_middle.trans
              exact (ih.cons y).trans List.perm_middle.symm

/-! ## Replacing a node -/

/-- A node put in the place of another exchanges its value. -/
theorem values_put {h : Heap α} {id : NodeId} {n : Node α} (hn : h.get? id = some n)
    (n' : Node α) : n.value :: (h.put id n').values ~ n'.value :: h.values := by
  have hcell : h.cells.toList[id]? = some (some n) := by simpa using get?_eq_some.1 hn
  have := filterMap_set_perm (fun cell : Option (Node α) => cell.map Node.value)
    h.cells.toList id (some n) (some n') hcell
  simpa [values, put, Array.toList_setIfInBounds] using this

theorem get?_put {h : Heap α} {id : NodeId} {n : Node α} (hn : h.get? id = some n)
    (n' : Node α) (other : NodeId) :
    (h.put id n').get? other = if other = id then some n' else h.get? other := by
  by_cases hother : other = id
  · subst hother
    simp [get?_put_self (lt_size_of_get? hn)]
  · simp [hother, get?_put_other hother]

/-- What does not tell the new node from the old one sees no change. -/
theorem map_get?_put {β : Type v} {h : Heap α} {id : NodeId} {n : Node α} (f : Node α → β)
    (hn : h.get? id = some n) (n' : Node α) (hf : f n' = f n) (other : NodeId) :
    ((h.put id n').get? other).map f = (h.get? other).map f := by
  by_cases hother : other = id
  · subst hother
    simp [get?_put hn, hn, hf]
  · simp [get?_put hn, hother]

section Recount

variable {h : Heap α} {id : NodeId} {n : Node α} (hn : h.get? id = some n) (count : Nat)

include hn

theorem content?_recount (other : NodeId) :
    (h.put id { n with count := count }).content? other = h.content? other :=
  map_get?_put (fun n => (n.value, n.slots)) hn { n with count := count } rfl other

theorem countOf_recount (other : NodeId) :
    (h.put id { n with count := count }).countOf other =
      if other = id then count else h.countOf other := by
  by_cases hother : other = id <;> simp [countOf, get?_put hn, hother]

theorem handlesTo_recount (other : NodeId) :
    (h.put id { n with count := count }).handlesTo other = h.handlesTo other :=
  handlesTo_congr (size_put h id _) (content?_recount hn count) other

theorem values_recount : (h.put id { n with count := count }).values ~ h.values :=
  (List.perm_cons _).1 (values_put hn { n with count := count })

end Recount

section Revalue

variable {h : Heap α} {id : NodeId} {n : Node α} (hn : h.get? id = some n) (value : α)

include hn

theorem countOf_revalue (other : NodeId) :
    (h.put id { n with value := value }).countOf other = h.countOf other :=
  congrArg (Option.getD · 0) (map_get?_put Node.count hn { n with value := value } rfl other)

theorem slotsOf_revalue (other : NodeId) :
    (h.put id { n with value := value }).slotsOf other = h.slotsOf other := by
  rw [slotsOf_eq_getD, slotsOf_eq_getD]
  exact congrArg (Option.getD · []) (map_get?_put Node.slots hn { n with value := value } rfl other)

theorem live_revalue (other : NodeId) :
    (h.put id { n with value := value }).Live other ↔ h.Live other := by
  have hsame := map_get?_put Node.slots hn { n with value := value } rfl other
  rw [Live, ← Option.isSome_map, hsame, Option.isSome_map, Live]

theorem handlesTo_revalue (other : NodeId) :
    (h.put id { n with value := value }).handlesTo other = h.handlesTo other :=
  Nat.add_right_cancel (weigh_put hn (fun n => n.slots.count (some other))
    { n with value := value })

end Revalue

theorem share?_eq_some {h k : Heap α} {id : NodeId} (hk : h.share? id = some k) :
    h.policy = .shared ∧
      ∃ n, h.get? id = some n ∧ k = h.put id { n with count := n.count + 1 } := by
  cases hpolicy : h.policy with
  | unique => simp [share?, hpolicy] at hk
  | shared =>
      cases hn : h.get? id with
      | none => simp [share?, hpolicy, hn] at hk
      | some n => exact ⟨rfl, n, rfl, by simpa [share?, hpolicy, hn, eq_comm] using hk⟩

/-! ## Freeing a node -/

section Free

variable {h : Heap α} {id : NodeId} {n : Node α} (hn : h.get? id = some n)

theorem content?_free_self (h : Heap α) (id : NodeId) : (h.free id).content? id = none := by
  simp [content?, get?_free_self]

theorem content?_free_other {h : Heap α} {id other : NodeId} (hother : other ≠ id) :
    (h.free id).content? other = h.content? other := by
  simp [content?, get?_free_other hother]

theorem countOf_free (h : Heap α) (id other : NodeId) :
    (h.free id).countOf other = if other = id then 0 else h.countOf other := by
  by_cases hother : other = id
  · subst hother
    simp [countOf, get?_free_self]
  · simp [countOf, get?_free_other hother, hother]

include hn

theorem handlesTo_free (other : NodeId) :
    (h.free id).handlesTo other + n.slots.count (some other) = h.handlesTo other :=
  weigh_free hn _

theorem values_free : n.value :: (h.free id).values ~ h.values := by
  have hcell : h.cells.toList[id]? = some (some n) := by simpa using get?_eq_some.1 hn
  have := filterMap_set_perm (fun cell : Option (Node α) => cell.map Node.value)
    h.cells.toList id (some n) none hcell
  simpa [values, free, Array.toList_setIfInBounds] using this

end Free

/-! ## Exchanging slots -/

section SetSlots

variable (h : Heap α) (id : NodeId) (slots : List Slot)

theorem get?_setSlots (other : NodeId) :
    (h.setSlots id slots).get? other =
      if other = id then (h.get? id).map fun n => { n with slots := slots }
      else h.get? other := by
  cases hn : h.get? id with
  | none =>
      by_cases hother : other = id
      · subst hother
        simp [setSlots, hn]
      · simp [setSlots, hn, hother]
  | some n => simp [setSlots, hn, get?_put hn]

@[simp] theorem policy_setSlots : (h.setSlots id slots).policy = h.policy := by
  cases hn : h.get? id <;> simp [setSlots, hn, put]

@[simp] theorem size_setSlots : (h.setSlots id slots).cells.size = h.cells.size := by
  cases hn : h.get? id <;> simp [setSlots, hn]

@[simp] theorem live_setSlots (other : NodeId) :
    (h.setSlots id slots).Live other ↔ h.Live other := by
  by_cases hother : other = id <;> simp [Live, get?_setSlots, hother]

@[simp] theorem countOf_setSlots (other : NodeId) :
    (h.setSlots id slots).countOf other = h.countOf other := by
  by_cases hother : other = id
  · subst hother
    simp [countOf, get?_setSlots, Function.comp_def]
  · simp [countOf, get?_setSlots, hother]

@[simp] theorem isExclusive_setSlots (other : NodeId) :
    (h.setSlots id slots).isExclusive other = h.isExclusive other := by
  rw [Bool.eq_iff_iff, isExclusive_iff, isExclusive_iff]
  simp

variable {h id} in
theorem content?_setSlots_other {other : NodeId} (hother : other ≠ id) :
    (h.setSlots id slots).content? other = h.content? other := by
  simp [content?, get?_setSlots, hother]

theorem content?_setSlots (other : NodeId) :
    (h.setSlots id slots).content? other =
      if other = id then (h.content? other).map fun c => (c.1, slots) else h.content? other := by
  by_cases hother : other = id
  · subst hother
    simp [content?, get?_setSlots, Function.comp_def]
  · simp [content?, get?_setSlots, hother]

variable {h id} in
theorem slotsOf_setSlots_self (hid : h.Live id) : (h.setSlots id slots).slotsOf id = slots := by
  obtain ⟨n, hn⟩ := live_iff.1 hid
  simp [slotsOf, get?_setSlots, hn]

variable {h id} in
theorem slotsOf_setSlots_other {other : NodeId} (hother : other ≠ id) :
    (h.setSlots id slots).slotsOf other = h.slotsOf other :=
  slotsOf_congr (content?_setSlots_other slots hother)

theorem slotsOf_setSlots_nil (other : NodeId) :
    (h.setSlots id []).slotsOf other = if other = id then [] else h.slotsOf other := by
  by_cases hother : other = id
  · subst hother
    cases hn : h.get? other <;> simp [slotsOf, get?_setSlots, hn]
  · simp [slotsOf_setSlots_other [] hother, hother]

/-- The last exchange counts. -/
@[simp] theorem setSlots_setSlots (later : List Slot) :
    (h.setSlots id slots).setSlots id later = h.setSlots id later := by
  refine ext_get? (by simp) (by simp) fun other => ?_
  by_cases hother : other = id <;> simp [get?_setSlots, hother, Function.comp_def]

theorem setSlots_slotsOf : h.setSlots id (h.slotsOf id) = h := by
  refine ext_get? (by simp) (by simp) fun other => ?_
  by_cases hother : other = id
  · subst hother
    cases hn : h.get? other <;> simp [get?_setSlots, slotsOf, hn]
  · simp [get?_setSlots, hother]

variable {h id} in
/-- Handles move between the row and whoever else holds them. -/
theorem handlesTo_setSlots (hid : h.Live id) (other : NodeId) :
    (h.setSlots id slots).handlesTo other + (h.slotsOf id).count (some other) =
      h.handlesTo other + slots.count (some other) := by
  obtain ⟨n, hn⟩ := live_iff.1 hid
  simpa [handlesTo, setSlots, hn, slotsOf_eq hn] using
    weigh_put hn (fun n => n.slots.count (some other)) { n with slots := slots }

theorem values_setSlots : (h.setSlots id slots).values ~ h.values := by
  cases hn : h.get? id with
  | none => simp [setSlots, hn]
  | some n =>
      simp only [setSlots, hn]
      exact (List.perm_cons _).1 (values_put hn { n with slots := slots })

end SetSlots

/-! ## Making a node -/

section Alloc

variable (h : Heap α) (value : α) (slots : List Slot)

theorem get?_alloc (other : NodeId) :
    (h.alloc value slots).1.get? other =
      if other = h.cells.size then some ⟨1, value, slots⟩ else h.get? other := by
  simp only [get?, alloc, Array.getElem?_push]
  split <;> rfl

@[simp] theorem policy_alloc : (h.alloc value slots).1.policy = h.policy := rfl

@[simp] theorem size_alloc : (h.alloc value slots).1.cells.size = h.cells.size + 1 := by
  simp [alloc]

theorem handlesTo_alloc (other : NodeId) :
    (h.alloc value slots).1.handlesTo other = h.handlesTo other + slots.count (some other) := by
  simp [handlesTo, weigh_eq_sum, alloc]

theorem values_alloc : (h.alloc value slots).1.values = h.values ++ [value] := by
  simp [values, alloc]

theorem not_live_size : ¬ h.Live h.cells.size := fun hlive => Nat.lt_irrefl _ hlive.lt_size

end Alloc

end SlotTree.Heap
