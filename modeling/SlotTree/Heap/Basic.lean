import SlotTree.Policy

/-! # Nodes in a heap

Nodes live in a heap and are named by identities. An identity is given out once: the cell of a
released node stays empty. Slots and holders refer to nodes by handles, which are identities, and
a node carries the number of handles to it.
-/

namespace SlotTree

universe u

abbrev NodeId := Nat

/-- A handle to a node, or a hole. -/
abbrev Slot := Option NodeId

/-- A live node: its handle count, its value and its slots. -/
structure Node (α : Type u) where
  count : Nat
  value : α
  slots : List Slot

/-- The handles that a node holds, left to right. -/
def Node.handles {α : Type u} (n : Node α) : List NodeId := n.slots.filterMap id

/-- The cells of all nodes ever made, in order of creation, under one ownership policy. -/
structure Heap (α : Type u) where
  policy : Policy
  cells : Array (Option (Node α))

namespace Heap

variable {α : Type u}

def empty (p : Policy) : Heap α := ⟨p, #[]⟩

/-- The live node of an identity. -/
def get? (h : Heap α) (id : NodeId) : Option (Node α) := h.cells[id]?.join

/-- Replaces the content of a cell that was given out before. -/
def put (h : Heap α) (id : NodeId) (n : Node α) : Heap α :=
  { h with cells := h.cells.setIfInBounds id (some n) }

/-- Empties a cell. -/
def free (h : Heap α) (id : NodeId) : Heap α :=
  { h with cells := h.cells.setIfInBounds id none }

/-- Makes a node with one handle, which is returned. -/
def alloc (h : Heap α) (value : α) (slots : List Slot) : Heap α × NodeId :=
  let id := h.cells.size
  ({ h with cells := h.cells.push (some ⟨1, value, slots⟩) }, id)

/-- Exchanges the slots of a live node. -/
def setSlots (h : Heap α) (id : NodeId) (slots : List Slot) : Heap α :=
  match h.get? id with
  | some n => h.put id { n with slots := slots }
  | none => h

/-- Clones a handle, which counted handles allow and unique ones do not. -/
def share? (h : Heap α) (id : NodeId) : Option (Heap α) :=
  match h.policy, h.get? id with
  | .shared, some n => some (h.put id { n with count := n.count + 1 })
  | _, _ => none

/-- Whether the holder of a handle may change the node: always under `unique`, and under `shared`
when no other handle is alive. -/
def isExclusive (h : Heap α) (id : NodeId) : Bool :=
  match h.get? id with
  | some n => h.policy == .unique || n.count == 1
  | none => false

/-- The slots of a node, none for a dead one. -/
def slotsOf (h : Heap α) (id : NodeId) : List Slot :=
  match h.get? id with
  | some n => n.slots
  | none => []

/-- The node of a handle that may be entered: it is held exclusively and has slots. -/
def enter? (h : Heap α) (s : Slot) : Option NodeId :=
  s.filter fun id => h.isExclusive id && !(h.slotsOf id).isEmpty

/-- The sum of a measure over the live nodes. -/
def weigh (f : Node α → Nat) (h : Heap α) : Nat :=
  h.cells.toList.foldr (fun cell total => (cell.map f).getD 0 + total) 0

/-- The number of handles held in slots of live nodes. -/
def handleCount (h : Heap α) : Nat := h.weigh fun n => n.handles.length

/-! ## Cells after an update -/

theorem lt_size_of_get? {h : Heap α} {id : NodeId} {n : Node α} (hn : h.get? id = some n) :
    id < h.cells.size := by
  simp only [get?, Option.join_eq_some_iff] at hn
  exact (Array.getElem?_eq_some_iff.1 hn).1

theorem get?_eq_some {h : Heap α} {id : NodeId} {n : Node α} :
    h.get? id = some n ↔ h.cells[id]? = some (some n) := by
  simp [get?, Option.join_eq_some_iff]

theorem get?_put_self {h : Heap α} {id : NodeId} (hid : id < h.cells.size) (n : Node α) :
    (h.put id n).get? id = some n := by
  simp [get?, put, hid]

theorem get?_put_other {h : Heap α} {id other : NodeId} (hne : other ≠ id) (n : Node α) :
    (h.put id n).get? other = h.get? other := by
  simp [get?, put, Array.getElem?_setIfInBounds_ne (Ne.symm hne)]

theorem get?_free_self (h : Heap α) (id : NodeId) : (h.free id).get? id = none := by
  by_cases hid : id < h.cells.size <;> simp [get?, free, hid]

theorem get?_free_other {h : Heap α} {id other : NodeId} (hne : other ≠ id) :
    (h.free id).get? other = h.get? other := by
  simp [get?, free, Array.getElem?_setIfInBounds_ne (Ne.symm hne)]

@[simp] theorem size_put (h : Heap α) (id : NodeId) (n : Node α) :
    (h.put id n).cells.size = h.cells.size := by
  simp [put]

@[simp] theorem size_free (h : Heap α) (id : NodeId) :
    (h.free id).cells.size = h.cells.size := by
  simp [free]

/-! ## Measures after an update -/

private theorem foldr_set {β : Type u} (g : β → Nat) (l : List β) (i : Nat) (a b : β)
    (ha : l[i]? = some a) :
    (l.set i b).foldr (g · + ·) 0 + g a = l.foldr (g · + ·) 0 + g b := by
  induction l generalizing i with
  | nil => simp at ha
  | cons x l ih =>
    cases i with
    | zero =>
      simp only [List.getElem?_cons_zero, Option.some.injEq] at ha
      subst ha
      simp only [List.set_cons_zero, List.foldr_cons]
      omega
    | succ i =>
      simp only [List.getElem?_cons_succ] at ha
      have := ih i ha
      simp only [List.set_cons_succ, List.foldr_cons]
      omega

/-- Replacing a node exchanges its part of the measure. -/
theorem weigh_put {h : Heap α} {id : NodeId} {n : Node α} (hn : h.get? id = some n)
    (f : Node α → Nat) (n' : Node α) : (h.put id n').weigh f + f n = h.weigh f + f n' := by
  have hcell : h.cells.toList[id]? = some (some n) := by
    simpa using get?_eq_some.1 hn
  have := foldr_set (fun cell : Option (Node α) => (cell.map f).getD 0) h.cells.toList id
    (some n) (some n') hcell
  simpa [weigh, put, Array.toList_setIfInBounds] using this

/-- Freeing a node takes its part from the measure. -/
theorem weigh_free {h : Heap α} {id : NodeId} {n : Node α} (hn : h.get? id = some n)
    (f : Node α → Nat) : (h.free id).weigh f + f n = h.weigh f := by
  have hcell : h.cells.toList[id]? = some (some n) := by
    simpa using get?_eq_some.1 hn
  have := foldr_set (fun cell : Option (Node α) => (cell.map f).getD 0) h.cells.toList id
    (some n) none hcell
  simpa [weigh, free, Array.toList_setIfInBounds] using this

end Heap

end SlotTree
