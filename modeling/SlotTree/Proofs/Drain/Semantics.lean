import SlotTree.Drain
import SlotTree.Proofs.Heap.Release

/-! # Single pops of a drain

The drain in small rules: while the last slot of the cursor's row can be descended into, the cursor
goes there; otherwise that slot is popped, with its row in place. A descent takes the node of the
last slot under the condition that it may be changed, and the rules have no way on if it may not.
-/

namespace SlotTree.Heap

universe u

variable {α : Type u}

/-- Whether the last slot of a row holds a node with slots that may be changed. -/
def canDescend (h : Heap α) (row : List Slot) : Bool :=
  match row.getLast? with
  | some (some id) => h.isExclusive id && !(h.slotsOf id).isEmpty
  | _ => false

/-- The node of the last slot of a row, if it may be changed. -/
def backNode? (h : Heap α) (row : List Slot) : Option NodeId :=
  row.getLast?.join.filter fun id => h.isExclusive id

/-- A pop: the heap before it, the node that loses its last slot, and what the slot holds. -/
structure Pop (α : Type u) where
  heap : Heap α
  cursor : NodeId
  slot : Slot

namespace Pop

/-- The row that is left. -/
def rest (p : Pop α) : List Slot := (p.heap.slotsOf p.cursor).dropLast

/-- The heap after a pop, and the values that died. -/
def result (p : Pop α) : Heap α × List α := (p.heap.setSlots p.cursor p.rest).releaseSlot p.slot

end Pop

/-- The pops of one pass from a cursor on, until the row of the cursor is empty. -/
inductive PassDerivation : Heap α → NodeId → List (Pop α) → Heap α → Prop where
  | done {h : Heap α} {cursor : NodeId} (hrow : h.slotsOf cursor = []) :
      PassDerivation h cursor [] h
  | descend {h k : Heap α} {cursor next : NodeId} {pops : List (Pop α)}
      (hcan : h.canDescend (h.slotsOf cursor))
      (hback : h.backNode? (h.slotsOf cursor) = some next) :
      PassDerivation h next pops k → PassDerivation h cursor pops k
  | pop {h k : Heap α} {cursor : NodeId} {s : Slot} {pops : List (Pop α)}
      (hlast : (h.slotsOf cursor).getLast? = some s) (hcan : ¬ h.canDescend (h.slotsOf cursor)) :
      PassDerivation (Pop.result ⟨h, cursor, s⟩).1 cursor pops k →
      PassDerivation h cursor (⟨h, cursor, s⟩ :: pops) k

/-- The passes of a drain, until the root has no slots. -/
inductive DrainDerivation (root : NodeId) : Heap α → List (List (Pop α)) → Heap α → Prop where
  | done {h : Heap α} (hrow : h.slotsOf root = []) : DrainDerivation root h [] h
  | pass {h k l : Heap α} {pops : List (Pop α)} {later : List (List (Pop α))}
      (hrow : h.slotsOf root ≠ []) : PassDerivation h root pops k →
      DrainDerivation root k later l → DrainDerivation root h (pops :: later) l

/-- The values that die in some pops. -/
def freedIn (pops : List (Pop α)) : List α := pops.flatMap fun p => p.result.2

/-- What a drain reports of its passes, with the counters so far. -/
def reportPasses (policy : Policy) : Nat → Nat → List (List (Pop α)) → List (Event α)
  | passes, pops, [] => [.cleared policy passes pops]
  | passes, pops, now :: later =>
    Event.ofReleased (freedIn now) ++ .drained (passes + 1) (pops + now.length) ::
      reportPasses policy (passes + 1) (pops + now.length) later

theorem canDescend_iff {h : Heap α} {row : List Slot} :
    h.canDescend row ↔ ∃ next, h.enter? row.getLast?.join = some next := by
  cases hlast : row.getLast? with
  | none => simp [canDescend, hlast, enter?]
  | some s =>
      cases s with
      | none => simp [canDescend, hlast, enter?]
      | some id => simp [canDescend, hlast, enter?, Option.filter_eq_some_iff]

theorem backNode?_of_enter? {h : Heap α} {row : List Slot} {next : NodeId}
    (hnext : h.enter? row.getLast?.join = some next) : h.backNode? row = some next := by
  obtain ⟨hlast, hexclusive, -⟩ := enter?_eq_some.1 hnext
  rw [backNode?, Option.filter_eq_some_iff]
  exact ⟨hlast, hexclusive⟩

theorem enter?_of_backNode? {h : Heap α} {row : List Slot} {next : NodeId}
    (hcan : h.canDescend row) (hback : h.backNode? row = some next) :
    h.enter? row.getLast?.join = some next := by
  obtain ⟨other, hother⟩ := canDescend_iff.1 hcan
  rw [hother, ← backNode?_of_enter? hother, hback]

theorem PassDerivation.deterministic {h k l : Heap α} {cursor : NodeId}
    {pops others : List (Pop α)} (hp : PassDerivation h cursor pops k)
    (ho : PassDerivation h cursor others l) : pops = others ∧ k = l := by
  induction hp generalizing others l with
  | done hrow =>
      cases ho with
      | done => exact ⟨rfl, rfl⟩
      | descend hcan => simp [canDescend, hrow] at hcan
      | pop hlast => simp [hrow] at hlast
  | descend hcan hback _ ih =>
      cases ho with
      | done hrow => simp [canDescend, hrow] at hcan
      | descend _ hback' hrest =>
          obtain rfl := Option.some.inj (hback.symm.trans hback')
          exact ih hrest
      | pop _ hcan' => exact absurd hcan hcan'
  | pop hlast hcan _ ih =>
      cases ho with
      | done hrow => simp [hrow] at hlast
      | descend hcan' => exact absurd hcan' hcan
      | pop hlast' _ hrest =>
          obtain rfl := Option.some.inj (hlast.symm.trans hlast')
          obtain ⟨rfl, rfl⟩ := ih hrest
          exact ⟨rfl, rfl⟩

theorem DrainDerivation.deterministic {root : NodeId} {h k l : Heap α}
    {passes others : List (List (Pop α))} (hp : DrainDerivation root h passes k)
    (ho : DrainDerivation root h others l) : passes = others ∧ k = l := by
  induction hp generalizing others l with
  | done hrow =>
      cases ho with
      | done => exact ⟨rfl, rfl⟩
      | pass hrow' => exact absurd hrow hrow'
  | pass hrow hpass _ ih =>
      cases ho with
      | done hrow' => exact absurd hrow' hrow
      | pass _ hpass' hrest =>
          obtain ⟨rfl, rfl⟩ := hpass.deterministic hpass'
          obtain ⟨rfl, rfl⟩ := ih hrest
          exact ⟨rfl, rfl⟩

end SlotTree.Heap
