import SlotTree.Event
import SlotTree.Heap.Release

/-! # Draining a node

A drain takes all slots off a node without releasing a tree in one go. Each pass walks down the
chain of last slots as far as exclusively held nodes with slots reach. There it takes off slots from
the last one on, until one is met that can be entered, where it goes further down, or until the node
has no slots left; then the next pass starts at the root, and walks the upper levels again. So a
slot that is taken off never holds the last handle to a node that has slots itself.
-/

namespace SlotTree.Heap

universe u

variable {α : Type u}

/-- What is left after slots were taken off a row: the heap, the values that died, the number of
slots taken off, and the node that stopped it, with the slots before it, nearest first. -/
structure Shed (α : Type u) where
  heap : Heap α
  values : List α
  pops : Nat
  stop : Option (NodeId × List Slot)

/-- The slots that go back: the one that can be entered, with those before it. -/
def Shed.left (s : Shed α) : List Slot :=
  match s.stop with
  | none => []
  | some (next, rest) => (some next :: rest).reverse

/-- Takes off slots, given last first, and gives up what they hold, until one can be entered. The
values that die and the slots taken off are added to those before. -/
def shedOnto (noted : Array α) (pops : Nat) (h : Heap α) : List Slot → Shed α
  | [] => ⟨h, noted.toList, pops, none⟩
  | s :: rest =>
    match h.enter? s with
    | some next => ⟨h, noted.toList, pops, some (next, rest)⟩
    | none =>
      let (h, values) := h.releaseSlot s
      shedOnto (noted ++ values) (pops + 1) h rest

/-- Takes off slots, given last first, and gives up what they hold, until one can be entered. -/
def shed (h : Heap α) (slots : List Slot) : Shed α := h.shedOnto #[] 0 slots

/-- What a pass leaves: the heap, the values that died and the number of slots taken off. -/
structure Pass (α : Type u) where
  heap : Heap α
  values : List α
  pops : Nat

/-- A pass from a node down, at most as deep as the bound says, until a node has no slots left.
While slots are taken off a node, its row is in hand; a slot that can be entered goes back with
those before it. The values that die and the slots taken off are added to those before. -/
def passOnto (noted : Array α) (pops : Nat) : Nat → Heap α → NodeId → Pass α
  | 0, h, _ => ⟨h, noted.toList, pops⟩
  | depth + 1, h, cursor =>
    let row := h.slotsOf cursor
    match h.enter? row.getLast?.join with
    | some next => passOnto noted pops depth h next
    | none =>
      let s := (h.setSlots cursor []).shed row.reverse
      match s.stop with
      | none => ⟨s.heap, (noted ++ s.values).toList, pops + s.pops⟩
      | some (next, _) =>
        passOnto (noted ++ s.values) (pops + s.pops) depth (s.heap.setSlots cursor s.left) next

/-- A pass from a node down, at most as deep as the bound says. -/
def drainPass (depth : Nat) (h : Heap α) (cursor : NodeId) : Pass α :=
  passOnto #[] 0 depth h cursor

/-- Passes until the root has no slots, with the counters so far. The reports are added to those
before. -/
def drainOnto (noted : Array (Event α)) :
    Nat → Heap α → NodeId → Nat → Nat → Heap α × List (Event α)
  | 0, h, _, passes, pops => (h, (noted.push (.cleared h.policy passes pops)).toList)
  | budget + 1, h, root, passes, pops =>
    if (h.slotsOf root).isEmpty then (h, (noted.push (.cleared h.policy passes pops)).toList)
    else
      let now := drainPass h.cells.size h root
      let pops := pops + now.pops
      let noted := noted ++ Event.ofReleased now.values
      drainOnto (noted.push (.drained (passes + 1) pops)) budget now.heap root (passes + 1) pops

/-- Passes until the root has no slots, with the counters so far. -/
def drainFrom (budget : Nat) (h : Heap α) (root : NodeId) (passes pops : Nat) :
    Heap α × List (Event α) := drainOnto #[] budget h root passes pops

/-- Takes all slots off a node, pass by pass. Each pass leaves one node more without slots and no
path is longer than the number of cells, so neither bound is ever reached. -/
def drain (h : Heap α) (root : NodeId) : Heap α × List (Event α) :=
  drainFrom h.cells.size h root 0 0

/-! ## One slot after the other -/

section Shed

variable {h : Heap α} {s : Slot} {next : NodeId}

theorem shedOnto_enter (hnext : h.enter? s = some next) (noted : Array α) (pops : Nat)
    (rest : List Slot) :
    h.shedOnto noted pops (s :: rest) = ⟨h, noted.toList, pops, some (next, rest)⟩ := by
  rw [shedOnto, hnext]

theorem shedOnto_refused (hnext : h.enter? s = none) (noted : Array α) (pops : Nat)
    (rest : List Slot) :
    h.shedOnto noted pops (s :: rest) =
      (h.releaseSlot s).1.shedOnto (noted ++ (h.releaseSlot s).2) (pops + 1) rest := by
  rw [shedOnto, hnext]

/-- What was noted before comes first, and has no part in what follows. -/
theorem shedOnto_eq (noted : Array α) (pops : Nat) (h : Heap α) (slots : List Slot) :
    h.shedOnto noted pops slots =
      { h.shed slots with
        values := noted.toList ++ (h.shed slots).values
        pops := pops + (h.shed slots).pops } := by
  induction slots generalizing noted pops h with
  | nil => simp [shedOnto, shed]
  | cons s rest ih =>
    cases hnext : h.enter? s with
    | some next => simp [shed, shedOnto_enter hnext]
    | none =>
      rw [shed, shedOnto_refused hnext, shedOnto_refused hnext, ih, ih (#[] ++ _)]
      simp [Nat.add_assoc]

@[simp] theorem shed_nil (h : Heap α) : h.shed [] = ⟨h, [], 0, none⟩ := rfl

theorem shed_enter (hnext : h.enter? s = some next) (rest : List Slot) :
    h.shed (s :: rest) = ⟨h, [], 0, some (next, rest)⟩ := shedOnto_enter hnext #[] 0 rest

theorem shed_refused (hnext : h.enter? s = none) (rest : List Slot) :
    h.shed (s :: rest) =
      { (h.releaseSlot s).1.shed rest with
        values := (h.releaseSlot s).2 ++ ((h.releaseSlot s).1.shed rest).values
        pops := ((h.releaseSlot s).1.shed rest).pops + 1 } := by
  rw [shed, shedOnto_refused hnext, shedOnto_eq]
  simp [Nat.add_comm]

end Shed

/-! ## One node after the other -/

section Pass

variable {h : Heap α} {cursor next : NodeId} {rest : List Slot}

theorem passOnto_enter (hnext : h.enter? (h.slotsOf cursor).getLast?.join = some next)
    (noted : Array α) (pops depth : Nat) :
    passOnto noted pops (depth + 1) h cursor = passOnto noted pops depth h next := by
  rw [passOnto, hnext]

theorem passOnto_done (hnext : h.enter? (h.slotsOf cursor).getLast?.join = none) {s : Shed α}
    (hs : (h.setSlots cursor []).shed (h.slotsOf cursor).reverse = s) (hstop : s.stop = none)
    (noted : Array α) (pops depth : Nat) :
    passOnto noted pops (depth + 1) h cursor =
      ⟨s.heap, (noted ++ s.values).toList, pops + s.pops⟩ := by
  rw [passOnto, hnext]
  simp only [hs, hstop]

theorem passOnto_stop (hnext : h.enter? (h.slotsOf cursor).getLast?.join = none) {s : Shed α}
    (hs : (h.setSlots cursor []).shed (h.slotsOf cursor).reverse = s)
    (hstop : s.stop = some (next, rest)) (noted : Array α) (pops depth : Nat) :
    passOnto noted pops (depth + 1) h cursor =
      passOnto (noted ++ s.values) (pops + s.pops) depth (s.heap.setSlots cursor s.left) next := by
  rw [passOnto, hnext]
  simp only [hs, hstop]

/-- What was noted before comes first, and has no part in the pass. -/
theorem passOnto_eq (noted : Array α) (pops depth : Nat) (h : Heap α) (cursor : NodeId) :
    passOnto noted pops depth h cursor =
      { drainPass depth h cursor with
        values := noted.toList ++ (drainPass depth h cursor).values
        pops := pops + (drainPass depth h cursor).pops } := by
  induction depth generalizing noted pops h cursor with
  | zero => simp [passOnto, drainPass]
  | succ depth ih =>
    cases hnext : h.enter? (h.slotsOf cursor).getLast?.join with
    | some next => rw [drainPass, passOnto_enter hnext, passOnto_enter hnext, ih, drainPass]
    | none =>
      generalize hs : (h.setSlots cursor []).shed (h.slotsOf cursor).reverse = s
      cases hstop : s.stop with
      | none => simp [drainPass, passOnto_done hnext hs hstop]
      | some stop =>
        rw [drainPass, passOnto_stop hnext hs hstop, passOnto_stop hnext hs hstop, ih,
          ih (#[] ++ _)]
        simp [Nat.add_assoc]

theorem drainPass_enter (hnext : h.enter? (h.slotsOf cursor).getLast?.join = some next)
    (depth : Nat) : drainPass (depth + 1) h cursor = drainPass depth h next :=
  passOnto_enter hnext #[] 0 depth

theorem drainPass_done (hnext : h.enter? (h.slotsOf cursor).getLast?.join = none) {s : Shed α}
    (hs : (h.setSlots cursor []).shed (h.slotsOf cursor).reverse = s) (hstop : s.stop = none)
    (depth : Nat) : drainPass (depth + 1) h cursor = ⟨s.heap, s.values, s.pops⟩ := by
  rw [drainPass, passOnto_done hnext hs hstop]
  simp

theorem drainPass_stop (hnext : h.enter? (h.slotsOf cursor).getLast?.join = none) {s : Shed α}
    (hs : (h.setSlots cursor []).shed (h.slotsOf cursor).reverse = s)
    (hstop : s.stop = some (next, rest)) (depth : Nat) :
    drainPass (depth + 1) h cursor =
      let after := drainPass depth (s.heap.setSlots cursor s.left) next
      ⟨after.heap, s.values ++ after.values, s.pops + after.pops⟩ := by
  rw [drainPass, passOnto_stop hnext hs hstop, passOnto_eq]
  simp

end Pass

/-! ## One pass after the other -/

section Drain

variable {h : Heap α} {root : NodeId}

theorem drainOnto_of_empty (hrow : h.slotsOf root = []) (noted : Array (Event α))
    (budget passes pops : Nat) :
    drainOnto noted budget h root passes pops =
      (h, (noted.push (.cleared h.policy passes pops)).toList) := by
  cases budget <;> simp [drainOnto, hrow]

theorem drainOnto_succ (hrow : h.slotsOf root ≠ []) (noted : Array (Event α))
    (budget passes pops : Nat) :
    drainOnto noted (budget + 1) h root passes pops =
      let now := drainPass h.cells.size h root
      drainOnto
        ((noted ++ Event.ofReleased now.values).push (.drained (passes + 1) (pops + now.pops)))
        budget now.heap root (passes + 1) (pops + now.pops) := by
  rw [drainOnto, if_neg (by simpa using hrow)]

/-- What was reported before comes first, and has no part in the drain. -/
theorem drainOnto_eq (noted : Array (Event α)) (budget : Nat) (h : Heap α) (root : NodeId)
    (passes pops : Nat) :
    drainOnto noted budget h root passes pops =
      ((drainFrom budget h root passes pops).1,
        noted.toList ++ (drainFrom budget h root passes pops).2) := by
  induction budget generalizing noted h passes pops with
  | zero => simp [drainOnto, drainFrom]
  | succ budget ih =>
    by_cases hrow : h.slotsOf root = []
    · simp [drainFrom, drainOnto_of_empty hrow]
    · rw [drainFrom, drainOnto_succ hrow, drainOnto_succ hrow, ih, ih (Array.push _ _)]
      simp

theorem drainFrom_of_empty (hrow : h.slotsOf root = []) (budget passes pops : Nat) :
    drainFrom budget h root passes pops = (h, [.cleared h.policy passes pops]) :=
  drainOnto_of_empty hrow #[] budget passes pops

theorem drainFrom_succ (hrow : h.slotsOf root ≠ []) (budget passes pops : Nat) :
    drainFrom (budget + 1) h root passes pops =
      let now := drainPass h.cells.size h root
      let after := drainFrom budget now.heap root (passes + 1) (pops + now.pops)
      (after.1,
        Event.ofReleased now.values ++ .drained (passes + 1) (pops + now.pops) :: after.2) := by
  rw [drainFrom, drainOnto_succ hrow, drainOnto_eq]
  simp

end Drain

end SlotTree.Heap
