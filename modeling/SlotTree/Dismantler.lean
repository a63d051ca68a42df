import SlotTree.Event
import SlotTree.Heap.Release

/-! # Dismantling a tree by rotation

A dismantler holds at most two nodes: the current one, and a parent one level up that waits for
its release and whose first slot was vacated by the descent. A step releases the current node when
it cannot be entered. Otherwise the parent is first settled: if its second slot is taken, the
parent is hung below the current node, with what it still holds; if not, it is released. Then the
dismantler goes down the first slot, or on to a sole second one, or closes the gaps of the current
node. The parent is judged by its second slot alone: a node beyond an empty one goes with the
parent.
-/

namespace SlotTree

universe u

/-- The state of a dismantling, with its counters. -/
structure Dismantler where
  current : Slot
  parent : Slot
  steps : Nat
  rotations : Nat

namespace Dismantler

variable {α : Type u}

/-- Takes a tree over. -/
def start (root : Slot) : Dismantler := ⟨root, none, 0, 0⟩

/-- Whether nothing is left. -/
def isDone (m : Dismantler) : Bool := m.current.isNone

/-- Follows a sole slot by a hole. -/
def padSole : List Slot → List Slot
  | [s] => [s, none]
  | slots => slots

/-- The slots that are no holes. What follows the holes at the front is handed back as it is if it
has no further hole. -/
def present : List Slot → List Slot
  | none :: rest => present rest
  | slots => if slots.all Option.isSome then slots else slots.filter Option.isSome

theorem present_eq_filter (slots : List Slot) : present slots = slots.filter Option.isSome := by
  induction slots with
  | nil => rfl
  | cons s rest ih =>
    cases s with
    | none => simpa [present] using ih
    | some id =>
      rw [present]
      split
      · next hall => exact (List.filter_eq_self.2 (List.all_eq_true.1 hall)).symm
      · rfl
      · simp

/-- Drops the holes of a row, and pads a sole slot that remains. -/
def closeGaps (slots : List Slot) : List Slot := padSole (present slots)

/-- What a step leaves: the machine, the heap and the values that died. -/
structure Outcome (α : Type u) where
  machine : Dismantler
  heap : Heap α
  values : List α

/-- Whether a waiting parent still holds a node in its second slot. -/
def isLoaded (h : Heap α) (parent : NodeId) : Bool :=
  h.isExclusive parent && (h.slotsOf parent)[1]?.join.isSome

/-- Hangs the parent below the second slot of the current node. What that slot held moves to the
vacated first slot of the parent, and what the slots after it held moves to the parent's end. The
row of the parent is in hand, and its node without slots, while it is extended. -/
def rotate (h : Heap α) (current parent : NodeId) : Heap α :=
  match padSole (h.slotsOf current) with
  | left :: right :: extra =>
    let above := (h.slotsOf parent).tail
    let h := h.setSlots current (left :: some parent :: extra.map fun _ => none)
    (h.setSlots parent []).setSlots parent (right :: above ++ extra)
  | _ => h

/-- Rotates or releases the waiting parent, before the current node is entered. -/
def settleParent (m : Dismantler) (h : Heap α) (current : NodeId) : Outcome α :=
  match m.parent with
  | none => ⟨m, h, []⟩
  | some parent =>
    if isLoaded h parent then
      ⟨{ m with parent := none, rotations := m.rotations + 1 }, rotate h current parent, []⟩
    else
      let after := h.release [parent]
      ⟨{ m with parent := none }, after.1, after.2⟩

/-- Goes on from a node that may be entered and whose parent is settled. -/
def proceed (m : Dismantler) (h : Heap α) (current : NodeId) : Outcome α :=
  match h.slotsOf current with
  | some left :: rest =>
    ⟨{ m with current := some left, parent := some current },
      h.setSlots current (none :: rest), []⟩
  | [none, right] =>
    let after := (h.setSlots current [none, none]).release [current]
    ⟨{ m with current := right }, after.1, after.2⟩
  | slots => ⟨m, h.setSlots current (closeGaps slots), []⟩

/-- A transition from a current node. -/
def advance (m : Dismantler) (h : Heap α) (current : NodeId) : Outcome α :=
  let m := { m with steps := m.steps + 1 }
  match h.enter? (some current) with
  | none =>
    let after := h.release [current]
    ⟨{ m with current := m.parent, parent := none }, after.1, after.2⟩
  | some _ =>
    let ⟨m, h, settled⟩ := settleParent m h current
    let ⟨m, h, moved⟩ := proceed m h current
    ⟨m, h, settled ++ moved⟩

/-- One transition, or `none` once nothing is left. -/
def step (m : Dismantler) (h : Heap α) : Option (Outcome α) := m.current.map (advance m h)

/-- Steps until nothing is left, at most as often as the budget says. The values that die are added
to those noted before. -/
def runOnto (noted : Array α) : Nat → Dismantler → Heap α → Outcome α
  | 0, m, h => ⟨m, h, noted.toList⟩
  | budget + 1, m, h =>
    match m.current with
    | none => ⟨m, h, noted.toList⟩
    | some current =>
      let ⟨m, h, values⟩ := advance m h current
      runOnto (noted ++ values) budget m h

/-- Steps until nothing is left, at most as often as the budget says. -/
def runFor (budget : Nat) (m : Dismantler) (h : Heap α) : Outcome α := runOnto #[] budget m h

/-- More steps than a dismantling of this heap can take: every handle is used up once, and from one
to the next the machine goes down, closes gaps or rotates at most once per node. -/
def budget (h : Heap α) : Nat := (h.handleCount + 3) * (h.cells.size + 5)

/-- Takes all remaining steps. A machine that had work to do reports its counters. -/
def run (m : Dismantler) (h : Heap α) : Dismantler × Heap α × List (Event α) :=
  if m.isDone then (m, h, [])
  else
    let o := runFor (budget h) m h
    (o.machine, o.heap, Event.ofReleased o.values ++
      [.dismantled h.policy o.machine.steps o.machine.rotations])

/-! ## One step after the other -/

section Steps

variable {m : Dismantler} {h : Heap α} {current : NodeId}

theorem runOnto_of_done (hdone : m.current = none) (noted : Array α) (budget : Nat) :
    runOnto noted budget m h = ⟨m, h, noted.toList⟩ := by
  cases budget <;> simp [runOnto, hdone]

theorem runOnto_succ (hcurrent : m.current = some current) (noted : Array α) (budget : Nat) :
    runOnto noted (budget + 1) m h = runOnto (noted ++ (advance m h current).values) budget
      (advance m h current).machine (advance m h current).heap := by
  simp [runOnto, hcurrent]

/-- What was noted before comes first, and has no part in the steps. -/
theorem runOnto_eq (noted : Array α) (budget : Nat) (m : Dismantler) (h : Heap α) :
    runOnto noted budget m h =
      { runFor budget m h with values := noted.toList ++ (runFor budget m h).values } := by
  induction budget generalizing noted m h with
  | zero => simp [runOnto, runFor]
  | succ budget ih =>
    cases hcurrent : m.current with
    | none => simp [runFor, runOnto_of_done hcurrent]
    | some current =>
      rw [runFor, runOnto_succ hcurrent, runOnto_succ hcurrent, ih, ih (#[] ++ _)]
      simp

@[simp] theorem runFor_zero (m : Dismantler) (h : Heap α) : runFor 0 m h = ⟨m, h, []⟩ := rfl

theorem runFor_of_done (hdone : m.current = none) (budget : Nat) (h : Heap α) :
    runFor budget m h = ⟨m, h, []⟩ := runOnto_of_done hdone #[] budget

theorem runFor_succ (hcurrent : m.current = some current) (budget : Nat) :
    runFor (budget + 1) m h =
      ⟨(runFor budget (advance m h current).machine (advance m h current).heap).machine,
        (runFor budget (advance m h current).machine (advance m h current).heap).heap,
        (advance m h current).values ++
          (runFor budget (advance m h current).machine (advance m h current).heap).values⟩ := by
  rw [runFor, runOnto_succ hcurrent, runOnto_eq]
  simp

end Steps

end Dismantler

/-- Dismantles the tree in a slot. -/
def Heap.dismantle {α : Type u} (h : Heap α) (s : Slot) : Heap α × List (Event α) :=
  ((Dismantler.start s).run h).2

end SlotTree
