import SlotTree.Proofs.Dismantler.Course

/-! # Checked steps

A step relies on the state it finds: it asserts that the first slot of a waiting parent is a hole,
needs the sole right to change the parent, uses slots at fixed indices, and fills places that must
be empty, as what they hold would be given up. The checked step looks after each of these where it
matters, and stops at the first that fails. On the course of a machine none of them fails, and the
checked step is the step itself.
-/

namespace SlotTree

universe u

variable {α : Type u}

open List

namespace Dismantler

open Heap

/-- What a step may fail to find. -/
inductive Fault where
  /-- The first slot of the parent is there and is a hole. -/
  | notVacated
  /-- The parent may be changed. -/
  | sharedParent
  | outOfRange (index count : Nat)
  /-- A place that is filled was empty. -/
  | occupied (id : NodeId)
  deriving DecidableEq

/-! ## Rows -/

/-- The slot at an index. -/
def readSlot (row : List Slot) (index : Nat) : Except Fault Slot :=
  match row[index]? with
  | some s => .ok s
  | none => .error (.outOfRange index row.length)

/-- Takes what a slot holds, which is a hole afterwards. -/
def takeSlot (row : List Slot) (index : Nat) : Except Fault (Slot × List Slot) := do
  let s ← readSlot row index
  return (s, row.set index none)

/-- Takes what the slots from an index on hold, which are holes afterwards. -/
def takeSlotsFrom (row : List Slot) (index : Nat) : Except Fault (List Slot × List Slot) :=
  if index ≤ row.length then
    .ok (row.drop index, row.take index ++ (row.drop index).map fun _ => none)
  else .error (.outOfRange index row.length)

/-- Asks that a place is empty. -/
def needEmpty : Slot → Except Fault Unit
  | none => .ok ()
  | some id => .error (.occupied id)

/-- Fills the slot at an index. -/
def fillSlot (row : List Slot) (index : Nat) (s : Slot) : Except Fault (List Slot) := do
  let old ← readSlot row index
  needEmpty old
  return row.set index s

/-- The rows of the current node and its parent after a rotation, slot by slot. -/
def rotateRows (row above : List Slot) (parent : NodeId) :
    Except Fault (List Slot × List Slot) := do
  let (extra, row) ← if 2 < row.length then takeSlotsFrom row 2 else .ok ([], row)
  let (right, row) ← takeSlot (padSole row) 1
  let above ← fillSlot (above ++ extra) 0 right
  let row ← fillSlot row 1 (some parent)
  return (row, above)

/-- Where the first slot of the parent is vacated, a rotation finds all slots that it uses, and
fills holes only. -/
theorem rotateRows_eq {row rest extra : List Slot} {left right : Slot} (parent : NodeId)
    (hrow : padSole row = left :: right :: extra) :
    rotateRows row (none :: rest) parent =
      .ok (left :: some parent :: extra.map fun _ => none, right :: rest ++ extra) := by
  match row with
  | [] => nomatch hrow
  | [single] =>
      obtain ⟨rfl, rfl, rfl⟩ : single = left ∧ none = right ∧ [] = extra := by
        simpa [padSole] using hrow
      rw [rotateRows, if_neg (by simp)]
      rfl
  | [first, second] =>
      obtain ⟨rfl, rfl, rfl⟩ : first = left ∧ second = right ∧ [] = extra := by
        simpa [padSole] using hrow
      rw [rotateRows, if_neg (by simp)]
      rfl
  | first :: second :: third :: others =>
      obtain ⟨rfl, rfl, rfl⟩ : first = left ∧ second = right ∧ third :: others = extra := by
        simpa [padSole] using hrow
      rw [rotateRows, if_pos (by simp)]
      rfl

/-! ## Steps -/

/-- Settling with checks. The parent is asked for its first slot before anything else. -/
def checkedSettle (m : Dismantler) (h : Heap α) (current : NodeId) : Except Fault (Outcome α) :=
  match m.parent with
  | none => .ok ⟨m, h, []⟩
  | some parent =>
    let above := h.slotsOf parent
    if above[0]? ≠ some none then .error .notVacated
    else if ¬ h.isExclusive parent then .error .sharedParent
    else if above[1]?.join.isSome then
      (rotateRows (h.slotsOf current) above parent).map fun (row, above) =>
        ⟨{ m with parent := none, rotations := m.rotations + 1 },
          (h.setSlots current row).setSlots parent above, []⟩
    else
      let after := h.release [parent]
      .ok ⟨{ m with parent := none }, after.1, after.2⟩

/-- Going on with checks. The current node becomes the parent only where none waits. -/
def checkedProceed (m : Dismantler) (h : Heap α) (current : NodeId) : Except Fault (Outcome α) :=
  let row := h.slotsOf current
  (readSlot row 0).bind fun first =>
    if first.isSome then
      (takeSlot row 0).bind fun (left, row) =>
        (needEmpty m.parent).map fun _ =>
          ⟨{ m with current := left, parent := some current }, h.setSlots current row, []⟩
    else if row.length = 2 then
      (takeSlot row 1).map fun (right, row) =>
        let after := (h.setSlots current row).release [current]
        ⟨{ m with current := right }, after.1, after.2⟩
    else .ok ⟨m, h.setSlots current (closeGaps row), []⟩

/-- A transition from a current node with checks. -/
def checkedAdvance (m : Dismantler) (h : Heap α) (current : NodeId) : Except Fault (Outcome α) :=
  let m := { m with steps := m.steps + 1 }
  match h.enter? (some current) with
  | none =>
    let after := h.release [current]
    .ok ⟨{ m with current := m.parent, parent := none }, after.1, after.2⟩
  | some _ =>
    (checkedSettle m h current).bind fun settled =>
      (checkedProceed settled.machine settled.heap current).map fun moved =>
        ⟨moved.machine, moved.heap, settled.values ++ moved.values⟩

/-- One transition with checks. -/
def checkedStep (m : Dismantler) (h : Heap α) : Except Fault (Option (Outcome α)) :=
  match m.current with
  | none => .ok none
  | some current => (checkedAdvance m h current).map some

variable {m : Dismantler} {h : Heap α} {others : List NodeId} {current : NodeId}

/-- Before a node is entered, the parent is found as it should be. -/
theorem checkedSettle_eq (entered : Entered m h others current) :
    checkedSettle m h current = .ok (settleParent m h current) := by
  cases hparent : m.parent with
  | none => simp [checkedSettle, settleParent_idle, hparent]
  | some p =>
      obtain ⟨rest, habove⟩ := entered.ready.vacated p hparent
      have hexclusive : h.isExclusive p :=
        entered.owned.isExclusive_iff.2 (entered.ready.sole p hparent)
      have hloaded : isLoaded h p = (h.slotsOf p)[1]?.join.isSome := by
        rw [isLoaded, hexclusive, Bool.true_and]
      have hvacated : ¬ (h.slotsOf p)[0]? ≠ some none := by simp [habove]
      simp only [checkedSettle, hparent, if_neg hvacated, if_neg (not_not.2 hexclusive),
        ← hloaded]
      by_cases hsecond : isLoaded h p
      · obtain ⟨left, right, extra, hrow⟩ := padSole_cases entered.slotsOf_current
        rw [if_pos hsecond, habove, rotateRows_eq p hrow, settleParent_loaded hparent hsecond,
          rotate_eq hrow habove]
        rfl
      · rw [if_neg hsecond, settleParent_emptied hparent hsecond]

/-- With the parent settled, a node that has slots is left by one of them or tidied. -/
theorem checkedProceed_eq (hslots : h.slotsOf current ≠ []) (hparent : m.parent = none) :
    checkedProceed m h current = .ok (proceed m h current) := by
  rcases row_cases (h.slotsOf current) with ⟨left, rest, hrow⟩ | ⟨right, hrow⟩ | ⟨hleft, hright⟩
  · rw [proceed_down hrow, checkedProceed, hrow, hparent]
    rfl
  · rw [proceed_right hrow, checkedProceed, hrow]
    rfl
  · rw [proceed_close hleft hright, checkedProceed]
    match hrow : h.slotsOf current with
    | [] => exact absurd hrow hslots
    | some left :: rest => exact absurd hrow (hleft left rest)
    | [none, right] => exact absurd hrow (hright right)
    | [none] => rfl
    | none :: _ :: _ :: _ => rfl

theorem checkedAdvance_eq (owned : h.Owned (m.held ++ others)) (ready : m.Ready h)
    (hcurrent : m.current = some current) :
    checkedAdvance m h current = .ok (advance m h current) := by
  rcases h.enter?_cases current with hrefused | hentered
  · rw [checkedAdvance, hrefused, advance_refused hrefused]
  · have entered := entered_of_enter? owned ready hcurrent hentered
    have spec := settleParent_spec entered
    rw [checkedAdvance, hentered, advance_entered hentered rfl]
    dsimp only
    rw [checkedSettle_eq entered, Except.bind,
      checkedProceed_eq (spec.slotsOf_ne_nil entered) spec.parent_eq]
    rfl

/-- Between two steps of a machine, no check of the next one fails. -/
theorem checkedStep_eq (owned : h.Owned (m.held ++ others)) (ready : m.Ready h) :
    checkedStep m h = .ok (step m h) := by
  cases hcurrent : m.current with
  | none => rw [checkedStep, step, hcurrent, Option.map_none]
  | some current =>
      rw [checkedStep, step, hcurrent, Option.map_some]
      dsimp only
      rw [checkedAdvance_eq owned ready hcurrent]
      rfl

/-- A parent that is shared stops a step, which never happens on the course of a machine. -/
example : checkedStep ⟨some 0, some 1, 1, 0⟩
    ⟨.shared, #[some ⟨1, 2, [none]⟩, some ⟨2, 1, [none, none]⟩]⟩ = .error .sharedParent := by rfl

/-! ## Between steps -/

/-- What can be relied on between two steps. Where a parent waits, there is a current node, so a
machine that is done holds nothing; the parent is the machine's alone, and its first slot is a hole.
No check of the next step fails. -/
structure Poised (others : List NodeId) (m : Dismantler) (h : Heap α) : Prop where
  below : m.parent.isSome → m.current.isSome
  done : m.isDone → m.held = []
  exclusive : ∀ p, m.parent = some p → h.isExclusive p ∧ h.countOf p = 1
  alone : ∀ p, m.parent = some p → m.current ≠ some p ∧ p ∉ others ∧ ∀ a, ¬ h.Edge a p
  vacated : ∀ p, m.parent = some p → (h.slotsOf p)[0]? = some none
  checked : checkedStep m h = .ok (step m h)

theorem Ready.poised (ready : m.Ready h) (owned : h.Owned (m.held ++ others)) :
    Poised others m h := by
  refine ⟨fun hparent => ?_, fun hdone => ?_, fun p hparent => ?_, fun p hparent => ?_,
    fun p hparent => ?_, checkedStep_eq owned ready⟩
  · obtain ⟨p, hp⟩ := Option.isSome_iff_exists.1 hparent
    exact ready.below p hp
  · exact ready.held_eq_nil (Option.isNone_iff_eq_none.1 hdone)
  · have hsole := ready.sole p hparent
    exact ⟨owned.isExclusive_iff.2 hsole, hsole⟩
  · have hwaiting := owned_waiting owned hparent
    obtain ⟨hheld, hedge⟩ := hwaiting.of_held_sole (ready.sole p hparent)
    rw [List.mem_append, not_or, Option.mem_toList] at hheld
    exact ⟨hheld.1, hheld.2, hedge⟩
  · obtain ⟨above, habove⟩ := ready.vacated p hparent
    rw [habove, List.getElem?_cons_zero]

theorem Course.poised (course : Course others m h) : Poised others m h :=
  course.sound.2.poised course.sound.1

end Dismantler

end SlotTree
