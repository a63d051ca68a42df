import SlotTree.Dismantler
import SlotTree.Proofs.Heap.Release

/-! # One step of a dismantler

Between two steps the machine holds the only handle to a waiting parent, whose first slot is a hole.
A step passes handles between the machine and the slots of the two nodes it holds, and gives some
up. As both are held by nobody else, the other holders see nothing of it.
-/

namespace SlotTree

universe u

variable {α : Type u}

open List

namespace Heap

theorem setSlots_comm {a b : NodeId} (hne : a ≠ b) (h : Heap α) (row other : List Slot) :
    (h.setSlots a row).setSlots b other = (h.setSlots b other).setSlots a row := by
  refine ext_get? (by simp) (by simp) fun id => ?_
  by_cases ha : id = a
  · subst ha
    simp [get?_setSlots, hne]
  · by_cases hb : id = b
    · subst hb
      simp [get?_setSlots, ha]
    · simp [get?_setSlots, ha, hb]

theorem count_toList (s : Slot) (id : NodeId) :
    s.toList.count id = if s = some id then 1 else 0 := by
  cases s <;> simp [List.count_singleton]

theorem Owned.countOf_pos {h : Heap α} {holders : List NodeId} (owned : h.Owned holders)
    {id : NodeId} (hid : id ∈ holders) : 0 < h.countOf id :=
  owned.positive id (owned.live_of_mem hid)

end Heap

namespace Dismantler

open Heap

/-! ## Rows without gaps -/

theorem count_padSole (slots : List Slot) (id : NodeId) :
    (padSole slots).count (some id) = slots.count (some id) := by
  unfold padSole
  split <;> simp [List.count_cons]

theorem count_closeGaps (slots : List Slot) (id : NodeId) :
    (closeGaps slots).count (some id) = slots.count (some id) := by
  rw [closeGaps, count_padSole, present_eq_filter, List.count_filter]
  rfl

/-- A padded row has two slots if it has any. -/
theorem padSole_cases {slots : List Slot} (hslots : slots ≠ []) :
    ∃ left right extra, padSole slots = left :: right :: extra := by
  match slots, hslots with
  | [left], _ => exact ⟨left, none, [], rfl⟩
  | left :: right :: extra, _ => exact ⟨left, right, extra, rfl⟩

/-! ## The state between steps -/

/-- The handles of a machine. -/
def held (m : Dismantler) : List NodeId := m.current.toList ++ m.parent.toList

/-- A parent waits only above a current node, for the machine alone, and its first slot is
vacated. -/
structure Ready (m : Dismantler) (h : Heap α) : Prop where
  below : ∀ p, m.parent = some p → m.current.isSome
  sole : ∀ p, m.parent = some p → h.countOf p = 1
  vacated : ∀ p, m.parent = some p → ∃ above, h.slotsOf p = none :: above

theorem ready_start (root : Slot) (h : Heap α) : (start root).Ready h :=
  ⟨by simp [start], by simp [start], by simp [start]⟩

theorem ready_of_parent_none {m : Dismantler} (hparent : m.parent = none) (h : Heap α) :
    m.Ready h :=
  ⟨by simp [hparent], by simp [hparent], by simp [hparent]⟩

/-- What steps keep: the heap is owned by the machine and the other holders, and these see nothing
of the change. -/
structure Kept (others : List NodeId) (h : Heap α) (o : Outcome α) : Prop where
  owned : o.heap.Owned (o.machine.held ++ others)
  ready : o.machine.Ready o.heap
  unseen : Unseen others h o.heap o.values

variable {m : Dismantler} {h : Heap α} {others : List NodeId} {current : NodeId}

/-! ## Settling the parent -/

/-- The nodes that a settling may change are the two that the machine holds alone. -/
structure Entered (m : Dismantler) (h : Heap α) (others : List NodeId) (current : NodeId) :
    Prop where
  owned : h.Owned (m.held ++ others)
  ready : m.Ready h
  current_eq : m.current = some current
  entered : h.enter? (some current) = some current

namespace Entered

variable (entered : Entered m h others current)

include entered

theorem held_eq : m.held = current :: m.parent.toList := by
  rw [held, entered.current_eq, Option.toList_some, List.singleton_append]

theorem countOf_current : h.countOf current = 1 :=
  entered.owned.isExclusive_iff.1 (enter?_eq_some.1 entered.entered).2.1

theorem slotsOf_current : h.slotsOf current ≠ [] := (enter?_eq_some.1 entered.entered).2.2

theorem owned_current : h.Owned (current :: (m.parent.toList ++ others)) := by
  have owned := entered.owned
  rwa [entered.held_eq] at owned

theorem owned_parent {p : NodeId} (hparent : m.parent = some p) :
    h.Owned (p :: current :: others) := by
  have owned := entered.owned_current
  rw [hparent] at owned
  exact owned.perm (List.Perm.swap _ _ _)

theorem ne_parent {p : NodeId} (hparent : m.parent = some p) : current ≠ p := by
  rintro rfl
  have hclear := (entered.owned_parent hparent).of_held_sole (entered.ready.sole _ hparent)
  simp at hclear

theorem not_reached_current : ¬ h.Reached others current := by
  intro hreach
  apply entered.owned_current.not_reached_of_held_sole entered.countOf_current
  exact hreach.mono (List.subset_append_right _ _)

theorem not_reached_parent {p : NodeId} (hparent : m.parent = some p) :
    ¬ h.Reached others p := by
  intro hreach
  refine (entered.owned_parent hparent).not_reached_of_held_sole
    (entered.ready.sole _ hparent) ?_
  exact hreach.mono (List.subset_cons_self _ _)

end Entered

theorem settleParent_idle (hparent : m.parent = none) : settleParent m h current = ⟨m, h, []⟩ := by
  simp [settleParent, hparent]

theorem settleParent_loaded {p : NodeId} (hparent : m.parent = some p) (hloaded : isLoaded h p) :
    settleParent m h current =
      ⟨{ m with parent := none, rotations := m.rotations + 1 }, rotate h current p, []⟩ := by
  simp [settleParent, hparent, hloaded]

theorem settleParent_emptied {p : NodeId} (hparent : m.parent = some p)
    (hloaded : ¬ isLoaded h p) :
    settleParent m h current =
      ⟨{ m with parent := none }, (h.release [p]).1, (h.release [p]).2⟩ := by
  simp [settleParent, hparent, hloaded]

/-- A rotation exchanges the rows of the two nodes. -/
theorem rotate_eq {p : NodeId} {left right : Slot} {extra above : List Slot}
    (hrow : padSole (h.slotsOf current) = left :: right :: extra)
    (habove : h.slotsOf p = none :: above) :
    rotate h current p = (h.setSlots current (left :: some p :: extra.map fun _ => none)).setSlots
      p (right :: above ++ extra) := by
  simp [rotate, hrow, habove]

/-- What settling leaves: the parent is gone from the machine, and the current node still belongs to
it alone. Its row is as before, or the parent stands in its second slot. -/
structure SettleSpec (m : Dismantler) (h : Heap α) (others : List NodeId) (current : NodeId)
    (o : Outcome α) : Prop where
  current_eq : o.machine.current = some current
  parent_eq : o.machine.parent = none
  owned : o.heap.Owned (current :: others)
  sole : o.heap.countOf current = 1
  unseen : Unseen others h o.heap o.values
  row : o.heap.slotsOf current = h.slotsOf current ∨ ∃ p left right extra, m.parent = some p ∧
    padSole (h.slotsOf current) = left :: right :: extra ∧
    o.heap.slotsOf current = left :: some p :: extra.map fun _ => none

/-- A rotation moves handles between the two rows and the machine. With the row of the current node
in hand, both nodes get their new rows one after the other. -/
theorem Entered.owned_rotate (entered : Entered m h others current) {p : NodeId}
    (hparent : m.parent = some p) : (rotate h current p).Owned (current :: others) := by
  obtain ⟨left, right, extra, hrow⟩ := padSole_cases entered.slotsOf_current
  obtain ⟨above, habove⟩ := entered.ready.vacated p hparent
  have hne := entered.ne_parent hparent
  have hlive : h.Live current := entered.owned_current.live_of_mem (by simp)
  have hcount : ∀ x, (h.slotsOf current).reduceOption.count x =
      (left :: right :: extra).count (some x) := fun x => by
    rw [count_reduceOption, ← hrow, count_padSole]
  have htaken := (entered.owned_parent hparent).takeSlots current
  have hparentRow : ((h.setSlots current []).setSlots p (right :: above ++ extra)).Owned
      (current :: p :: (left.toList ++ others)) := by
    refine htaken.setSlots_of_held_sole ?_ (by simp) (by simp) fun x => ?_
    · rw [countOf_setSlots]
      exact entered.ready.sole p hparent
    · have hx := hcount x
      rw [slotsOf_setSlots_other _ hne.symm, habove]
      simp only [List.count_append, List.count_cons, List.cons_append, count_toList,
        beq_iff_eq, reduceCtorEq, if_false] at hx ⊢
      omega
  -- The two rows may be set in either order; here the parent is in hand while it gets its own.
  have hswap : rotate h current p =
      ((h.setSlots current []).setSlots p (right :: above ++ extra)).setSlots current
        (left :: some p :: extra.map fun _ => none) := by
    rw [rotate_eq hrow habove, ← setSlots_setSlots h current [], setSlots_comm hne]
  rw [hswap]
  refine hparentRow.setSlots_of_held_sole ?_ (by simp) (by simp) fun x => ?_
  · rw [countOf_setSlots, countOf_setSlots]
    exact entered.countOf_current
  · have hholes : (extra.map fun _ => (none : Slot)).count (some x) = 0 :=
      List.count_eq_zero.2 (by simp)
    rw [slotsOf_setSlots_other _ hne, slotsOf_setSlots_self _ hlive]
    simp only [List.count_append, List.count_cons, List.count_nil, count_toList, hholes,
      beq_iff_eq, Option.some.injEq]
    omega

theorem settleParent_rotate (entered : Entered m h others current) {p : NodeId}
    (hparent : m.parent = some p) (hloaded : isLoaded h p) :
    SettleSpec m h others current (settleParent m h current) := by
  obtain ⟨left, right, extra, hrow⟩ := padSole_cases entered.slotsOf_current
  obtain ⟨above, habove⟩ := entered.ready.vacated p hparent
  have hne := entered.ne_parent hparent
  rw [settleParent_loaded hparent hloaded]
  refine ⟨entered.current_eq, rfl, entered.owned_rotate hparent, ?_, ?_, .inr ?_⟩
  · rw [rotate_eq hrow habove, countOf_setSlots, countOf_setSlots]
    exact entered.countOf_current
  · have hfirst := unseen_setSlots (left :: some p :: extra.map fun _ => none)
      entered.not_reached_current
    rw [rotate_eq hrow habove]
    refine hfirst.trans (unseen_setSlots _ ?_)
    rw [hfirst.reached_iff]
    exact entered.not_reached_parent hparent
  · refine ⟨p, left, right, extra, hparent, hrow, ?_⟩
    rw [rotate_eq hrow habove, slotsOf_setSlots_other _ hne, slotsOf_setSlots_self]
    exact entered.owned_current.live_of_mem (by simp)

theorem settleParent_release (entered : Entered m h others current) {p : NodeId}
    (hparent : m.parent = some p) (hloaded : ¬ isLoaded h p) :
    SettleSpec m h others current (settleParent m h current) := by
  have owned : h.Owned ([p] ++ (current :: others)) := entered.owned_parent hparent
  have hunseen := owned.unseen_release
  have hsole : (h.release [p]).1.countOf current = 1 := by
    have hle := countOf_release_le h [p] current
    have hpos := owned.release.countOf_pos (List.mem_cons_self (a := current))
    have hone := entered.countOf_current
    omega
  rw [settleParent_emptied hparent hloaded]
  refine ⟨entered.current_eq, rfl, owned.release, hsole, ?_, .inl ?_⟩
  · exact hunseen.mono (List.subset_cons_self _ _)
  · exact slotsOf_congr (hunseen.content_eq current (reached_of_mem h (by simp)))

theorem settleParent_spec (entered : Entered m h others current) :
    SettleSpec m h others current (settleParent m h current) := by
  cases hparent : m.parent with
  | none =>
      have owned := entered.owned_current
      rw [hparent] at owned
      rw [settleParent_idle hparent]
      exact ⟨entered.current_eq, hparent, owned, entered.countOf_current, .refl others h, .inl rfl⟩
  | some p =>
      by_cases hloaded : isLoaded h p
      · exact settleParent_rotate entered hparent hloaded
      · exact settleParent_release entered hparent hloaded

/-- Settling leaves slots to the node that was entered. -/
theorem SettleSpec.slotsOf_ne_nil {o : Outcome α} (spec : SettleSpec m h others current o)
    (entered : Entered m h others current) : o.heap.slotsOf current ≠ [] := by
  rcases spec.row with hrow | ⟨_, _, _, _, -, -, hrow⟩
  · rw [hrow]
    exact entered.slotsOf_current
  · rw [hrow]
    exact List.cons_ne_nil _ _

/-! ## Going on -/

/-- The current node is the machine's alone, and no parent waits above it. -/
structure Settled (m : Dismantler) (h : Heap α) (others : List NodeId) (current : NodeId) :
    Prop where
  owned : h.Owned (current :: others)
  current_eq : m.current = some current
  parent_eq : m.parent = none
  sole : h.countOf current = 1

theorem SettleSpec.settled {o : Outcome α} (spec : SettleSpec m h others current o) :
    Settled o.machine o.heap others current :=
  ⟨spec.owned, spec.current_eq, spec.parent_eq, spec.sole⟩

namespace Settled

variable (settled : Settled m h others current)

include settled

theorem live : h.Live current := settled.owned.live_of_mem (by simp)

theorem held_eq : m.held = [current] := by
  simp [held, settled.current_eq, settled.parent_eq]

theorem not_reached : ¬ h.Reached others current :=
  settled.owned.not_reached_of_held_sole settled.sole

end Settled

theorem proceed_down {left : NodeId} {rest : List Slot}
    (hrow : h.slotsOf current = some left :: rest) :
    proceed m h current = ⟨{ m with current := some left, parent := some current },
      h.setSlots current (none :: rest), []⟩ := by
  simp [proceed, hrow]

theorem proceed_right {right : Slot} (hrow : h.slotsOf current = [none, right]) :
    proceed m h current = ⟨{ m with current := right },
      ((h.setSlots current [none, none]).release [current]).1,
      ((h.setSlots current [none, none]).release [current]).2⟩ := by
  simp [proceed, hrow]

theorem proceed_close (hleft : ∀ left rest, h.slotsOf current ≠ some left :: rest)
    (hright : ∀ right, h.slotsOf current ≠ [none, right]) :
    proceed m h current = ⟨m, h.setSlots current (closeGaps (h.slotsOf current)), []⟩ := by
  unfold proceed
  split
  · next left rest hrow => exact absurd hrow (hleft left rest)
  · next right hrow => exact absurd hrow (hright right)
  · rfl

/-- A row starts with a node, or is a pair after a hole, or is neither. -/
theorem row_cases (row : List Slot) : (∃ left rest, row = some left :: rest) ∨
    (∃ right, row = [none, right]) ∨
    (∀ left rest, row ≠ some left :: rest) ∧ ∀ right, row ≠ [none, right] := by
  match row with
  | some left :: rest => exact .inl ⟨left, rest, rfl⟩
  | [none, right] => exact .inr (.inl ⟨right, rfl⟩)
  | [] => exact .inr (.inr (by simp))
  | [none] => exact .inr (.inr (by simp))
  | none :: _ :: _ :: _ => exact .inr (.inr (by simp))

/-- Down the first slot, whose handle passes to the machine. -/
theorem kept_down (settled : Settled m h others current) {left : NodeId} {rest : List Slot}
    (hrow : h.slotsOf current = some left :: rest) :
    Kept others h (proceed m h current) := by
  have owned : (h.setSlots current (none :: rest)).Owned (left :: current :: others) := by
    refine settled.owned.setSlots settled.live (fun x => ?_) fun b hb hnew => ?_
    · rw [hrow]
      simp only [List.count_cons, beq_iff_eq, Option.some.injEq, reduceCtorEq, if_false]
      omega
    · rw [hrow] at hnew
      simp_all
  have hvacated : (h.setSlots current (none :: rest)).slotsOf current = none :: rest :=
    slotsOf_setSlots_self _ settled.live
  rw [proceed_down hrow]
  refine ⟨owned, ⟨?_, ?_, ?_⟩, unseen_setSlots _ settled.not_reached⟩
  · simp
  · rintro p hp
    obtain rfl : current = p := Option.some.inj hp
    rw [countOf_setSlots]
    exact settled.sole
  · rintro p hp
    obtain rfl : current = p := Option.some.inj hp
    exact ⟨rest, hvacated⟩

/-- With the second of two slots in hand, the node that is left behind holds nothing. -/
theorem owned_right (settled : Settled m h others current) {right : Slot}
    (hrow : h.slotsOf current = [none, right]) :
    (h.setSlots current [none, none]).Owned ([current] ++ (right.toList ++ others)) := by
  refine settled.owned.setSlots settled.live (fun x => ?_) (by simp)
  rw [hrow]
  simp only [List.count_append, List.count_cons, List.count_nil, count_toList, beq_iff_eq,
    reduceCtorEq, if_false]
  omega

theorem kept_right (settled : Settled m h others current) {right : Slot}
    (hrow : h.slotsOf current = [none, right]) :
    Kept others h (proceed m h current) := by
  have owned := owned_right settled hrow
  have hparent : ({ m with current := right } : Dismantler).parent = none := settled.parent_eq
  have hheld : ({ m with current := right } : Dismantler).held = right.toList := by
    simp [held, settled.parent_eq]
  have hunseen := (unseen_setSlots [none, none] settled.not_reached).trans
    (owned.unseen_release.mono (List.subset_append_right _ _))
  rw [proceed_right hrow]
  refine ⟨?_, ?_, hunseen⟩
  · rw [hheld]
    exact owned.release
  · exact ready_of_parent_none hparent _

theorem kept_close (settled : Settled m h others current)
    (hleft : ∀ left rest, h.slotsOf current ≠ some left :: rest)
    (hright : ∀ right, h.slotsOf current ≠ [none, right]) :
    Kept others h (proceed m h current) := by
  rw [proceed_close hleft hright]
  refine ⟨?_, ready_of_parent_none settled.parent_eq _, unseen_setSlots _ settled.not_reached⟩
  rw [settled.held_eq]
  refine settled.owned.setSlots settled.live (fun x => ?_) fun b hb hnew => ?_
  · rw [count_closeGaps]
    rfl
  · rw [← List.count_pos_iff, count_closeGaps, List.count_pos_iff] at hb
    exact absurd hb hnew

theorem proceed_kept (settled : Settled m h others current) :
    Kept others h (proceed m h current) := by
  rcases row_cases (h.slotsOf current) with ⟨left, rest, hrow⟩ | ⟨right, hrow⟩ | ⟨hleft, hright⟩
  · exact kept_down settled hrow
  · exact kept_right settled hrow
  · exact kept_close settled hleft hright

/-! ## Steps -/

theorem advance_refused (refused : h.enter? (some current) = none) :
    advance m h current =
      ⟨{ m with steps := m.steps + 1, current := m.parent, parent := none },
        (h.release [current]).1, (h.release [current]).2⟩ := by
  simp [advance, refused]

/-- A step into a node settles the parent first. -/
theorem advance_entered {o : Outcome α} (hentered : h.enter? (some current) = some current)
    (hsettle : settleParent { m with steps := m.steps + 1 } h current = o) :
    advance m h current = ⟨(proceed o.machine o.heap current).machine,
      (proceed o.machine o.heap current).heap,
      o.values ++ (proceed o.machine o.heap current).values⟩ := by
  simp [advance, hentered, hsettle]

theorem entered_of_enter? (owned : h.Owned (m.held ++ others)) (ready : m.Ready h)
    (hcurrent : m.current = some current) (hentered : h.enter? (some current) = some current) :
    Entered { m with steps := m.steps + 1 } h others current :=
  ⟨owned, ⟨ready.below, ready.sole, ready.vacated⟩, hcurrent, hentered⟩

theorem advance_kept (owned : h.Owned (m.held ++ others)) (ready : m.Ready h)
    (hcurrent : m.current = some current) : Kept others h (advance m h current) := by
  have hheld : m.held = current :: m.parent.toList := by simp [held, hcurrent]
  rcases h.enter?_cases current with hrefused | hentered
  · have hwork : h.Owned ([current] ++ (m.parent.toList ++ others)) := by rwa [hheld] at owned
    have hunseen := hwork.unseen_release.mono (List.subset_append_right _ _)
    rw [advance_refused hrefused]
    refine ⟨?_, ready_of_parent_none rfl _, hunseen⟩
    simpa [held] using hwork.release
  · have hsettle := settleParent_spec (entered_of_enter? owned ready hcurrent hentered)
    have hproceed := proceed_kept hsettle.settled
    rw [advance_entered hentered rfl]
    exact ⟨hproceed.owned, hproceed.ready, hsettle.unseen.trans hproceed.unseen⟩

/-- Any number of steps leaves the machine ready and the other holders undisturbed. -/
theorem runFor_kept (budget : Nat) (owned : h.Owned (m.held ++ others)) (ready : m.Ready h) :
    Kept others h (runFor budget m h) := by
  induction budget generalizing m h with
  | zero => exact ⟨owned, ready, .refl others h⟩
  | succ budget ih =>
      cases hcurrent : m.current with
      | none =>
          rw [runFor_of_done hcurrent]
          exact ⟨owned, ready, .refl others h⟩
      | some current =>
          have hfirst := advance_kept owned ready hcurrent
          have hrest := ih hfirst.owned hfirst.ready
          rw [runFor_succ hcurrent]
          exact ⟨hrest.owned, hrest.ready, hfirst.unseen.trans hrest.unseen⟩

/-- What every step preserves is preserved by any number of steps. -/
theorem runFor_preserves {P : Dismantler → Heap α → Prop}
    (hstep : ∀ {m : Dismantler} {h : Heap α} {current : NodeId}, h.Owned (m.held ++ others) →
      m.Ready h → m.current = some current → P m h →
      P (advance m h current).machine (advance m h current).heap)
    (owned : h.Owned (m.held ++ others)) (ready : m.Ready h) (hstart : P m h) (budget : Nat) :
    P (runFor budget m h).machine (runFor budget m h).heap := by
  induction budget generalizing m h with
  | zero => exact hstart
  | succ budget ih =>
      cases hcurrent : m.current with
      | none => rwa [runFor_of_done hcurrent]
      | some current =>
          have hkept := advance_kept owned ready hcurrent
          rw [runFor_succ hcurrent]
          exact ih hkept.owned hkept.ready (hstep owned ready hcurrent hstart)

end Dismantler

end SlotTree
