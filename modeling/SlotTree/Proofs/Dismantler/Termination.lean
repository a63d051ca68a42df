import SlotTree.Proofs.Dismantler.Step

/-! # A dismantling ends

A step drops a handle, or it leaves the number of handles below the machine as it is and makes
progress towards the next drop: gaps are closed once, a descent lowers the height of the current
node, and at the end of it the parent is no longer loaded.
-/

namespace SlotTree

universe u

variable {α : Type u}

open List

namespace Heap

theorem handleCount_setSlots {h : Heap α} {id : NodeId} (slots : List Slot) (hid : h.Live id) :
    (h.setSlots id slots).handleCount + (h.slotsOf id).reduceOption.length =
      h.handleCount + slots.reduceOption.length := by
  obtain ⟨n, hn⟩ := live_iff.1 hid
  simpa [handleCount, setSlots, hn, slotsOf_eq hn, Node.handles, List.reduceOption] using
    weigh_put hn (fun n => n.handles.length) { n with slots := slots }

theorem handleCount_release_le (h : Heap α) (work : List NodeId) :
    (h.release work).1.handleCount ≤ h.handleCount :=
  weigh_release_le (fun _ _ => rfl) h work

/-- New slots that were in the row before make no node higher. -/
theorem height_setSlots_le {h : Heap α} {id : NodeId} {slots : List Slot}
    (hsub : ∀ b, some b ∈ slots → some b ∈ h.slotsOf id) (other : NodeId) :
    (h.setSlots id slots).height other ≤ h.height other := by
  apply height_le_of_edge (size_setSlots h id slots)
  intro a b _ hedge
  rcases edge_setSlots hedge with ⟨rfl, hb⟩ | ⟨-, hold⟩
  · exact hsub b hb
  · exact hold

end Heap

namespace Dismantler

open Heap

/-! ## The measure -/

/-- How far the first node of a row without gaps in front is from a drop. -/
noncomputable def rowStage (h : Heap α) : List Slot → Nat
  | some left :: some _ :: _ => h.height left + 3
  | some _ :: _ => 2
  | _ => 0

/-- A gap in front costs one step more. -/
noncomputable def gapStage (h : Heap α) : List Slot → Nat
  | none :: rest => rowStage h (closeGaps (none :: rest)) + 1
  | row => rowStage h row

/-- How far a machine is from a drop at most. -/
noncomputable def stage (m : Dismantler) (h : Heap α) : Nat :=
  match m.current, m.parent with
  | some current, some p => if isLoaded h p then h.height current + 2 else 1
  | some current, none => gapStage h (h.slotsOf current)
  | none, _ => 0

/-- The handles that the machine holds, and those in slots. -/
def debt (m : Dismantler) (h : Heap α) : Nat := h.handleCount + m.held.length

/-- A bound of the steps to come. -/
noncomputable def workload (m : Dismantler) (h : Heap α) : Nat :=
  debt m h * (h.cells.size + 5) + stage m h

theorem rowStage_le (h : Heap α) (row : List Slot) : rowStage h row ≤ h.cells.size + 3 := by
  unfold rowStage
  split
  · next left _ _ =>
      have := height_le_size h left
      omega
  · omega
  · omega

theorem stage_le (m : Dismantler) (h : Heap α) : stage m h ≤ h.cells.size + 4 := by
  have hgap : ∀ row, gapStage h row ≤ h.cells.size + 4 := by
    intro row
    unfold gapStage
    split
    · have := rowStage_le h (closeGaps (none :: ‹_›))
      omega
    · have := rowStage_le h row
      omega
  unfold stage
  split
  · next current p _ _ =>
      have := height_le_size h current
      split <;> omega
  · exact hgap _
  · omega

variable {m n : Dismantler} {h k : Heap α} {others : List NodeId} {current : NodeId}

/-- A drop pays for all that comes before the next one. -/
theorem workload_lt_of_debt_lt (hsize : k.cells.size = h.cells.size)
    (hdebt : debt n k < debt m h) : workload n k < workload m h := by
  have hstage := stage_le n k
  have hmul : (debt n k + 1) * (h.cells.size + 5) ≤ debt m h * (h.cells.size + 5) :=
    Nat.mul_le_mul_right _ hdebt
  rw [Nat.add_mul] at hmul
  rw [workload, workload, hsize]
  omega

theorem workload_lt_of_stage_lt (hsize : k.cells.size = h.cells.size)
    (hdebt : debt n k ≤ debt m h) (hstage : stage n k < stage m h) :
    workload n k < workload m h := by
  have hmul : debt n k * (h.cells.size + 5) ≤ debt m h * (h.cells.size + 5) :=
    Nat.mul_le_mul_right _ hdebt
  rw [workload, workload, hsize]
  omega

theorem workload_le_of_stage_le (hsize : k.cells.size = h.cells.size)
    (hdebt : debt n k ≤ debt m h) (hstage : stage n k ≤ stage m h) :
    workload n k ≤ workload m h := by
  have hmul : debt n k * (h.cells.size + 5) ≤ debt m h * (h.cells.size + 5) :=
    Nat.mul_le_mul_right _ hdebt
  rw [workload, workload, hsize]
  omega

/-- The budget of a run is more than the work. -/
theorem workload_le_budget (m : Dismantler) (h : Heap α) : workload m h ≤ budget h := by
  have hstage := stage_le m h
  have hheld : m.held.length ≤ 2 := by
    rw [held, List.length_append]
    have := Option.length_toList_le (o := m.current)
    have := Option.length_toList_le (o := m.parent)
    omega
  have hmul : (debt m h + 1) * (h.cells.size + 5) ≤ (h.handleCount + 3) * (h.cells.size + 5) :=
    Nat.mul_le_mul_right _ (by rw [debt]; omega)
  rw [Nat.add_mul] at hmul
  rw [workload, budget]
  omega

/-! ## Closing gaps -/

theorem length_reduceOption_padSole (slots : List Slot) :
    (padSole slots).reduceOption.length = slots.reduceOption.length := by
  unfold padSole
  split
  · next s => cases s <;> rfl
  · rfl

theorem length_reduceOption_closeGaps (slots : List Slot) :
    (closeGaps slots).reduceOption.length = slots.reduceOption.length := by
  rw [closeGaps, length_reduceOption_padSole, present_eq_filter]
  induction slots with
  | nil => rfl
  | cons s slots ih => cases s <;> simpa using ih

/-- A row without gaps is empty, or a single node before a hole, or starts with two nodes. -/
theorem closeGaps_cases (slots : List Slot) :
    closeGaps slots = [] ∨ (∃ left, closeGaps slots = [some left, none]) ∨
      ∃ left right rest, closeGaps slots = some left :: some right :: rest := by
  have hfull : ∀ s ∈ present slots, s.isSome := by
    intro s hs
    rw [present_eq_filter] at hs
    exact (List.mem_filter.1 hs).2
  unfold closeGaps
  match hrow : present slots with
  | [] => exact .inl rfl
  | [s] =>
      rw [hrow] at hfull
      obtain ⟨left, rfl⟩ := Option.isSome_iff_exists.1 (hfull s (by simp))
      exact .inr (.inl ⟨left, rfl⟩)
  | s :: t :: rest =>
      rw [hrow] at hfull
      obtain ⟨left, rfl⟩ := Option.isSome_iff_exists.1 (hfull s (by simp))
      obtain ⟨right, rfl⟩ := Option.isSome_iff_exists.1 (hfull t (by simp))
      exact .inr (.inr ⟨left, right, rest, rfl⟩)

theorem gapStage_closeGaps (h : Heap α) (slots : List Slot) :
    gapStage h (closeGaps slots) = rowStage h (closeGaps slots) := by
  rcases closeGaps_cases slots with hrow | ⟨left, hrow⟩ | ⟨left, right, rest, hrow⟩ <;>
    rw [hrow] <;> rfl

theorem rowStage_mono (hheight : ∀ id, k.height id ≤ h.height id) (row : List Slot) :
    rowStage k row ≤ rowStage h row := by
  unfold rowStage
  split
  · next left _ _ =>
      have := hheight left
      omega
  · exact le_refl _
  · exact le_refl _

/-! ## The work that is left -/

theorem stage_settled (hcurrent : m.current = some current) (hparent : m.parent = none)
    (h : Heap α) : stage m h = gapStage h (h.slotsOf current) := by
  simp [stage, hcurrent, hparent]

/-- A descent leads to a lower node, or leaves a parent behind that goes with the next step. -/
theorem workload_down_lt (settled : Settled m h others current) {left : NodeId}
    {rest : List Slot} (hrow : h.slotsOf current = some left :: rest) :
    workload (proceed m h current).machine (proceed m h current).heap < workload m h := by
  have hcount := handleCount_setSlots (none :: rest) settled.live
  have hheight : (h.setSlots current (none :: rest)).height left ≤ h.height left := by
    refine height_setSlots_le (fun b hb => ?_) left
    rw [hrow]
    simp_all
  have hslots : (h.setSlots current (none :: rest)).slotsOf current = none :: rest :=
    slotsOf_setSlots_self _ settled.live
  rw [proceed_down hrow]
  refine workload_lt_of_stage_lt (size_setSlots ..) ?_ ?_
  · rw [debt, debt, settled.held_eq]
    simp [hrow, held] at hcount ⊢
    omega
  · rw [stage_settled settled.current_eq settled.parent_eq, hrow]
    simp only [stage]
    split
    · next hloaded =>
        rw [isLoaded, hslots] at hloaded
        cases rest with
        | nil => simp at hloaded
        | cons second extra =>
            cases second with
            | none => simp at hloaded
            | some right =>
                simp only [gapStage, rowStage]
                omega
    · cases rest with
      | nil => simp [gapStage, rowStage]
      | cons second extra => cases second <;> simp [gapStage, rowStage]

theorem workload_right_lt (settled : Settled m h others current) {right : Slot}
    (hrow : h.slotsOf current = [none, right]) :
    workload (proceed m h current).machine (proceed m h current).heap < workload m h := by
  have hsize := (kept_right settled hrow).unseen.size_eq
  have hcount := handleCount_setSlots [none, none] settled.live
  have hrelease := handleCount_release_le (h.setSlots current [none, none]) [current]
  apply workload_lt_of_debt_lt hsize
  rw [proceed_right hrow, debt, debt, settled.held_eq]
  cases right <;> simp [hrow, held, settled.parent_eq] at hcount ⊢ <;> omega

theorem workload_close_lt (settled : Settled m h others current)
    (hslots : h.slotsOf current ≠ [])
    (hleft : ∀ left rest, h.slotsOf current ≠ some left :: rest)
    (hright : ∀ right, h.slotsOf current ≠ [none, right]) :
    workload (proceed m h current).machine (proceed m h current).heap < workload m h := by
  have hcount := handleCount_setSlots (closeGaps (h.slotsOf current)) settled.live
  obtain ⟨rest, hrow⟩ : ∃ rest, h.slotsOf current = none :: rest := by
    match hrow : h.slotsOf current with
    | [] => exact absurd hrow hslots
    | none :: rest => exact ⟨rest, rfl⟩
    | some left :: rest => exact absurd hrow (hleft left rest)
  have hheight : ∀ id, (h.setSlots current (closeGaps (h.slotsOf current))).height id ≤
      h.height id := height_setSlots_le fun b hb => by
    rwa [← List.count_pos_iff, count_closeGaps, List.count_pos_iff] at hb
  rw [proceed_close hleft hright]
  change workload m (h.setSlots current (closeGaps (h.slotsOf current))) < workload m h
  refine workload_lt_of_stage_lt (size_setSlots ..) ?_ ?_
  · rw [length_reduceOption_closeGaps] at hcount
    rw [debt, debt]
    omega
  · have hstage := rowStage_mono hheight (closeGaps (h.slotsOf current))
    rw [stage_settled settled.current_eq settled.parent_eq,
      stage_settled settled.current_eq settled.parent_eq, slotsOf_setSlots_self _ settled.live,
      gapStage_closeGaps]
    rw [hrow] at hstage ⊢
    exact Nat.lt_succ_of_le hstage

theorem workload_proceed_lt (settled : Settled m h others current)
    (hslots : h.slotsOf current ≠ []) :
    workload (proceed m h current).machine (proceed m h current).heap < workload m h := by
  rcases row_cases (h.slotsOf current) with ⟨left, rest, hrow⟩ | ⟨right, hrow⟩ | ⟨hleft, hright⟩
  · exact workload_down_lt settled hrow
  · exact workload_right_lt settled hrow
  · exact workload_close_lt settled hslots hleft hright

theorem closeGaps_sole (p : NodeId) (extra : List Slot) :
    closeGaps (none :: some p :: extra.map fun _ => none) = [some p, none] := by
  simp [closeGaps, present_eq_filter, padSole]

/-- A rotation passes the handle of the parent from the machine to a slot. -/
theorem handleCount_rotate (entered : Entered m h others current) {p : NodeId}
    (hparent : m.parent = some p) :
    (rotate h current p).handleCount = h.handleCount + 1 := by
  obtain ⟨left, right, extra, hrow⟩ := padSole_cases entered.slotsOf_current
  obtain ⟨above, habove⟩ := entered.ready.vacated p hparent
  have hlive : h.Live current := entered.owned_current.live_of_mem (by simp)
  have hlivep : h.Live p := (entered.owned_parent hparent).live_of_mem (by simp)
  have hbefore := length_reduceOption_padSole (h.slotsOf current)
  have hfirst := handleCount_setSlots (left :: some p :: extra.map fun _ => none) hlive
  have hsecond := handleCount_setSlots (right :: above ++ extra)
    ((live_setSlots h current (left :: some p :: extra.map fun _ => none) p).2 hlivep)
  rw [rotate_eq hrow habove]
  rw [slotsOf_setSlots_other _ (entered.ne_parent hparent).symm, habove] at hsecond
  rw [← hbefore, hrow] at hfirst
  have hmoved : (left :: some p :: extra.map fun _ => none).reduceOption.length +
      (right :: above ++ extra).reduceOption.length =
      (left :: right :: extra).reduceOption.length + (none :: above).reduceOption.length + 1 := by
    cases left <;> cases right <;>
      simp [List.reduceOption_append] <;> omega
  omega

/-- Below the first slot of the current node a rotation changes nothing. -/
theorem height_rotate_le (entered : Entered m h others current) {p left : NodeId}
    (hparent : m.parent = some p) (hedge : h.Edge current left) :
    (rotate h current p).height left ≤ h.height left := by
  obtain ⟨first, right, extra, hrow⟩ := padSole_cases entered.slotsOf_current
  obtain ⟨above, habove⟩ := entered.ready.vacated p hparent
  have owned := entered.owned_parent hparent
  have hclear := (owned.of_held_sole (entered.ready.sole p hparent)).2
  rw [rotate_eq hrow habove]
  apply height_le_of_edge (by simp)
  intro a b hpath hab
  have hcurrent : a ≠ current := by
    rintro rfl
    exact owned.acyclic.not_reaches hedge hpath
  have hp : a ≠ p := by
    rintro rfl
    cases hpath with
    | refl => exact hclear _ hedge
    | tail _ hlast => exact hclear _ hlast
  rwa [Edge, slotsOf_setSlots_other _ hp, slotsOf_setSlots_other _ hcurrent] at hab

/-- A rotation brings the next drop no further away. -/
theorem stage_rotate_le (entered : Entered m h others current) {p : NodeId}
    (hparent : m.parent = some p) (hloaded : isLoaded h p) {n : Dismantler}
    (hcurrent : n.current = some current) (hnone : n.parent = none) :
    stage n (rotate h current p) ≤ stage m h := by
  obtain ⟨left, right, extra, hrow⟩ := padSole_cases entered.slotsOf_current
  obtain ⟨above, habove⟩ := entered.ready.vacated p hparent
  have hlive : h.Live current := entered.owned_current.live_of_mem (by simp)
  have hslots : (rotate h current p).slotsOf current =
      left :: some p :: extra.map fun _ => none := by
    rw [rotate_eq hrow habove, slotsOf_setSlots_other _ (entered.ne_parent hparent),
      slotsOf_setSlots_self _ hlive]
  have hbefore : stage m h = h.height current + 2 := by
    simp [stage, entered.current_eq, hparent, hloaded]
  rw [stage_settled hcurrent hnone, hslots, hbefore]
  cases left with
  | none =>
      have hpos := hlive.height_pos
      simp only [gapStage, closeGaps_sole, rowStage]
      omega
  | some left =>
      have hedge : h.Edge current left := by
        rw [Edge, ← List.count_pos_iff, ← count_padSole, hrow, List.count_cons_self]
        omega
      have hlt := entered.owned_current.acyclic.height_lt hedge
      have hle := height_rotate_le entered hparent hedge
      simp only [gapStage, rowStage]
      omega

theorem workload_settle_le (entered : Entered m h others current) :
    workload (settleParent m h current).machine (settleParent m h current).heap ≤
      workload m h := by
  cases hparent : m.parent with
  | none => rw [settleParent_idle hparent]
  | some p =>
      have hspec := settleParent_spec entered
      have hheld := entered.held_eq
      rw [hparent] at hheld
      by_cases hloaded : isLoaded h p
      · rw [settleParent_loaded hparent hloaded] at hspec ⊢
        refine workload_le_of_stage_le hspec.unseen.size_eq ?_
          (stage_rotate_le entered hparent hloaded entered.current_eq rfl)
        rw [debt, debt, handleCount_rotate entered hparent, hheld, hspec.settled.held_eq,
          Option.toList_some, List.length_singleton, List.length_cons, List.length_singleton]
      · have hrelease := handleCount_release_le h [p]
        rw [settleParent_emptied hparent hloaded] at hspec ⊢
        refine le_of_lt (workload_lt_of_debt_lt hspec.unseen.size_eq ?_)
        rw [debt, debt, hheld, hspec.settled.held_eq, Option.toList_some]
        change (h.release [p]).1.handleCount + 1 < h.handleCount + 2
        omega

theorem workload_advance_lt (owned : h.Owned (m.held ++ others)) (ready : m.Ready h)
    (hcurrent : m.current = some current) :
    workload (advance m h current).machine (advance m h current).heap < workload m h := by
  have hsize := (advance_kept owned ready hcurrent).unseen.size_eq
  rcases h.enter?_cases current with hrefused | hentered
  · have hrelease := handleCount_release_le h [current]
    rw [advance_refused hrefused] at hsize ⊢
    apply workload_lt_of_debt_lt hsize
    simp only [debt, held, hcurrent, Option.toList_some, Option.toList_none,
      List.append_nil, List.length_append, List.length_singleton]
    omega
  · have entered := entered_of_enter? owned ready hcurrent hentered
    have hsettle := settleParent_spec entered
    rw [advance_entered hentered rfl]
    exact (workload_proceed_lt hsettle.settled (hsettle.slotsOf_ne_nil entered)).trans_le
      (workload_settle_le entered)

/-- With a budget that covers the work, nothing is left to the machine. -/
theorem runFor_done (owned : h.Owned (m.held ++ others)) (ready : m.Ready h) {budget : Nat}
    (hbudget : workload m h ≤ budget) : (runFor budget m h).machine.current = none := by
  induction budget generalizing m h with
  | zero =>
      cases hcurrent : m.current with
      | none => simpa using hcurrent
      | some current =>
          have := workload_advance_lt owned ready hcurrent
          omega
  | succ budget ih =>
      cases hcurrent : m.current with
      | none => rw [runFor_of_done hcurrent, hcurrent]
      | some current =>
          have hkept := advance_kept owned ready hcurrent
          have hlt := workload_advance_lt owned ready hcurrent
          rw [runFor_succ hcurrent]
          exact ih hkept.owned hkept.ready (by omega)

/-! ## A run -/

/-- A machine with nothing left holds no handle. -/
theorem Ready.held_eq_nil (ready : m.Ready h) (hdone : m.current = none) : m.held = [] := by
  have hparent : m.parent = none := by
    by_contra hsome
    obtain ⟨p, hp⟩ := Option.ne_none_iff_exists'.1 hsome
    have := ready.below p hp
    simp [hdone] at this
  rw [held, hdone, hparent]
  rfl

/-- However far a machine has come, a run gives its last handles up: the heap is the one that a
plain release of what it started from leaves, with the same values reported in all. -/
theorem Kept.run_eq {o : Outcome α} (kept : Kept others h o) {work : List NodeId}
    (owned : h.Owned (work ++ others)) :
    (runFor (budget o.heap) o.machine o.heap).machine.held = [] ∧
      (runFor (budget o.heap) o.machine o.heap).heap = (h.release work).1 ∧
      o.values ++ (runFor (budget o.heap) o.machine o.heap).values ~ (h.release work).2 := by
  have hrun := runFor_kept (budget o.heap) kept.owned kept.ready
  have hheld := hrun.ready.held_eq_nil
    (runFor_done kept.owned kept.ready (workload_le_budget o.machine o.heap))
  have hend := hrun.owned
  rw [hheld] at hend
  have heq := (kept.unseen.trans hrun.unseen).release_eq owned hend
  rw [release_nil, List.append_nil] at heq
  exact ⟨hheld, heq⟩

end Dismantler

end SlotTree
