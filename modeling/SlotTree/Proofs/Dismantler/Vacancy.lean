import SlotTree.Proofs.Dismantler.Termination

/-! # What a step drops

A step drops the current node, the parent, or both. It drops the current node where the machine has
taken everything out of it or cannot enter it, but of the parent it looks at two slots only: a node
in a later slot is released together with the parent.
-/

namespace SlotTree

universe u

variable {α : Type u}

open List

namespace Dismantler

open Heap

/-- A handle that is given up, and the heap at that moment. -/
structure Drop (α : Type u) where
  heap : Heap α
  id : NodeId

/-- The last handle to a node goes only when all slots of the node are holes. -/
def Drop.Vacant (d : Drop α) : Prop :=
  d.heap.countOf d.id = 1 → ∀ s ∈ d.heap.slotsOf d.id, s = none

/-- The values that die with a drop. -/
def Drop.values (d : Drop α) : List α := (d.heap.release [d.id]).2

def settleDrops (m : Dismantler) (h : Heap α) : List (Drop α) :=
  match m.parent with
  | none => []
  | some p => if isLoaded h p then [] else [⟨h, p⟩]

def proceedDrops (h : Heap α) (current : NodeId) : List (Drop α) :=
  match h.slotsOf current with
  | [none, _] => [⟨h.setSlots current [none, none], current⟩]
  | _ => []

/-- The drops of a step, in order. -/
def drops (m : Dismantler) (h : Heap α) (current : NodeId) : List (Drop α) :=
  match h.enter? (some current) with
  | none => [⟨h, current⟩]
  | some _ => settleDrops m h ++ proceedDrops (settleParent m h current).heap current

/-- A row holds a node beyond an empty second slot. -/
def Overhanging (row : List Slot) : Prop := row[1]?.join = none ∧ ∃ s ∈ row.drop 2, s ≠ none

instance (row : List Slot) : Decidable (Overhanging row) :=
  inferInstanceAs (Decidable (_ ∧ _))

/-- The current node is entered while a parent waits whose row is overhanging. -/
def Overhangs (m : Dismantler) (h : Heap α) (current : NodeId) : Prop :=
  h.enter? (some current) = some current ∧
    ∃ p, m.parent = some p ∧ Overhanging (h.slotsOf p)

variable {m : Dismantler} {h : Heap α} {others : List NodeId} {current : NodeId}

/-! ## Drops of a step -/

theorem settleParent_values (m : Dismantler) (h : Heap α) (current : NodeId) :
    (settleParent m h current).values = (settleDrops m h).flatMap Drop.values := by
  cases hparent : m.parent with
  | none => simp [settleParent_idle hparent, settleDrops, hparent]
  | some p =>
      by_cases hloaded : isLoaded h p
      · simp [settleParent_loaded hparent hloaded, settleDrops, hparent, hloaded]
      · simp [settleParent_emptied hparent hloaded, settleDrops, hparent, hloaded, Drop.values]

theorem proceed_values (m : Dismantler) (h : Heap α) (current : NodeId) :
    (proceed m h current).values = (proceedDrops h current).flatMap Drop.values := by
  rcases row_cases (h.slotsOf current) with ⟨left, rest, hrow⟩ | ⟨right, hrow⟩ | ⟨hleft, hright⟩
  · simp [proceed_down hrow, proceedDrops, hrow]
  · simp [proceed_right hrow, proceedDrops, hrow, Drop.values]
  · have hnone : proceedDrops h current = [] := by
      unfold proceedDrops
      split
      · next right hrow => exact absurd hrow (hright right)
      · rfl
    simp [proceed_close hleft hright, hnone]

/-- Settling does not look at the counters. -/
theorem settleParent_steps (m : Dismantler) (h : Heap α) (current : NodeId) (steps : Nat) :
    (settleParent { m with steps := steps } h current).heap = (settleParent m h current).heap ∧
      (settleParent { m with steps := steps } h current).values =
        (settleParent m h current).values := by
  cases hparent : m.parent with
  | none => simp [settleParent, hparent]
  | some p => by_cases hloaded : isLoaded h p <;> simp [settleParent, hparent, hloaded]

/-- The values that die in a step are those that die with its drops. -/
theorem advance_values (m : Dismantler) (h : Heap α) (current : NodeId) :
    (advance m h current).values = (drops m h current).flatMap Drop.values := by
  rcases h.enter?_cases current with hrefused | hentered
  · simp [advance_refused hrefused, drops, hrefused, Drop.values]
  · obtain ⟨hheap, hvalues⟩ := settleParent_steps m h current (m.steps + 1)
    rw [advance_entered hentered rfl]
    simp only [drops, hentered, List.flatMap_append, proceed_values, hheap, hvalues,
      settleParent_values]

theorem settleDrops_ids (m : Dismantler) (h : Heap α) :
    (settleDrops m h).map Drop.id <+ m.parent.toList := by
  cases hparent : m.parent with
  | none => simp [settleDrops, hparent]
  | some p => by_cases hloaded : isLoaded h p <;> simp [settleDrops, hparent, hloaded]

theorem proceedDrops_ids (h : Heap α) (current : NodeId) :
    (proceedDrops h current).map Drop.id <+ [current] := by
  unfold proceedDrops
  split <;> simp

/-- A step drops the parent and the current node at most. -/
theorem drops_ids (m : Dismantler) (h : Heap α) (current : NodeId) :
    (drops m h current).map Drop.id <+ m.parent.toList ++ [current] := by
  cases hentered : h.enter? (some current) with
  | none => simp [drops, hentered]
  | some node =>
      simp only [drops, hentered, List.map_append]
      exact (settleDrops_ids m h).append (proceedDrops_ids _ current)

/-! ## Vacant drops -/

/-- A vacant drop frees no other node. -/
theorem Drop.Vacant.values_le {d : Drop α} (hvacant : d.Vacant) {holders : List NodeId}
    (owned : d.heap.Owned (d.id :: holders)) : d.values.length ≤ 1 := by
  obtain ⟨n, hn⟩ := live_iff.1 (owned.live_of_mem (List.mem_cons_self))
  have hpos := owned.countOf_pos (List.mem_cons_self)
  rw [countOf_eq hn] at hpos
  by_cases hmore : 1 < n.count
  · rw [Drop.values, release_lower hn hmore, release_nil]
    exact Nat.zero_le 1
  · have hone : d.heap.countOf d.id = 1 := by
      rw [countOf_eq hn]
      omega
    have hholes := hvacant hone
    rw [slotsOf_eq hn] at hholes
    have hbare : n.handles = [] := by
      rw [Node.handles, List.filterMap_eq_nil_iff]
      intro s hs
      exact hholes s hs
    rw [Drop.values, release_last hn hmore, hbare, List.append_nil, release_nil]
    exact le_refl 1

theorem Entered.isLoaded_iff (entered : Entered m h others current) {p : NodeId}
    (hparent : m.parent = some p) : isLoaded h p ↔ (h.slotsOf p)[1]?.join ≠ none := by
  have hexclusive : h.isExclusive p :=
    entered.owned.isExclusive_iff.2 (entered.ready.sole p hparent)
  rw [isLoaded, hexclusive, Bool.true_and, Option.isSome_iff_ne_none]

/-- Besides the vacated first slot, the parent holds nothing if its row is not overhanging. -/
theorem Entered.vacant_parent_iff (entered : Entered m h others current) {p : NodeId}
    (hparent : m.parent = some p) (hloaded : ¬ isLoaded h p) :
    Drop.Vacant ⟨h, p⟩ ↔ ¬ Overhanging (h.slotsOf p) := by
  obtain ⟨above, habove⟩ := entered.ready.vacated p hparent
  rw [entered.isLoaded_iff hparent, not_not, habove] at hloaded
  have hsole := entered.ready.sole p hparent
  rw [Drop.Vacant, Overhanging, habove]
  match above with
  | [] => simp [hsole]
  | none :: rest => simp [hsole]
  | some id :: rest => simp at hloaded

theorem mem_settleDrops {d : Drop α} :
    d ∈ settleDrops m h ↔ ∃ p, m.parent = some p ∧ ¬ isLoaded h p ∧ d = ⟨h, p⟩ := by
  cases hparent : m.parent with
  | none => simp [settleDrops, hparent]
  | some p => by_cases hloaded : isLoaded h p <;> simp [settleDrops, hparent, hloaded]

theorem mem_proceedDrops {d : Drop α} (hd : d ∈ proceedDrops h current) :
    ∃ right, h.slotsOf current = [none, right] ∧
      d = ⟨h.setSlots current [none, none], current⟩ := by
  unfold proceedDrops at hd
  split at hd
  · next right hrow => exact ⟨right, hrow, List.mem_singleton.1 hd⟩
  · simp at hd

/-- A node that is left behind with two slots holds nothing. -/
theorem vacant_of_mem_proceedDrops (settled : Settled m h others current) {d : Drop α}
    (hd : d ∈ proceedDrops h current) : d.Vacant ∧ ∃ holders, d.heap.Owned (d.id :: holders) := by
  obtain ⟨right, hrow, rfl⟩ := mem_proceedDrops hd
  refine ⟨fun _ s hs => ?_, right.toList ++ others, owned_right settled hrow⟩
  rw [slotsOf_setSlots_self _ settled.live] at hs
  simpa using hs

/-- A node that is not entered for its slots has none. -/
theorem vacant_refused (owned : h.Owned others) (hrefused : h.enter? (some current) = none) :
    Drop.Vacant ⟨h, current⟩ := by
  intro hone s hs
  rw [enter?_eq_none.1 hrefused (owned.isExclusive_iff.2 hone)] at hs
  simp at hs

/-- What the drops of a step are. -/
structure DropSpec (m : Dismantler) (h : Heap α) (current : NodeId) : Prop where
  values_eq : (advance m h current).values = (drops m h current).flatMap Drop.values
  ids : (drops m h current).map Drop.id <+ m.parent.toList ++ [current]
  vacant_iff : (∀ d ∈ drops m h current, d.Vacant) ↔ ¬ Overhangs m h current
  single : ∀ d ∈ drops m h current, d.Vacant → d.values.length ≤ 1

theorem drop_spec_refused (owned : h.Owned (m.held ++ others)) (hcurrent : m.current = some current)
    (hrefused : h.enter? (some current) = none) : DropSpec m h current := by
  have hdrops : drops m h current = [⟨h, current⟩] := by simp [drops, hrefused]
  have hvacant := vacant_refused owned hrefused
  refine ⟨advance_values m h current, drops_ids m h current, ⟨fun _ hover => ?_, ?_⟩, ?_⟩
  · have hself := hover.1
    simp [hrefused] at hself
  · intro _ d hd
    rw [hdrops, List.mem_singleton] at hd
    rwa [hd]
  · intro d hd hvacant
    rw [hdrops, List.mem_singleton] at hd
    subst hd
    rw [held, hcurrent] at owned
    exact hvacant.values_le owned

theorem drop_spec_entered (entered : Entered m h others current) : DropSpec m h current := by
  have hsettled := (settleParent_spec entered).settled
  have hdrops : drops m h current =
      settleDrops m h ++ proceedDrops (settleParent m h current).heap current := by
    simp [drops, entered.entered]
  refine ⟨advance_values m h current, drops_ids m h current, ⟨?_, ?_⟩, ?_⟩
  · rintro hvacant ⟨-, p, hparent, hover⟩
    have hloaded : ¬ isLoaded h p := by
      rw [entered.isLoaded_iff hparent, not_not]
      exact hover.1
    refine (entered.vacant_parent_iff hparent hloaded).1 (hvacant ⟨h, p⟩ ?_) hover
    rw [hdrops]
    exact List.mem_append_left _ (mem_settleDrops.2 ⟨p, hparent, hloaded, rfl⟩)
  · intro hover d hd
    rw [hdrops] at hd
    rcases List.mem_append.1 hd with hsettle | hproceed
    · obtain ⟨p, hparent, hloaded, rfl⟩ := mem_settleDrops.1 hsettle
      apply (entered.vacant_parent_iff hparent hloaded).2
      intro hrow
      exact hover ⟨entered.entered, p, hparent, hrow⟩
    · exact (vacant_of_mem_proceedDrops hsettled hproceed).1
  · intro d hd hvacant
    rw [hdrops] at hd
    rcases List.mem_append.1 hd with hsettle | hproceed
    · obtain ⟨p, hparent, -, rfl⟩ := mem_settleDrops.1 hsettle
      exact hvacant.values_le (entered.owned_parent hparent)
    · obtain ⟨holders, hheld⟩ := (vacant_of_mem_proceedDrops hsettled hproceed).2
      exact hvacant.values_le hheld

theorem drop_spec (owned : h.Owned (m.held ++ others)) (ready : m.Ready h)
    (hcurrent : m.current = some current) : DropSpec m h current := by
  rcases h.enter?_cases current with hrefused | hentered
  · exact drop_spec_refused owned hcurrent hrefused
  · exact drop_spec_entered ⟨owned, ready, hcurrent, hentered⟩

/-! ## Trees without overhanging rows -/

/-- No node that only the machine reaches has an overhanging row. -/
def Trim (others : List NodeId) (h : Heap α) : Prop :=
  ∀ id, ¬ h.Reached others id → ¬ Overhanging (h.slotsOf id)

theorem Trim.setSlots (trim : Trim others h) {id : NodeId} (hid : ¬ h.Reached others id)
    {row : List Slot} (hrow : ¬ Overhanging row) : Trim others (h.setSlots id row) := by
  intro other hother
  rw [(unseen_setSlots row hid).reached_iff] at hother
  by_cases hsame : other = id
  · subst hsame
    by_cases hlive : h.Live other
    · rwa [slotsOf_setSlots_self row hlive]
    · rw [slotsOf_of_not_live (by rwa [live_setSlots])]
      simp [Overhanging]
  · rw [slotsOf_setSlots_other row hsame]
    exact trim other hother

theorem Trim.release (trim : Trim others h) {work holders : List NodeId}
    (owned : h.Owned (work ++ holders)) (hsub : others ⊆ holders) :
    Trim others (h.release work).1 := by
  intro id hid
  rw [(owned.unseen_release.mono hsub).reached_iff] at hid
  by_cases hlive : (h.release work).1.Live id
  · rw [slotsOf_congr (content?_release hlive)]
    exact trim id hid
  · rw [slotsOf_of_not_live hlive]
    simp [Overhanging]

/-- A rotation fills the second slots of both nodes. -/
theorem Trim.settle (trim : Trim others h) (entered : Entered m h others current) :
    Trim others (settleParent m h current).heap := by
  cases hparent : m.parent with
  | none => rwa [settleParent_idle hparent]
  | some p =>
      by_cases hloaded : isLoaded h p
      · obtain ⟨left, right, extra, hrow⟩ := padSole_cases entered.slotsOf_current
        obtain ⟨above, habove⟩ := entered.ready.vacated p hparent
        have hfirst : Trim others
            (h.setSlots current (left :: some p :: extra.map fun _ => none)) :=
          trim.setSlots entered.not_reached_current (by simp [Overhanging])
        have hsecond : ¬ Overhanging (right :: above ++ extra) := by
          rw [entered.isLoaded_iff hparent, habove] at hloaded
          cases above with
          | nil => simp at hloaded
          | cons second rest =>
              cases second with
              | none => simp at hloaded
              | some id => simp [Overhanging]
        have hclear : ¬ (h.setSlots current (left :: some p :: extra.map fun _ => none)).Reached
            others p := by
          rw [(unseen_setSlots _ entered.not_reached_current).reached_iff]
          exact entered.not_reached_parent hparent
        rw [settleParent_loaded hparent hloaded]
        simp only [rotate_eq hrow habove]
        exact hfirst.setSlots hclear hsecond
      · rw [settleParent_emptied hparent hloaded]
        exact trim.release (entered.owned_parent hparent) (List.subset_cons_self _ _)

theorem Trim.proceed (trim : Trim others h) (settled : Settled m h others current) :
    Trim others (proceed m h current).heap := by
  rcases row_cases (h.slotsOf current) with ⟨left, rest, hrow⟩ | ⟨right, hrow⟩ | ⟨hleft, hright⟩
  · have hold := trim current settled.not_reached
    rw [hrow] at hold
    rw [proceed_down hrow]
    exact trim.setSlots settled.not_reached hold
  · have hpair : Trim others (h.setSlots current [none, none]) :=
      trim.setSlots settled.not_reached (by simp [Overhanging])
    rw [proceed_right hrow]
    exact hpair.release (owned_right settled hrow) (List.subset_append_right _ _)
  · rw [proceed_close hleft hright]
    apply trim.setSlots settled.not_reached
    rcases closeGaps_cases (h.slotsOf current) with hrow | ⟨left, hrow⟩ | ⟨left, right, rest, hrow⟩
    all_goals
      rw [hrow]
      simp [Overhanging]

theorem Trim.advance (trim : Trim others h) (owned : h.Owned (m.held ++ others))
    (ready : m.Ready h) (hcurrent : m.current = some current) :
    Trim others (advance m h current).heap := by
  rcases h.enter?_cases current with hrefused | hentered
  · rw [advance_refused hrefused]
    rw [held, hcurrent, List.append_assoc] at owned
    exact trim.release owned (List.subset_append_right _ _)
  · have entered := entered_of_enter? owned ready hcurrent hentered
    rw [advance_entered hentered rfl]
    exact (trim.settle entered).proceed (settleParent_spec entered).settled

theorem Trim.runFor (trim : Trim others h) (owned : h.Owned (m.held ++ others))
    (ready : m.Ready h) (budget : Nat) : Trim others (runFor budget m h).heap :=
  runFor_preserves (P := fun _ h => Trim others h)
    (fun owned ready hcurrent trim => trim.advance owned ready hcurrent) owned ready trim budget

/-- Where all rows are trim, no step finds an overhanging parent. -/
theorem Trim.not_overhangs (trim : Trim others h) (owned : h.Owned (m.held ++ others))
    (ready : m.Ready h) (hcurrent : m.current = some current) : ¬ Overhangs m h current := by
  rintro ⟨hentered, p, hparent, hrow⟩
  have entered : Entered m h others current := ⟨owned, ready, hcurrent, hentered⟩
  exact trim p (entered.not_reached_parent hparent) hrow

/-! ## The drops of a dismantling -/

/-- At every step of a dismantling, the current node and the parent are dropped at most, and every
last handle meets holes only, with a single exception: a parent with a node beyond an empty second
slot is released together with that node. If no row of the tree is overhanging in the beginning, no
step meets one. -/
theorem drops_vacant_unless_overhanging {s : Slot} (owned : h.Owned (s.toList ++ others))
    (steps : Nat) (hcurrent : (runFor steps (start s) h).machine.current = some current) :
    DropSpec (runFor steps (start s) h).machine (runFor steps (start s) h).heap current ∧
      (Trim others h → ∀ d ∈ drops (runFor steps (start s) h).machine
        (runFor steps (start s) h).heap current, d.Vacant) := by
  have hheld : (start s).held = s.toList := List.append_nil _
  rw [← hheld] at owned
  have hkept := runFor_kept steps owned (ready_start s h)
  have hspec := drop_spec hkept.owned hkept.ready hcurrent
  refine ⟨hspec, fun trim => hspec.vacant_iff.2 ?_⟩
  exact (trim.runFor owned (ready_start s h) steps).not_overhangs hkept.owned hkept.ready hcurrent

/-- A root with a hole between two children. -/
def gapped : Heap Nat :=
  ⟨.unique, #[some ⟨1, 4, []⟩, some ⟨1, 2, [some 0]⟩, some ⟨1, 5, []⟩, some ⟨1, 3, [some 2]⟩,
    some ⟨1, 1, [some 1, none, some 3]⟩]⟩

theorem owned_gapped : gapped.Owned [4] := by
  have hleaf : (⟨.unique, #[some ⟨1, 4, []⟩]⟩ : Heap Nat).Owned [0] :=
    @Owned.alloc _ _ [] [] (owned_empty .unique) 4
  have hleft : (⟨.unique, #[some ⟨1, 4, []⟩, some ⟨1, 2, [some 0]⟩]⟩ : Heap Nat).Owned [1] :=
    @Owned.alloc _ _ [] [some 0] hleaf 2
  have hother : (⟨.unique, #[some ⟨1, 4, []⟩, some ⟨1, 2, [some 0]⟩, some ⟨1, 5, []⟩]⟩ :
      Heap Nat).Owned [2, 1] := @Owned.alloc _ _ [1] [] hleft 5
  have hboth : (⟨.unique, #[some ⟨1, 4, []⟩, some ⟨1, 2, [some 0]⟩, some ⟨1, 5, []⟩,
      some ⟨1, 3, [some 2]⟩]⟩ : Heap Nat).Owned [3, 1] := @Owned.alloc _ _ [1] [some 2] hother 3
  exact @Owned.alloc _ _ [] [some 1, none, some 3] (hboth.perm (List.Perm.swap _ _ _)) 1

theorem drops_vacant_unless_overhanging_gapped :
    gapped.Owned ((some 4).toList ++ []) ∧
      (runFor 1 (start (some 4)) gapped).machine.current = some 1 ∧
      Overhangs (runFor 1 (start (some 4)) gapped).machine
        (runFor 1 (start (some 4)) gapped).heap 1 ∧
      ¬ ∀ d ∈ drops (runFor 1 (start (some 4)) gapped).machine
        (runFor 1 (start (some 4)) gapped).heap 1, d.Vacant := by
  have hover : Overhangs (runFor 1 (start (some 4)) gapped).machine
      (runFor 1 (start (some 4)) gapped).heap 1 :=
    ⟨rfl, 4, rfl, by decide⟩
  refine ⟨owned_gapped, rfl, hover, fun hvacant => ?_⟩
  exact (drops_vacant_unless_overhanging owned_gapped 1 rfl).1.vacant_iff.1 hvacant hover

example : (runFor 2 (start (some 4)) gapped).values = [1, 3, 5] := by cbv

end Dismantler

end SlotTree
