import SlotTree.Proofs.Teardown

/-! # Rows of a single slot

Whatever a step does to the rows of the two nodes that it touches, it leaves none with a single slot
that had more or none before: a row that is passed on or closed up is padded. So below a machine a
node has a single slot only if it had one from the beginning.
-/

namespace SlotTree

universe u

variable {α : Type u}

open List

namespace Dismantler

open Heap

/-- A heap on the way of a dismantling: what is held comes from a set of nodes that no handle leads
out of, and a single slot is found only in rows that had one at the start. -/
structure Tidy (nodes : NodeId → Prop) (first : Heap α) (held : List NodeId) (h : Heap α) :
    Prop where
  closed : ∀ a b, nodes a → h.Edge a b → nodes b
  held : ∀ a ∈ held, nodes a
  sole : ∀ id, (h.slotsOf id).length = 1 → (first.slotsOf id).length = 1

variable {nodes : NodeId → Prop} {first h : Heap α} {m : Dismantler} {holders others : List NodeId}
  {current : NodeId}

/-! ## Changes of rows -/

namespace Tidy

theorem reached (tidy : Tidy nodes first holders h) {id : NodeId} (hid : h.Reached holders id) :
    nodes id := by
  induction hid using Reached.rec_on with
  | held a ha => exact tidy.held a ha
  | edge a b _ hedge ih => exact tidy.closed a b ih hedge

/-- Other handles may be held, if they come from the same set. -/
theorem hold (tidy : Tidy nodes first holders h) (hothers : ∀ a ∈ others, nodes a) :
    Tidy nodes first others h :=
  ⟨tidy.closed, hothers, tidy.sole⟩

theorem setSlots (tidy : Tidy nodes first holders h) {id : NodeId} {row : List Slot}
    (hnodes : ∀ b, some b ∈ row → nodes b)
    (hrow : row.length = 1 → (h.slotsOf id).length = 1) :
    Tidy nodes first holders (h.setSlots id row) := by
  refine ⟨fun a b ha hedge => ?_, tidy.held, fun other hother => ?_⟩
  · rcases edge_setSlots hedge with ⟨-, hb⟩ | ⟨-, hold⟩
    · exact hnodes b hb
    · exact tidy.closed a b ha hold
  · by_cases hsame : other = id
    · subst hsame
      by_cases hlive : h.Live other
      · rw [slotsOf_setSlots_self row hlive] at hother
        exact tidy.sole other (hrow hother)
      · rw [slotsOf_of_not_live (by rwa [live_setSlots])] at hother
        nomatch hother
    · rw [slotsOf_setSlots_other row hsame] at hother
      exact tidy.sole other hother

theorem release (tidy : Tidy nodes first holders h) (work : List NodeId) :
    Tidy nodes first holders (h.release work).1 := by
  have hslots : ∀ id, (h.release work).1.slotsOf id ≠ [] →
      (h.release work).1.slotsOf id = h.slotsOf id := by
    intro id hne
    by_cases hlive : (h.release work).1.Live id
    · exact slotsOf_congr (content?_release hlive)
    · exact absurd (slotsOf_of_not_live hlive) hne
  refine ⟨fun a b ha hedge => ?_, tidy.held, fun id hid => ?_⟩
  · rw [Edge, hslots a (List.ne_nil_of_mem hedge)] at hedge
    exact tidy.closed a b ha hedge
  · rw [hslots id (List.ne_nil_of_length_eq_add_one hid)] at hid
    exact tidy.sole id hid

end Tidy

theorem mem_padSole {slots : List Slot} {id : NodeId} :
    some id ∈ padSole slots ↔ some id ∈ slots := by
  rw [← List.count_pos_iff, count_padSole, List.count_pos_iff]

theorem mem_closeGaps {slots : List Slot} {id : NodeId} :
    some id ∈ closeGaps slots ↔ some id ∈ slots := by
  rw [← List.count_pos_iff, count_closeGaps, List.count_pos_iff]

theorem length_closeGaps_ne_one (slots : List Slot) : (closeGaps slots).length ≠ 1 := by
  rcases closeGaps_cases slots with hrow | ⟨left, hrow⟩ | ⟨left, right, rest, hrow⟩ <;>
    simp [hrow]

/-! ## Steps -/

/-- After a rotation both rows have two slots at least. -/
theorem Tidy.rotate (tidy : Tidy nodes first (current :: m.parent.toList) h)
    (entered : Entered m h others current) {p : NodeId} (hparent : m.parent = some p)
    (hloaded : isLoaded h p) :
    Tidy nodes first (current :: m.parent.toList) (Dismantler.rotate h current p) := by
  obtain ⟨left, right, extra, hrow⟩ := padSole_cases entered.slotsOf_current
  obtain ⟨above, habove⟩ := entered.ready.vacated p hparent
  have hcurrent : nodes current := tidy.held current List.mem_cons_self
  have hp : nodes p := tidy.held p (by simp [hparent])
  have hpassed : ∀ b, some b ∈ left :: right :: extra → nodes b := by
    intro b hb
    rw [← hrow, mem_padSole] at hb
    exact tidy.closed current b hcurrent hb
  have hheld : ∀ b, some b ∈ above → nodes b := by
    intro b hb
    refine tidy.closed p b hp ?_
    rw [Edge, habove]
    exact List.mem_cons_of_mem _ hb
  have hsecond : above ≠ [] := by
    rintro rfl
    simp [isLoaded, habove] at hloaded
  rw [rotate_eq hrow habove]
  refine (tidy.setSlots (fun b hb => ?_) (by simp)).setSlots (fun b hb => ?_) fun hlength => ?_
  · rcases List.mem_cons.1 hb with hleft | hb
    · exact hpassed b (hleft ▸ List.mem_cons_self)
    · obtain rfl : b = p := by simpa using hb
      exact hp
  · rcases List.mem_append.1 hb with hb | hb
    · rcases List.mem_cons.1 hb with hright | hb
      · exact hpassed b (by simp [hright])
      · exact hheld b hb
    · exact hpassed b (by simp [hb])
  · exact absurd hlength (by simp [hsecond])

theorem Tidy.settle (tidy : Tidy nodes first m.held h) (entered : Entered m h others current) :
    Tidy nodes first [current] (settleParent m h current).heap := by
  rw [entered.held_eq] at tidy
  have hcurrent : ∀ a ∈ [current], nodes a := fun a ha =>
    tidy.held a (List.mem_cons.2 (.inl (List.mem_singleton.1 ha)))
  cases hparent : m.parent with
  | none =>
      rw [settleParent_idle hparent]
      exact tidy.hold hcurrent
  | some p =>
      by_cases hloaded : isLoaded h p
      · rw [settleParent_loaded hparent hloaded]
        exact (tidy.rotate entered hparent hloaded).hold hcurrent
      · rw [settleParent_emptied hparent hloaded]
        exact (tidy.release [p]).hold hcurrent

theorem Tidy.proceed (tidy : Tidy nodes first [current] h)
    (settled : Settled m h others current) :
    Tidy nodes first (proceed m h current).machine.held (proceed m h current).heap := by
  have hcurrent : nodes current := tidy.held current List.mem_cons_self
  have hbelow : ∀ b, some b ∈ h.slotsOf current → nodes b := fun b hb =>
    tidy.closed current b hcurrent hb
  rcases row_cases (h.slotsOf current) with ⟨left, rest, hrow⟩ | ⟨right, hrow⟩ | ⟨hleft, hright⟩
  · rw [proceed_down hrow]
    rw [hrow] at hbelow
    -- Down: the row keeps its length.
    refine (tidy.setSlots (fun b hb => ?_) fun hlength => ?_).hold fun a ha => ?_
    · exact hbelow b (List.mem_cons_of_mem _ (by simpa using hb))
    · simpa [hrow] using hlength
    · rcases List.mem_cons.1 ha with rfl | ha
      · exact hbelow a List.mem_cons_self
      · obtain rfl := List.mem_singleton.1 ha
        exact hcurrent
  · rw [proceed_right hrow]
    rw [hrow] at hbelow
    -- On to the right: the node is left behind with two holes.
    refine ((tidy.setSlots (by simp) (by simp)).release [current]).hold fun a ha => ?_
    apply hbelow a
    cases right <;> simp_all [Dismantler.held, settled.parent_eq]
  · rw [proceed_close hleft hright]
    refine (tidy.setSlots (fun b hb => hbelow b (mem_closeGaps.1 hb)) fun hlength => ?_).hold ?_
    · exact absurd hlength (length_closeGaps_ne_one _)
    · change ∀ a ∈ m.held, nodes a
      rw [settled.held_eq]
      exact tidy.held

theorem Tidy.advance (tidy : Tidy nodes first m.held h) (owned : h.Owned (m.held ++ others))
    (ready : m.Ready h) (hcurrent : m.current = some current) :
    Tidy nodes first (advance m h current).machine.held (advance m h current).heap := by
  rcases h.enter?_cases current with hrefused | hentered
  · rw [advance_refused hrefused]
    refine (tidy.release [current]).hold fun a ha => tidy.held a ?_
    rw [Dismantler.held, hcurrent]
    exact List.mem_append_right _ (by simpa [Dismantler.held] using ha)
  · have entered := entered_of_enter? owned ready hcurrent hentered
    have hsettle : Tidy nodes first [current]
        (settleParent { m with steps := m.steps + 1 } h current).heap := Tidy.settle tidy entered
    rw [advance_entered hentered rfl]
    exact hsettle.proceed (settleParent_spec entered).settled

theorem Tidy.runFor (tidy : Tidy nodes first m.held h) (owned : h.Owned (m.held ++ others))
    (ready : m.Ready h) (budget : Nat) :
    Tidy nodes first (runFor budget m h).machine.held (runFor budget m h).heap :=
  runFor_preserves (P := fun m h => Tidy nodes first m.held h)
    (fun owned ready hcurrent tidy => tidy.advance owned ready hcurrent) owned ready tidy budget

/-! ## A dismantling -/

/-- After any number of steps, a node below the machine that has a single slot is a node of the
tree it started on that had a single slot then. If that tree had none, there is none. -/
theorem single_slots_old {s : Slot} (owned : h.Owned (s.toList ++ others)) (steps : Nat) :
    let o := Dismantler.runFor steps (start s) h
    (∀ id, o.heap.Reached o.machine.held id → (o.heap.slotsOf id).length = 1 →
      h.Reached s.toList id ∧ (h.slotsOf id).length = 1) ∧
    ((∀ id, h.Reached s.toList id → (h.slotsOf id).length ≠ 1) →
      ∀ id, o.heap.Reached o.machine.held id → (o.heap.slotsOf id).length ≠ 1) := by
  intro o
  have hfirst : Tidy (h.Reached s.toList) h (start s).held h := by
    refine ⟨fun a b ha hedge => ha.edge hedge, fun a ha => ?_, fun id hid => hid⟩
    rw [held_start] at ha
    exact reached_of_mem h ha
  have tidy := hfirst.runFor (by rwa [held_start]) (ready_start s h) steps
  have hold : ∀ id, o.heap.Reached o.machine.held id → (o.heap.slotsOf id).length = 1 →
      h.Reached s.toList id ∧ (h.slotsOf id).length = 1 := fun id hid hsole =>
    ⟨tidy.reached hid, tidy.sole id hsole⟩
  refine ⟨hold, fun hnone id hid hsole => ?_⟩
  obtain ⟨hreach, hsingle⟩ := hold id hid hsole
  exact hnone id hreach hsingle

/-- A root with a single child after two holes. -/
def spaced : Heap Nat := ⟨.unique, #[some ⟨1, 2, []⟩, some ⟨1, 1, [none, none, some 0]⟩]⟩

theorem owned_spaced : spaced.Owned [1] := by
  have hleaf : ((empty .unique).alloc 2 []).1.Owned [0] := (owned_empty .unique).alloc 2
  exact @Owned.alloc _ _ [] [none, none, some 0] hleaf 1

/-- Once its gaps are closed, the root has a hole beside the child. -/
theorem single_slots_old_spaced :
    spaced.Owned ((some 1).toList ++ []) ∧
    (∀ id, spaced.Reached [1] id → (spaced.slotsOf id).length ≠ 1) ∧
    (runFor 1 (start (some 1)) spaced).heap.slotsOf 1 = [some 0, none] ∧
    ∀ steps id, (runFor steps (start (some 1)) spaced).heap.Reached
      (runFor steps (start (some 1)) spaced).machine.held id →
        ((runFor steps (start (some 1)) spaced).heap.slotsOf id).length ≠ 1 := by
  have hnone : ∀ id, spaced.Reached [1] id → (spaced.slotsOf id).length ≠ 1 := by
    rintro (_ | _ | id) -
    · decide
    · decide
    · exact Nat.zero_ne_one
  exact ⟨owned_spaced, hnone, by decide +kernel, fun steps =>
    (single_slots_old owned_spaced steps).2 hnone⟩

end Dismantler

end SlotTree
