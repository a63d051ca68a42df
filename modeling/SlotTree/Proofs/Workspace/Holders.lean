import SlotTree.Proofs.Heap.Private
import SlotTree.Proofs.Teardown
import SlotTree.Proofs.Workspace.Registry
import SlotTree.Workspace.Basic

/-! # The holders of a workspace

Handles are held by registers, by dismantlers, and, while a command is at work, in its hand. A sound
workspace is owned by these. What a command does is told from the workspace where it started: which
values it brought along, and which died without being in the journal yet.
-/

namespace SlotTree.Workspace

open List Heap Event

/-- The handles in registers. -/
def inRegisters (r : Registry Slot) : List NodeId := (r.entries.map (·.2)).reduceOption

/-- The handles that dismantlers hold. -/
def inMachines (r : Registry Dismantler) : List NodeId := r.entries.flatMap fun e => e.2.held

def holders (w : Workspace) : List NodeId := inRegisters w.registers ++ inMachines w.machines

/-- A node waits as the parent of a dismantler. -/
def Waits (w : Workspace) (p : NodeId) : Prop := ∃ e ∈ w.machines.entries, e.2.parent = some p

/-- A workspace in good order, with some handles in hand. -/
structure Sound (hand : List NodeId) (w : Workspace) : Prop where
  owned : w.heap.Owned (hand ++ w.holders)
  ready : ∀ e ∈ w.machines.entries, e.2.Ready w.heap
  registers : w.registers.Sorted
  machines : w.machines.Sorted

/-- The values in nodes, and those that the journal reports as dead. -/
def accounted (w : Workspace) : List Value := releasedIn w.journal.toList ++ w.heap.values

/-- A workspace on the way from another, sound with some handles in hand. No node came back to life
meanwhile, and every value that was there or was supplied is still there or was reported, in the
journal or among those that are seen elsewhere. -/
structure Stage (start : Workspace) (hand : List NodeId) (supplied seen : List Value)
    (w : Workspace) : Prop where
  sound : Sound hand w
  policy_eq : w.heap.policy = start.heap.policy
  size_le : start.heap.cells.size ≤ w.heap.cells.size
  old : ∀ id < start.heap.cells.size, w.heap.Live id → start.heap.Live id
  ledger : seen ++ w.accounted ~ supplied ++ start.accounted

variable {w start : Workspace} {hand after : List NodeId} {supplied seen : List Value}

theorem sound_empty (p : Policy) : Sound [] (empty p) :=
  ⟨owned_empty p, by simp [empty, Registry.empty], Registry.sorted_empty, Registry.sorted_empty⟩

theorem Sound.stage (sound : Sound hand w) : Stage w hand [] [] w :=
  ⟨sound, rfl, le_refl _, fun _ _ hid => hid, .refl _⟩

/-! ## Handles in registries -/

theorem inRegisters_perm {r : Registry Slot} (sorted : r.Sorted) (name : String) :
    inRegisters r ~ [(r.get? name).join].reduceOption ++ inRegisters (r.erase name) := by
  have hperm := ((sorted.entries_perm name).map fun e => e.2).filterMap id
  simp only [List.map_append, List.filterMap_append] at hperm
  refine hperm.trans (List.Perm.of_eq (congrArg (· ++ _) ?_))
  unfold Registry.entryOf
  cases r.get? name <;> rfl

theorem inRegisters_insert {r : Registry Slot} (sorted : r.Sorted) (name : String) (s : Slot) :
    inRegisters (r.insert name s) ~ [s].reduceOption ++ inRegisters (r.erase name) := by
  have hperm := ((sorted.insert_perm name s).map fun e => e.2).filterMap id
  refine hperm.trans (List.Perm.of_eq ?_)
  cases s <;> rfl

theorem inMachines_perm {r : Registry Dismantler} (sorted : r.Sorted) (name : String) :
    inMachines r ~ (r.get? name).elim [] Dismantler.held ++ inMachines (r.erase name) := by
  have hperm := (sorted.entries_perm name).flatMap_right fun e => e.2.held
  unfold Registry.entryOf at hperm
  cases hget : r.get? name <;> simpa [inMachines, hget] using hperm

theorem inMachines_insert {r : Registry Dismantler} (sorted : r.Sorted) (name : String)
    (m : Dismantler) :
    inMachines (r.insert name m) ~ m.held ++ inMachines (r.erase name) := by
  simpa [inMachines] using (sorted.insert_perm name m).flatMap_right fun e => e.2.held

/-! ## What a change of the heap keeps -/

theorem Waits.mem_inMachines {p : NodeId} (waits : w.Waits p) : p ∈ inMachines w.machines := by
  obtain ⟨e, he, hp⟩ := waits
  exact List.mem_flatMap.2 ⟨e, he, List.mem_append_right _ (by simp [hp])⟩

theorem Waits.mem_holders {p : NodeId} (waits : w.Waits p) : p ∈ hand ++ w.holders :=
  List.mem_append_right _ (List.mem_append_right _ waits.mem_inMachines)

/-- A waiting parent is held once, by its machine. -/
theorem Sound.not_waits (sound : Sound hand w) {id : NodeId}
    (hid : id ∈ inRegisters w.registers ∨ ∃ a, w.heap.Edge a id) : ¬ w.Waits id := by
  intro waits
  have hheld := List.count_pos_iff.2 waits.mem_inMachines
  obtain ⟨e, he, hparent⟩ := waits
  have hsole := (sound.ready e he).sole id hparent
  have hcounted := sound.owned.counted id
  simp only [holders, List.count_append] at hcounted
  rcases hid with hregister | hslot
  · have := List.count_pos_iff.2 hregister
    omega
  · have := handlesTo_pos_iff.2 hslot
    omega

/-- A machine stays ready where its parent keeps its row and gets no further handle. -/
theorem ready_of_frame {m : Dismantler} {h k : Heap Value} (ready : m.Ready h)
    (hslots : ∀ p, m.parent = some p → k.slotsOf p = h.slotsOf p)
    (hcount : ∀ p, m.parent = some p → k.countOf p ≤ h.countOf p)
    (hlive : ∀ p, m.parent = some p → 0 < k.countOf p) : m.Ready k := by
  refine ⟨ready.below, fun p hp => ?_, fun p hp => ?_⟩
  · have hone := ready.sole p hp
    have hle := hcount p hp
    have hpos := hlive p hp
    omega
  · rw [hslots p hp]
    exact ready.vacated p hp

theorem ready_of_unseen {m : Dismantler} {h k : Heap Value} {view owners : List NodeId}
    {values : List Value} (ready : m.Ready h) (unseen : Unseen view h k values)
    (hview : ∀ p, m.parent = some p → p ∈ view) (owned : k.Owned owners)
    (howned : ∀ p, m.parent = some p → p ∈ owners) : m.Ready k := by
  refine ready_of_frame ready (fun p hp => ?_) (fun p _ => unseen.count_le p) fun p hp => ?_
  · exact slotsOf_congr (unseen.content_eq p (reached_of_mem h (hview p hp)))
  · exact owned.countOf_pos (howned p hp)

/-- The machines of a workspace stay ready where the waiting parents are left alone. -/
theorem Sound.ready_frame (sound : Sound hand w) {k : Heap Value}
    (owned : k.Owned (after ++ w.holders))
    (hframe : ∀ p, w.Waits p →
      k.slotsOf p = w.heap.slotsOf p ∧ k.countOf p ≤ w.heap.countOf p) :
    ∀ e ∈ w.machines.entries, e.2.Ready k := by
  intro e he
  apply ready_of_frame (sound.ready e he)
  · exact fun p hp => (hframe p ⟨e, he, hp⟩).1
  · exact fun p hp => (hframe p ⟨e, he, hp⟩).2
  · exact fun p hp => owned.countOf_pos (Waits.mem_holders ⟨e, he, hp⟩)

/-- What an update of the heap keeps, if it gives up what it takes and the waiting parents stay as
they are. -/
theorem Stage.update (stage : Stage start hand supplied seen w) {k : Heap Value}
    {view : List NodeId} {values : List Value} (unseen : Unseen view w.heap k values)
    (hview : inMachines w.machines ⊆ view) (owned : k.Owned (after ++ w.holders)) :
    Stage start after supplied (values ++ seen) { w with heap := k } := by
  have ready := stage.sound.ready_frame owned fun p waits =>
    ⟨slotsOf_congr (unseen.content_eq p (reached_of_mem _ (hview waits.mem_inMachines))),
      unseen.count_le p⟩
  refine ⟨⟨owned, ready, stage.sound.registers, stage.sound.machines⟩,
    unseen.policy_eq.trans stage.policy_eq, ?_, fun id hold hid => ?_, ?_⟩
  · change start.heap.cells.size ≤ k.cells.size
    rw [unseen.size_eq]
    exact stage.size_le
  · refine stage.old id hold (Owned.live_of_countOf_pos ?_)
    exact (owned.positive id hid).trans_le (unseen.count_le id)
  · refine .trans ?_ stage.ledger
    have hconserved := unseen.conserved
    rw [List.perm_iff_count] at hconserved ⊢
    intro v
    have hv := hconserved v
    simp only [accounted, List.count_append] at hv ⊢
    omega

/-- What dies may be written in the journal. -/
theorem Stage.report {events : List (Event Value)}
    (stage : Stage start hand supplied (releasedIn events ++ seen) w) :
    Stage start hand supplied seen (w.report events) := by
  refine ⟨⟨stage.sound.owned, stage.sound.ready, stage.sound.registers, stage.sound.machines⟩,
    stage.policy_eq, stage.size_le, stage.old, .trans ?_ stage.ledger⟩
  rw [List.perm_iff_count]
  intro v
  simp only [accounted, Workspace.report, Array.toList_appendList, releasedIn_append,
    List.count_append]
  omega

theorem Stage.perm (stage : Stage start hand supplied seen w) {others : List NodeId}
    {more : List Value} (hhand : hand ~ others) (hmore : supplied ~ more) :
    Stage start others more seen w :=
  ⟨⟨stage.sound.owned.perm (hhand.append_right _), stage.sound.ready, stage.sound.registers,
    stage.sound.machines⟩, stage.policy_eq, stage.size_le, stage.old,
    stage.ledger.trans (hmore.append_right _)⟩

theorem Stage.append_nil (stage : Stage start hand supplied seen w) :
    Stage start (hand ++ []) supplied seen w := by
  rwa [List.append_nil]

theorem Stage.perm_seen (stage : Stage start hand supplied seen w) {others : List Value}
    (hseen : seen ~ others) : Stage start hand supplied others w :=
  ⟨stage.sound, stage.policy_eq, stage.size_le, stage.old,
    (hseen.symm.append_right _).trans stage.ledger⟩

/-- A value that is supplied and dies at once. -/
theorem Stage.pass (stage : Stage start hand supplied seen w) (value : Value) :
    Stage start hand (value :: supplied) (value :: seen) w :=
  ⟨stage.sound, stage.policy_eq, stage.size_le, stage.old, stage.ledger.cons value⟩

/-- Giving up slots in hand. -/
theorem Stage.giveUp {slots : List Slot}
    (stage : Stage start (slots.reduceOption ++ hand) supplied seen w) :
    Stage start hand supplied seen (w.giveUp slots) := by
  have owned := stage.sound.owned
  rw [List.append_assoc] at owned
  have hreleased := stage.update owned.unseen_release ?_ owned.release
  · apply Stage.report (w := { w with heap := (w.heap.release slots.reduceOption).1 })
    rw [releasedIn_ofReleased]
    exact hreleased
  · exact fun p hp => List.mem_append_right _ (List.mem_append_right _ hp)

/-! ## Handles that pass between the hand and the registries -/

/-- Other registries over the same heap. -/
theorem Stage.rearrange (stage : Stage start hand supplied seen w) {registers : Registry Slot}
    {machines : Registry Dismantler} (hregisters : registers.Sorted) (hmachines : machines.Sorted)
    (ready : ∀ e ∈ machines.entries, e.2.Ready w.heap)
    (hperm : hand ++ w.holders ~ after ++ (inRegisters registers ++ inMachines machines)) :
    Stage start after supplied seen { w with registers := registers, machines := machines } :=
  ⟨⟨stage.sound.owned.perm hperm, ready, hregisters, hmachines⟩, stage.policy_eq, stage.size_le,
    stage.old, stage.ledger⟩

theorem Stage.pick (stage : Stage start hand supplied seen w) (name : String) :
    Stage start ([(w.pick name).2].reduceOption ++ hand) supplied seen (w.pick name).1 := by
  refine stage.rearrange (stage.sound.registers.erase name) stage.sound.machines
    stage.sound.ready ?_
  have hold := inRegisters_perm stage.sound.registers name
  rw [List.perm_iff_count] at hold ⊢
  intro x
  have hx := hold x
  simp only [holders, List.count_append] at hx ⊢
  change _ = [(w.registers.get? name).join].reduceOption.count x + _ + _
  omega

theorem Stage.assign {s : Slot} (stage : Stage start ([s].reduceOption ++ hand) supplied seen w)
    (name : String) : Stage start hand supplied seen (w.assign name s) := by
  apply Stage.giveUp
  refine stage.rearrange (stage.sound.registers.insert name s) stage.sound.machines
    stage.sound.ready ?_
  have hold := inRegisters_perm stage.sound.registers name
  have hnew := inRegisters_insert stage.sound.registers name s
  rw [List.perm_iff_count] at hold hnew ⊢
  intro x
  have hx := hold x
  have hx' := hnew x
  simp only [holders, List.count_append] at hx hx' ⊢
  omega

theorem Stage.keep {s : Slot} (stage : Stage start ([s].reduceOption ++ hand) supplied seen w)
    (into : Option String) : Stage start hand supplied seen (w.keep into s) := by
  cases into with
  | none => exact stage.giveUp
  | some name => exact stage.assign name

end SlotTree.Workspace
