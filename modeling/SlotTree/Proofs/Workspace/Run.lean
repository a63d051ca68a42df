import SlotTree.Proofs.Workspace.Command
import SlotTree.Script

/-! # Whole runs

A script starts with nothing. Between its commands the workspace is sound, so the nodes alive are
those that registers and dismantlers reach, each with its handles counted. Every value that a script
brings along dies once, and the closing leaves nothing alive.
-/

namespace SlotTree

open List Heap Event

/-- The values that are seen to die in a result. -/
def releasedInResult : Except Failure Answer → List Value
  | .ok answer => answer.released
  | .error _ => []

/-- The values that die in a step: those in its journal and those in its answer. -/
def Step.released (step : Step) : List Value :=
  releasedIn step.journal ++ releasedInResult step.result

namespace Workspace

variable {w start : Workspace} {hand : List NodeId} {supplied seen : List Value}

/-- The values that commands bring along, each seen from the workspace where it starts. -/
def suppliedBy (showRegisters : Bool) : Workspace → List Command → List Value
  | _, [] => []
  | w, c :: rest => c.supplies w ++ suppliedBy showRegisters (w.perform showRegisters c).1 rest

/-! ## Commands in a row -/

/-- What commands keep between a workspace and a later one, both with an empty journal. -/
structure RunSpec (start : Workspace) (supplied released : List Value) (w : Workspace) : Prop where
  sound : Sound [] w
  journal : w.journal = #[]
  policy_eq : w.heap.policy = start.heap.policy
  size_le : start.heap.cells.size ≤ w.heap.cells.size
  old : ∀ id < start.heap.cells.size, w.heap.Live id → start.heap.Live id
  ledger : released ++ w.heap.values ~ supplied ++ start.heap.values

theorem exec_stage (sound : Sound [] w) (c : Command) :
    Stage w [] (c.supplies w) (releasedInResult (w.exec c).1) (w.exec c).2 := by
  have hsettles := Action.settles_command sound c
  unfold Action.Settles Action.Ends at hsettles
  unfold Workspace.exec
  rcases hrun : c.exec.run.run w with ⟨result, after⟩
  rw [hrun] at hsettles
  cases result with
  | ok answer => exact hsettles
  | error failure => exact hsettles

theorem perform_spec (sound : Sound [] w) (hjournal : w.journal = #[]) (showRegisters : Bool)
    (c : Command) :
    RunSpec w (c.supplies w) (w.perform showRegisters c).2.released
      (w.perform showRegisters c).1 := by
  have hstage := exec_stage sound c
  refine ⟨⟨hstage.sound.owned, hstage.sound.ready, hstage.sound.registers, hstage.sound.machines⟩,
    rfl, hstage.policy_eq, hstage.size_le, hstage.old, ?_⟩
  have hledger := hstage.ledger
  rw [accounted, accounted, hjournal] at hledger
  exact (List.perm_append_comm.append_right _).trans
    ((List.Perm.of_eq (List.append_assoc _ _ _)).trans hledger)

theorem RunSpec.refl (sound : Sound [] w) (hjournal : w.journal = #[]) : RunSpec w [] [] w :=
  ⟨sound, hjournal, rfl, le_refl _, fun _ _ hid => hid, .refl _⟩

theorem RunSpec.trans {v : Workspace} {released more later : List Value}
    (first : RunSpec start supplied released w) (second : RunSpec w more later v) :
    RunSpec start (supplied ++ more) (released ++ later) v := by
  refine ⟨second.sound, second.journal, second.policy_eq.trans first.policy_eq,
    first.size_le.trans second.size_le, fun id hold hid => ?_, ?_⟩
  · exact first.old id hold (second.old id (hold.trans_le first.size_le) hid)
  · have hfirst := first.ledger
    have hsecond := second.ledger
    rw [List.perm_iff_count] at hfirst hsecond ⊢
    intro v
    have hv := hfirst v
    have hv' := hsecond v
    simp only [List.count_append] at hv hv' ⊢
    omega

/-- Any run of commands. -/
theorem performAll_spec (sound : Sound [] w) (hjournal : w.journal = #[]) (showRegisters : Bool)
    (commands : List Command) :
    RunSpec w (suppliedBy showRegisters w commands)
      ((performAll showRegisters w commands).2.flatMap Step.released)
      (performAll showRegisters w commands).1 := by
  induction commands generalizing w with
  | nil => exact .refl sound hjournal
  | cons c rest ih =>
      have hfirst := perform_spec sound hjournal showRegisters c
      rw [performAll_cons]
      exact hfirst.trans (ih hfirst.sound hfirst.journal)

/-! ## The closing -/

/-- Machines in hand run to their ends, one after another. -/
theorem Stage.dropMachines {entries : List (String × Dismantler)}
    (stage : Stage start (entries.flatMap (fun e => e.2.held) ++ hand) supplied seen w)
    (ready : ∀ e ∈ entries, e.2.Ready w.heap) :
    Stage start hand supplied seen (entries.foldl (fun w e => w.dropMachine e.2) w) := by
  induction entries generalizing w with
  | nil => exact stage
  | cons e rest ih =>
      rw [List.flatMap_cons, List.append_assoc] at stage
      obtain ⟨hdone, -, -, values, hunseen⟩ := stage.finish (ready e List.mem_cons_self)
      apply ih hdone
      intro other hother
      have hheld : ∀ p, other.2.parent = some p →
          p ∈ rest.flatMap (fun e => e.2.held) ++ hand ++ w.holders := by
        intro p hp
        apply List.mem_append_left
        apply List.mem_append_left
        exact List.mem_flatMap.2 ⟨other, hother, List.mem_append_right _ (by simp [hp])⟩
      exact ready_of_unseen (ready other (List.mem_cons_of_mem _ hother)) hunseen hheld
        hdone.sound.owned hheld

/-- Slots in hand are given up one after another. -/
theorem Stage.giveUpAll {entries : List (String × Slot)}
    (stage : Stage start ((entries.map (·.2)).reduceOption ++ hand) supplied seen w) :
    Stage start hand supplied seen (entries.foldl (fun w e => w.giveUp [e.2]) w) := by
  induction entries generalizing w with
  | nil => exact stage
  | cons e rest ih =>
      apply ih
      apply Stage.giveUp
      exact stage.perm ((reduceOption_cons_perm e.2 _ hand).symm.trans
        (List.perm_append_comm_assoc _ _ _)) (.refl _)

theorem foldl_dropMachine (entries : List (String × Dismantler)) (w : Workspace) :
    (entries.foldl (fun w e => w.dropMachine e.2) w).machines = w.machines := by
  induction entries generalizing w with
  | nil => rfl
  | cons e rest ih => exact ih _

theorem foldl_giveUp (entries : List (String × Slot)) (w : Workspace) :
    (entries.foldl (fun w e => w.giveUp [e.2]) w).registers = w.registers ∧
      (entries.foldl (fun w e => w.giveUp [e.2]) w).machines = w.machines := by
  induction entries generalizing w with
  | nil => exact ⟨rfl, rfl⟩
  | cons e rest ih => exact ih _

/-- The closing gives up all holders. -/
theorem holders_close (w : Workspace) : w.close.holders = [] := by
  unfold close holders
  dsimp only
  rw [(foldl_giveUp _ _).1, (foldl_giveUp _ _).2]
  dsimp only
  rw [foldl_dropMachine]
  rfl

theorem Sound.close (sound : Sound [] w) : Stage w [] [] [] w.close := by
  have hidle : Stage w (w.machines.entries.flatMap (fun e => e.2.held) ++ []) [] []
      { w with machines := .empty } := by
    apply sound.stage.rearrange sound.registers Registry.sorted_empty
    · nofun
    · rw [List.append_nil, List.nil_append]
      exact List.perm_append_comm.trans (List.Perm.of_eq (by simp [inMachines, Registry.empty]))
  have hdropped := hidle.dropMachines sound.ready
  apply Stage.giveUpAll
  apply hdropped.rearrange Registry.sorted_empty hdropped.sound.machines hdropped.sound.ready
  rw [List.append_nil, List.nil_append, holders]
  exact List.Perm.of_eq (by simp [inRegisters, Registry.empty])

theorem not_live_close (sound : Sound [] w) (id : NodeId) : ¬ w.close.heap.Live id := by
  have owned := sound.close.sound.owned
  rw [holders_close, List.append_nil] at owned
  rw [owned.live_iff_reached]
  rintro ⟨a, ha, -⟩
  nomatch ha

theorem values_eq_nil {h : Heap Value} (hdead : ∀ id, ¬ h.Live id) : h.values = [] := by
  apply List.filterMap_eq_nil_iff.2
  intro cell hcell
  obtain ⟨i, hi, hget⟩ := List.getElem_of_mem hcell
  cases cell with
  | none => rfl
  | some n =>
      have hsize : i < h.cells.size := by simpa using hi
      have hcell : h.cells[i] = some n := by simpa using hget
      exact absurd (live_iff.2 ⟨n, by simp [get?, hsize, hcell]⟩) (hdead i)

/-- What is alive in the end dies in the closing. -/
theorem released_close (sound : Sound [] w) (hjournal : w.journal = #[]) :
    releasedIn w.close.journal.toList ~ w.heap.values := by
  have hledger := sound.close.ledger
  rw [accounted, accounted, hjournal, values_eq_nil (not_live_close sound)] at hledger
  simpa [releasedIn] using hledger

/-! ## Runs from nothing -/

/-- After every run of commands, exactly the nodes that registers and dismantlers reach are alive,
the handles to them are counted, and no handles lead round. A command ends the nodes that are not
reached after it, and none of them comes back. All that the commands brought along is alive or has
died once, and after the closing nothing is alive. -/
theorem ownership_of_run (p : Policy) (showRegisters : Bool) (commands : List Command) :
    let ran := performAll showRegisters (.empty p) commands
    let w := ran.1
    (∀ id, w.heap.Live id ↔ w.heap.Reached w.holders id) ∧
    (∀ id, w.heap.Live id → 0 < w.heap.countOf id ∧
      w.heap.countOf id = w.holders.count id + w.heap.handlesTo id ∧
      (p = .unique → w.heap.countOf id = 1)) ∧
    w.heap.Acyclic ∧
    (∀ c, let after := (w.perform showRegisters c).1
      ∀ id < w.heap.cells.size,
        after.heap.Live id ↔ w.heap.Live id ∧ after.heap.Reached after.holders id) ∧
    ran.2.flatMap Step.released ++ w.heap.values ~
      suppliedBy showRegisters (.empty p) commands ∧
    (∀ id, ¬ w.close.heap.Live id) ∧
    ran.2.flatMap Step.released ++ releasedIn w.close.journal.toList ~
      suppliedBy showRegisters (.empty p) commands := by
  have hrun := performAll_spec (sound_empty p) rfl showRegisters commands
  have sound := hrun.sound
  have hledger := hrun.ledger
  have hnothing : (empty p).heap.values = [] := rfl
  rw [hnothing, List.append_nil] at hledger
  refine ⟨sound.owned.live_iff_reached, fun id hid => ⟨sound.owned.positive id hid, ?_, ?_⟩,
    sound.owned.acyclic, fun c id hold => ?_, hledger, not_live_close sound, ?_⟩
  · exact sound.owned.counted id
  · rintro rfl
    exact sound.owned.single hrun.policy_eq id hid
  · have hnext := perform_spec sound hrun.journal showRegisters c
    rw [hnext.sound.owned.live_iff_reached]
    constructor
    · intro hreach
      exact ⟨hnext.old id hold (hnext.sound.owned.live_of_reached hreach), hreach⟩
    · rintro ⟨-, hreach⟩
      exact hreach
  · exact ((released_close sound hrun.journal).append_left _).trans hledger

end Workspace

end SlotTree
