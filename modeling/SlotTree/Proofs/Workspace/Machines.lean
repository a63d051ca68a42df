import SlotTree.Proofs.Workspace.Change
import SlotTree.Workspace.Machines

/-! # Dismantlers at work

A machine at work is taken out of the registry with its handles, and stored again afterwards. The
machines that stay are holders like any other, so their parents wait undisturbed.
-/

namespace SlotTree

open List Heap Event Dismantler

/-- Single steps on request are single steps, and their reports tell all values that die. -/
theorem Dismantler.stepUpTo_eq (full : Bool) (n : Nat) (m : Dismantler) (h : Heap Value) :
    (m.stepUpTo full n h).1 = (runFor n m h).machine ∧
      (m.stepUpTo full n h).2.1 = (runFor n m h).heap ∧
      ((m.stepUpTo full n h).2.2.flatMap fun r => releasedIn r.journal) =
        (runFor n m h).values := by
  induction n generalizing m h with
  | zero => exact ⟨rfl, rfl, rfl⟩
  | succ n ih =>
      cases hcurrent : m.current with
      | none =>
          rw [runFor_of_done hcurrent, stepUpTo_done hcurrent]
          simp [releasedIn]
      | some current =>
          obtain ⟨hm, hh, hvalues⟩ :=
            ih (advance m h current).machine (advance m h current).heap
          rw [runFor_succ hcurrent, stepUpTo_succ hcurrent]
          simp only [List.flatMap_cons, releasedIn_ofReleased]
          exact ⟨hm, hh, congrArg (_ ++ ·) hvalues⟩

namespace Workspace

variable {w start : Workspace} {hand : List NodeId} {supplied seen : List Value}

theorem machine_ok {field : Field String} {name : String} {m : Dismantler}
    (hok : w.machine field = .ok (name, m)) :
    field = some name ∧ w.machines.get? name = some m := by
  cases field with
  | none => nomatch hok
  | some other =>
      obtain ⟨_, hother, hok⟩ := ok_of_bind hok
      obtain rfl := Except.ok.inj hother
      cases hget : w.machines.get? other with
      | none =>
          rw [hget] at hok
          nomatch hok
      | some found =>
          rw [hget] at hok
          obtain ⟨rfl, rfl⟩ := Prod.mk.inj (Except.ok.inj hok)
          exact ⟨rfl, hget⟩

/-! ## Machines in hand -/

/-- What stands under a name comes into the hand. -/
theorem Stage.takeMachine (stage : Stage start hand supplied seen w) (name : String) :
    Stage start ((w.machines.get? name).elim [] held ++ hand) supplied seen
      { w with machines := w.machines.erase name } := by
  apply stage.rearrange stage.sound.registers (stage.sound.machines.erase name)
  · intro e he
    exact stage.sound.ready e (Registry.mem_of_mem_erase he)
  · have hold := inMachines_perm stage.sound.machines name
    rw [List.perm_iff_count] at hold ⊢
    intro x
    have hx := hold x
    simp only [holders, List.count_append] at hx ⊢
    omega

/-- A machine goes from the hand to a place that was left free for it. -/
theorem Stage.storeMachine {r : Registry Dismantler} {name : String} {m : Dismantler}
    (stage : Stage start (m.held ++ hand) supplied seen w) (sorted : r.Sorted)
    (hmachines : w.machines = r.erase name) (ready : m.Ready w.heap) :
    Stage start hand supplied seen { w with machines := r.insert name m } := by
  have hready := stage.sound.ready
  rw [hmachines] at hready
  have hnew := inMachines_insert sorted name m
  apply stage.rearrange stage.sound.registers (sorted.insert name m)
  · intro e he
    rcases List.mem_cons.1 ((sorted.insert_perm name m).mem_iff.1 he) with rfl | he
    · exact ready
    · exact hready e he
  · rw [List.perm_iff_count] at hnew ⊢
    intro x
    have hx := hnew x
    rw [holders, hmachines]
    simp only [List.count_append] at hx ⊢
    omega

/-- A machine in hand takes some steps, unseen by all others. -/
theorem Stage.runFor {m : Dismantler} (stage : Stage start (m.held ++ hand) supplied seen w)
    (ready : m.Ready w.heap) (n : Nat) :
    Stage start ((runFor n m w.heap).machine.held ++ hand) supplied
        ((runFor n m w.heap).values ++ seen) { w with heap := (runFor n m w.heap).heap } ∧
      (runFor n m w.heap).machine.Ready (runFor n m w.heap).heap := by
  have owned := stage.sound.owned
  rw [List.append_assoc] at owned
  have hkept := runFor_kept n owned ready
  have hend := hkept.owned
  rw [← List.append_assoc] at hend
  refine ⟨stage.update hkept.unseen ?_ hend, hkept.ready⟩
  intro p hp
  exact List.mem_append_right _ (List.mem_append_right _ hp)

/-- A machine in hand runs to its end, unseen by all others. -/
theorem Stage.finish {m : Dismantler} (stage : Stage start (m.held ++ hand) supplied seen w)
    (ready : m.Ready w.heap) :
    Stage start hand supplied seen (w.finish m).1 ∧ (w.finish m).2.held = [] ∧
      (w.finish m).2.Ready (w.finish m).1.heap ∧
      ∃ values, Unseen (hand ++ w.holders) w.heap (w.finish m).1.heap values := by
  have owned := stage.sound.owned
  rw [List.append_assoc] at owned
  obtain ⟨hheld, hready, hend, hunseen⟩ := run_kept owned ready
  refine ⟨Stage.report (w := { w with heap := (m.run w.heap).2.1 }) ?_, hheld, hready, _, hunseen⟩
  apply stage.update hunseen ?_ hend
  intro p hp
  exact List.mem_append_right _ (List.mem_append_right _ hp)

theorem Stage.dropMachine {m : Dismantler}
    (stage : Stage start (m.held ++ hand) supplied seen w) (ready : m.Ready w.heap) :
    Stage start hand supplied seen (w.dropMachine m) :=
  (stage.finish ready).1

/-- A machine is stored, and the one in whose place it comes runs to its end. -/
theorem Stage.installMachine {m : Dismantler}
    (stage : Stage start (m.held ++ hand) supplied seen w) (ready : m.Ready w.heap)
    (name : String) : Stage start hand supplied seen (w.installMachine name m) := by
  have sorted := stage.sound.machines
  have htaken := (stage.takeMachine name).perm
    (List.perm_append_comm_assoc _ m.held hand) (.refl _)
  have hstored := htaken.storeMachine sorted rfl ready
  unfold Workspace.installMachine
  cases hget : w.machines.get? name with
  | none =>
      rw [hget] at hstored
      exact hstored
  | some old =>
      rw [hget] at hstored
      exact hstored.dropMachine (stage.sound.ready _ (sorted.mem_of_get? hget))

end Workspace

namespace Action

open Workspace

variable {w : Workspace}

/-- A fresh machine takes over what a register held. -/
theorem stage_start (sound : Sound [] w) (name : String) :
    Stage w ((start (w.pick name).2).held ++ []) [] [] (w.pick name).1 := by
  rw [held_start]
  exact (sound.stage.pick name).perm (List.Perm.of_eq (by cases (w.pick name).2 <;> rfl)) (.refl _)

theorem settles_destroy (sound : Sound [] w) (register : Field String) :
    (destroy register).Settles w [] w := by
  apply ends_look_bind fun _ _ => sound.stage
  intro name _
  refine ends_look_bind (fun _ _ => sound.stage) fun s _ => ends_modify_bind (ends_pure ?_)
  exact (stage_start sound name).dropMachine (ready_start _ _)

theorem settles_createMachine (sound : Sound [] w) (machine register : Field String) :
    (createMachine machine register).Settles w [] w := by
  apply ends_look_bind fun _ _ => sound.stage
  intro machine _
  apply ends_look_bind fun _ _ => sound.stage
  intro name _
  refine ends_look_bind (fun _ _ => sound.stage) fun s _ => ends_modify_bind (ends_pure ?_)
  exact (stage_start sound name).installMachine (ready_start _ _) machine

/-- A machine that is found comes into the hand. -/
theorem stage_taken (sound : Sound [] w) {field : Field String} {name : String} {m : Dismantler}
    (hfound : w.machine field = .ok (name, m)) :
    Stage w (m.held ++ []) [] [] { w with machines := w.machines.erase name } ∧
      m.Ready w.heap := by
  obtain ⟨-, hget⟩ := machine_ok hfound
  have htaken := sound.stage.takeMachine name
  rw [hget] at htaken
  exact ⟨htaken, sound.ready _ (sound.machines.mem_of_get? hget)⟩

theorem settles_runMachine (sound : Sound [] w) (machine : Field String) :
    (runMachine machine).Settles w [] w := by
  refine ends_look_bind (fun _ _ => sound.stage) fun found hfound => ends_alter ?_
  obtain ⟨name, m⟩ := found
  obtain ⟨htaken, ready⟩ := stage_taken sound hfound
  obtain ⟨hdone, hheld, hready, -⟩ := htaken.finish ready
  rw [← List.nil_append ([] : List NodeId)] at hdone
  nth_rewrite 1 [← hheld] at hdone
  exact hdone.storeMachine sound.machines rfl hready

theorem settles_dropMachine (sound : Sound [] w) (machine : Field String) :
    (dropMachine machine).Settles w [] w := by
  apply ends_look_bind fun _ _ => sound.stage
  intro found hfound
  obtain ⟨name, m⟩ := found
  obtain ⟨htaken, ready⟩ := stage_taken sound hfound
  exact ends_modify_bind (ends_pure (htaken.dropMachine ready))

/-- The values that die in single steps are in the answer. -/
theorem settles_stepMachine (sound : Sound [] w) (machine : Field String) (n : Field Nat)
    (full : Bool) : (stepMachine machine n full).Settles w [] w := by
  apply ends_look_bind fun _ _ => sound.stage
  intro n _
  refine ends_look_bind (fun _ _ => sound.stage) fun found hfound => ends_alter ?_
  obtain ⟨name, m⟩ := found
  obtain ⟨hmachine, hheap, hvalues⟩ := stepUpTo_eq full n m w.heap
  obtain ⟨htaken, ready⟩ := stage_taken sound hfound
  obtain ⟨hstage, hready⟩ := htaken.runFor ready n
  change Stage w [] [] ((m.stepUpTo full n w.heap).2.2.flatMap fun r => releasedIn r.journal)
    { w with
      heap := (m.stepUpTo full n w.heap).2.1
      machines := w.machines.insert name (m.stepUpTo full n w.heap).1 }
  rw [hmachine, hheap, hvalues, ← List.append_nil (runFor n m w.heap).values]
  exact hstage.storeMachine sound.machines rfl hready

/-- What is done with machines keeps the workspace sound. -/
theorem settles_machine (sound : Sound [] w) (c : MachineCommand) :
    c.exec.Settles w [] w := by
  cases c with
  | destroy register => exact settles_destroy sound register
  | create machine register => exact settles_createMachine sound machine register
  | step machine n full => exact settles_stepMachine sound machine n full
  | state machine =>
      apply ends_look_bind fun _ _ => sound.stage
      intro found _
      exact ends_get_bind (ends_pure sound.stage)
  | run machine => exact settles_runMachine sound machine
  | drop machine => exact settles_dropMachine sound machine

end Action

end SlotTree
