import SlotTree.Proofs.Policies.Teardown
import SlotTree.Proofs.Workspace.Action
import SlotTree.Workspace.Command

/-! # Workspaces under another policy

Two workspaces are twins if they differ in the policy only and no node has more than one handle.
What does not clone a handle leaves twins, with the same answers.
-/

namespace SlotTree

open Heap

namespace Workspace

/-- The same workspace under another policy, which its journal names. -/
def under (q : Policy) (w : Workspace) : Workspace :=
  { w with heap := w.heap.under q, journal := w.journal.map (Event.under q) }

@[simp] theorem heap_under (q : Policy) (w : Workspace) : (w.under q).heap = w.heap.under q := rfl

/-- A workspace with single handles, and the same one under another policy. -/
structure Twin (q : Policy) (w v : Workspace) : Prop where
  single : w.heap.Single
  eq_under : v = w.under q

variable {q : Policy} {w v : Workspace}

/-! ## What keeps workspaces twins -/

namespace Twin

theorem report (twin : Twin q w v) (events : List (Event Value)) :
    Twin q (w.report events) (v.report (events.map (Event.under q))) := by
  obtain ⟨single, rfl⟩ := twin
  refine ⟨single, congrArg (Workspace.mk _ _ _) ?_⟩
  apply Array.toList_inj.1
  simp [under, Workspace.report]

/-- Other heaps under the same holders. -/
theorem update (twin : Twin q w v) {h k : Heap Value} (single : h.Single) (heq : k = h.under q) :
    Twin q { w with heap := h } { v with heap := k } := by
  obtain ⟨-, rfl⟩ := twin
  subst heq
  exact ⟨single, rfl⟩

/-- Other heaps on the way to which values died. -/
theorem settle (twin : Twin q w v) {after other : Heap Value × List Value}
    (single : after.1.Single) (heq : other = (after.1.under q, after.2)) :
    Twin q (w.settle after) (v.settle other) := by
  subst heq
  have hreport := (twin.update single rfl).report (Event.ofReleased after.2)
  rwa [Event.map_under_ofReleased] at hreport

theorem giveUp (twin : Twin q w v) (slots : List Slot) :
    Twin q (w.giveUp slots) (v.giveUp slots) := by
  refine twin.settle (twin.single.release _) ?_
  rw [twin.eq_under, heap_under, release_under]

theorem registers_eq (twin : Twin q w v) : v.registers = w.registers := by
  rw [twin.eq_under, under]

theorem machines_eq (twin : Twin q w v) : v.machines = w.machines := by
  rw [twin.eq_under, under]

theorem setRegisters (twin : Twin q w v) (registers : Registry Slot) :
    Twin q { w with registers := registers } { v with registers := registers } := by
  obtain ⟨single, rfl⟩ := twin
  exact ⟨single, rfl⟩

theorem setMachines (twin : Twin q w v) (machines : Registry Dismantler) :
    Twin q { w with machines := machines } { v with machines := machines } := by
  obtain ⟨single, rfl⟩ := twin
  exact ⟨single, rfl⟩

theorem pick (twin : Twin q w v) (name : String) :
    Twin q (w.pick name).1 (v.pick name).1 ∧ (v.pick name).2 = (w.pick name).2 := by
  unfold Workspace.pick
  rw [twin.registers_eq]
  exact ⟨twin.setRegisters _, rfl⟩

theorem assign (twin : Twin q w v) (name : String) (s : Slot) :
    Twin q (w.assign name s) (v.assign name s) := by
  unfold Workspace.assign
  rw [twin.registers_eq]
  exact (twin.setRegisters _).giveUp _

theorem keep (twin : Twin q w v) (into : Option String) (s : Slot) :
    Twin q (w.keep into s) (v.keep into s) := by
  cases into with
  | none => exact twin.giveUp [s]
  | some name => exact twin.assign name s

theorem alloc (twin : Twin q w v) (value : Value) (slots : List Slot) :
    Twin q { w with heap := (w.heap.alloc value slots).1 }
        { v with heap := (v.heap.alloc value slots).1 } ∧
      (v.heap.alloc value slots).2 = (w.heap.alloc value slots).2 := by
  obtain ⟨single, rfl⟩ := twin
  exact ⟨⟨single.alloc value slots, rfl⟩, rfl⟩

theorem grow (twin : Twin q w v) (t : Tree Value) :
    Twin q (w.grow t).1 (v.grow t).1 ∧ (v.grow t).2 = (w.grow t).2 := by
  obtain ⟨single, rfl⟩ := twin
  unfold Workspace.grow
  rw [heap_under, plant_under]
  exact ⟨⟨single.plant t, rfl⟩, rfl⟩

theorem growRow (twin : Twin q w v) (row : Row Value) :
    Twin q (w.growRow row).1 (v.growRow row).1 ∧ (v.growRow row).2 = (w.growRow row).2 := by
  obtain ⟨single, rfl⟩ := twin
  unfold Workspace.growRow
  rw [heap_under, plantRow_under]
  exact ⟨⟨single.plantRow row, rfl⟩, rfl⟩

/-! ### Changes of a node -/

theorem setSlots (twin : Twin q w v) (id : NodeId) (row : List Slot) :
    Twin q { w with heap := w.heap.setSlots id row } { v with heap := v.heap.setSlots id row } := by
  obtain ⟨single, rfl⟩ := twin
  exact ⟨single.setSlots id row, congrArg (Workspace.mk · _ _ _) (setSlots_under q _ id row)⟩

/-- Another row, where some handles are given up. -/
theorem trim (twin : Twin q w v) (id : NodeId) (row : List Slot) (work : List NodeId) :
    Twin q (w.settle ((w.heap.setSlots id row).release work))
      (v.settle ((v.heap.setSlots id row).release work)) := by
  refine twin.settle ((twin.single.setSlots id row).release work) ?_
  rw [twin.eq_under, heap_under, setSlots_under, release_under]

theorem slotsOf_eq (twin : Twin q w v) (id : NodeId) : v.heap.slotsOf id = w.heap.slotsOf id := by
  rw [twin.eq_under, heap_under, slotsOf_under]

theorem pushBack (twin : Twin q w v) (id : NodeId) (s : Slot) :
    Twin q { w with heap := w.heap.pushBack id s } { v with heap := v.heap.pushBack id s } := by
  unfold Heap.pushBack
  rw [twin.slotsOf_eq]
  exact twin.setSlots id _

theorem exchange (twin : Twin q w v) (id : NodeId) (index : Nat) (s : Slot) :
    Twin q (w.exchange id index s).1 (v.exchange id index s).1 ∧
      (v.exchange id index s).2 = (w.exchange id index s).2 := by
  unfold Workspace.exchange Heap.exchange
  rw [twin.slotsOf_eq]
  exact ⟨twin.setSlots id _, rfl⟩

theorem replaceSlots (twin : Twin q w v) (id : NodeId) (slots : List Slot) :
    Twin q (w.settle (w.heap.replaceSlots id slots)) (v.settle (v.heap.replaceSlots id slots)) := by
  unfold Heap.replaceSlots
  rw [twin.slotsOf_eq]
  exact twin.trim id slots _

theorem punch (twin : Twin q w v) (id : NodeId) (holes : List Nat) :
    Twin q (w.settle (w.heap.punch id holes).1) (v.settle (v.heap.punch id holes).1) ∧
      (v.heap.punch id holes).2 = (w.heap.punch id holes).2 := by
  unfold Heap.punch
  rw [twin.slotsOf_eq]
  exact ⟨twin.trim id _ _, rfl⟩

theorem setValue (twin : Twin q w v) (id : NodeId) (value : Value) :
    Twin q (w.settle (w.heap.setValue id value)) (v.settle (v.heap.setValue id value)) := by
  refine twin.settle (twin.single.setValue id value) ?_
  rw [twin.eq_under, heap_under, setValue_under]

theorem drain (twin : Twin q w v) (id : NodeId) :
    Twin q ({ w with heap := (w.heap.drain id).1 }.report (w.heap.drain id).2)
      ({ v with heap := (v.heap.drain id).1 }.report (v.heap.drain id).2) := by
  obtain ⟨hdrained, heq⟩ := twin.single.drain q id
  rw [← heap_under, ← twin.eq_under] at heq
  rw [heq]
  exact (twin.update hdrained rfl).report _

/-! ### Machines -/

theorem finish (twin : Twin q w v) (m : Dismantler) :
    Twin q (w.finish m).1 (v.finish m).1 ∧ (v.finish m).2 = (w.finish m).2 := by
  obtain ⟨hran, heq⟩ := Dismantler.single_run q twin.single m
  rw [← heap_under, ← twin.eq_under] at heq
  unfold Workspace.finish
  rw [heq]
  exact ⟨(twin.update hran rfl).report _, rfl⟩

theorem dropMachine (twin : Twin q w v) (m : Dismantler) :
    Twin q (w.dropMachine m) (v.dropMachine m) :=
  (twin.finish m).1

theorem installMachine (twin : Twin q w v) (name : String) (m : Dismantler) :
    Twin q (w.installMachine name m) (v.installMachine name m) := by
  have hstored := twin.setMachines (w.machines.insert name m)
  unfold Workspace.installMachine
  rw [twin.machines_eq]
  cases w.machines.get? name with
  | none => exact hstored
  | some old => exact hstored.dropMachine old

end Twin

end Workspace

/-! ## Actions -/

namespace Action

open Workspace

variable {α β : Type} {q : Policy} {w v : Workspace}

/-- Two actions, in twin workspaces, that end alike and leave twins. -/
def Twins (q : Policy) (act other : Action α) (w v : Workspace) : Prop :=
  (other.run.run v).1 = (act.run.run w).1 ∧ Twin q (act.run.run w).2 (other.run.run v).2

theorem twins_pure (twin : Twin q w v) (a : α) : Twins q (pure a) (pure a) w v := ⟨rfl, twin⟩

theorem twins_throw (twin : Twin q w v) (failure : Failure) :
    Twins q (throw failure : Action α) (throw failure) w v :=
  ⟨rfl, twin⟩

theorem Twins.bind {act other : Action β} {next following : β → Action α}
    (hact : Twins q act other w v)
    (hnext : ∀ b w v, Twin q w v → Twins q (next b) (following b) w v) :
    Twins q (act >>= next) (other >>= following) w v := by
  obtain ⟨hresult, twin⟩ := hact
  unfold Twins
  rw [run_bind, run_bind]
  rcases hrun : act.run.run w with ⟨result, w'⟩
  rcases hother : other.run.run v with ⟨result', v'⟩
  rw [hrun, hother] at hresult twin
  obtain rfl : result' = result := hresult
  cases result' with
  | ok b => exact hnext b w' v' twin
  | error failure => exact ⟨rfl, twin⟩

theorem twins_look (twin : Twin q w v) {f g : Workspace → Except Failure α} (hfg : g v = f w) :
    Twins q (look f) (look g) w v := by
  unfold Twins
  rw [run_look, run_look]
  exact ⟨hfg, twin⟩

/-- A part that is needed is there, or both actions fail. -/
theorem twins_need_bind (twin : Twin q w v) {field : Field β} {next following : β → Action α}
    (hnext : ∀ b, field = some b → Twins q (next b) (following b) w v) :
    Twins q ((look fun _ => field.need) >>= next) ((look fun _ => field.need) >>= following)
      w v := by
  unfold Twins
  rw [run_bind, run_bind, run_look, run_look]
  cases field with
  | none => exact ⟨rfl, twin⟩
  | some b => exact hnext b rfl

theorem twins_alter {f g : Workspace → α × Workspace} (hanswer : (g v).1 = (f w).1)
    (htwin : Twin q (f w).2 (g v).2) : Twins q (alter f) (alter g) w v :=
  ⟨congrArg Except.ok hanswer, htwin⟩

theorem twins_modify {f g : Workspace → Workspace} (htwin : Twin q (f w) (g v)) :
    Twins q (modify f) (modify g) w v :=
  ⟨rfl, htwin⟩

theorem twins_modify_pure {f g : Workspace → Workspace} (htwin : Twin q (f w) (g v)) (a : α) :
    Twins q (do modify f; return a) (do modify g; return a) w v :=
  (twins_modify htwin).bind fun _ _ _ twin => twins_pure twin a

theorem twins_set {w' v' : Workspace} (htwin : Twin q w' v') : Twins q (set w') (set v') w v :=
  ⟨rfl, htwin⟩

theorem twins_get_bind {next following : Workspace → Action α}
    (hnext : Twins q (next w) (following v) w v) :
    Twins q (get >>= next) (get >>= following) w v := by
  unfold Twins
  rw [run_bind, run_bind]
  exact hnext

theorem twins_holding {act other : Action α} (hact : Twins q act other w v) (slots : List Slot) :
    Twins q (holding slots act) (holding slots other) w v := by
  obtain ⟨hresult, twin⟩ := hact
  unfold Twins holding
  rw [run_tryCatch, run_tryCatch]
  rcases hrun : act.run.run w with ⟨result, w'⟩
  rcases hother : other.run.run v with ⟨result', v'⟩
  rw [hrun, hother] at hresult twin
  obtain rfl : result' = result := hresult
  cases result' with
  | ok a => exact ⟨rfl, twin⟩
  | error failure => exact ⟨rfl, twin.giveUp slots⟩

end Action

end SlotTree
