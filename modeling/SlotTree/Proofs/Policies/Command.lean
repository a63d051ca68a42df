import SlotTree.Proofs.Policies.Workspace

/-! # Commands under another policy

A command that clones no handle ends alike in twin workspaces, and leaves twins. The only command
that tells the policies apart is the one that asks for it.
-/

namespace SlotTree

open Heap Workspace

namespace Spec

mutual

/-- No handle is cloned. -/
def isCloneless : Spec → Bool
  | .node _ slots => areCloneless slots
  | .share _ => false
  | _ => true

def areCloneless : List Spec → Bool
  | [] => true
  | spec :: rest => isCloneless spec && areCloneless rest

end

end Spec

/-- No handle is cloned. -/
def Change.isCloneless : Change → Bool
  | .pushBack tree => tree.isCloneless
  | .setChildren trees => trees.all Spec.areCloneless
  | .putSlot _ _ tree => tree.isCloneless
  | _ => true

/-- No handle is cloned. -/
def Command.isCloneless : Command → Bool
  | .make _ _ tree => tree.isCloneless
  | .share _ _ => false
  | .shareShown _ _ => false
  | .change _ c => c.isCloneless
  | _ => true

/-- What a command comes to under another policy: the same, unless it asks for the policy. -/
def Command.resultUnder (q : Policy) (c : Command) (result : Except Failure Answer) :
    Except Failure Answer :=
  match c with
  | .policy => .ok (.text q.name)
  | _ => result

/-! ## Building -/

namespace Spec

variable {q : Policy} {w v : Workspace}

mutual

theorem check_twin {q : Policy} {w v : Workspace} (twin : Twin q w v) (taken : List String)
    {spec : Spec} (hspec : spec.isCloneless) : check v taken spec = check w taken spec := by
  cases spec with
  | hole => rfl
  | node value slots => exact checkAll_twin twin taken hspec
  | take name =>
      obtain ⟨single, rfl⟩ := twin
      rfl
  | share name => nomatch hspec
  | malformed => rfl

theorem checkAll_twin {q : Policy} {w v : Workspace} (twin : Twin q w v) (taken : List String)
    {specs : List Spec} (hspecs : areCloneless specs) :
    checkAll v taken specs = checkAll w taken specs := by
  match specs with
  | [] => rfl
  | spec :: rest =>
      obtain ⟨hspec, hrest⟩ := Bool.and_eq_true_iff.1 hspecs
      unfold checkAll
      rw [check_twin twin taken hspec]
      exact congrArg _ (funext fun taken => checkAll_twin twin taken hrest)

end

mutual

theorem construct_twin {q : Policy} {w v : Workspace} (twin : Twin q w v) {spec : Spec}
    (hspec : spec.isCloneless) :
    Twin q (construct w spec).1 (construct v spec).1 ∧
      (construct v spec).2 = (construct w spec).2 := by
  cases spec with
  | hole => exact ⟨twin, rfl⟩
  | node value slots =>
      obtain ⟨hbelow, heq⟩ := constructAll_twin twin hspec
      dsimp only [construct]
      rw [heq]
      obtain ⟨hmade, hid⟩ := hbelow.alloc value (constructAll w slots).2
      exact ⟨hmade, congrArg some hid⟩
  | take name => exact twin.pick name
  | share name => nomatch hspec
  | malformed => exact ⟨twin, rfl⟩

theorem constructAll_twin {q : Policy} {w v : Workspace} (twin : Twin q w v) {specs : List Spec}
    (hspecs : areCloneless specs) :
    Twin q (constructAll w specs).1 (constructAll v specs).1 ∧
      (constructAll v specs).2 = (constructAll w specs).2 := by
  match specs with
  | [] => exact ⟨twin, rfl⟩
  | spec :: rest =>
      obtain ⟨hspec, hrest⟩ := Bool.and_eq_true_iff.1 hspecs
      obtain ⟨hfirst, hslot⟩ := construct_twin twin hspec
      obtain ⟨hafter, hslots⟩ := constructAll_twin hfirst hrest
      exact ⟨hafter, congrArg₂ List.cons hslot hslots⟩

end

theorem twins_build (twin : Twin q w v) {spec : Spec} (hspec : spec.isCloneless) :
    Action.Twins q spec.build spec.build w v := by
  refine (Action.twins_look twin (check_twin twin [] hspec)).bind fun _ w v twin => ?_
  obtain ⟨hbuilt, hslot⟩ := construct_twin twin hspec
  exact Action.twins_alter hslot hbuilt

theorem twins_buildAll (twin : Twin q w v) {specs : List Spec} (hspecs : areCloneless specs) :
    Action.Twins q (buildAll specs) (buildAll specs) w v := by
  refine (Action.twins_look twin (checkAll_twin twin [] hspecs)).bind fun _ w v twin => ?_
  obtain ⟨hbuilt, hslots⟩ := constructAll_twin twin hspecs
  exact Action.twins_alter hslots hbuilt

end Spec

/-! ## Looking -/

theorem Heap.machineReport_under (q : Policy) (h : Heap Value) (full : Bool) (m : Dismantler) :
    (h.under q).machineReport full m = h.machineReport full m := by
  unfold machineReport heldReport
  simp only [viewSlot_under]
  rfl

theorem Heap.Single.stepUpTo (q : Policy) {h : Heap Value} (single : h.Single) (full : Bool)
    (n : Nat) (m : Dismantler) :
    (m.stepUpTo full n h).2.1.Single ∧ m.stepUpTo full n (h.under q) =
      ((m.stepUpTo full n h).1, (m.stepUpTo full n h).2.1.under q,
        (m.stepUpTo full n h).2.2) := by
  induction n generalizing m h with
  | zero => exact ⟨single, rfl⟩
  | succ n ih =>
      cases hcurrent : m.current with
      | none =>
          rw [Dismantler.stepUpTo_done hcurrent, Dismantler.stepUpTo_done hcurrent]
          refine ⟨single, ?_⟩
          simp only [machineReport_under]
      | some current =>
          obtain ⟨hstep, heq⟩ := Dismantler.single_advance q single m current
          obtain ⟨hrest, hlater⟩ := ih hstep (m.advance h current).machine
          rw [Dismantler.stepUpTo_succ hcurrent, Dismantler.stepUpTo_succ hcurrent]
          refine ⟨hrest, ?_⟩
          simp only [heq, Dismantler.Outcome.under, machineReport_under, hlater]

namespace Workspace.Twin

variable {q : Policy} {w v : Workspace} (twin : Twin q w v)

include twin

theorem register_eq (name : String) : v.register name = w.register name := by
  rw [twin.eq_under]
  rfl

theorem root_eq (name : String) : v.root name = w.root name := by
  rw [twin.eq_under]
  rfl

theorem locate_eq (t : Target) : v.locate t = w.locate t := by
  rw [twin.eq_under]
  rfl

theorem locateOwned_eq (t : Target) : v.locateOwned t = w.locateOwned t := by
  have hroot : v.root = w.root := funext twin.root_eq
  unfold locateOwned
  rw [hroot]
  simp only [twin.eq_under, heap_under, twin.single.isExclusive_under,
    twin.single.descendOwned_under]

theorem slotIndex_eq (id : NodeId) (access : SlotAccess) (index : Field Nat) :
    v.slotIndex id access index = w.slotIndex id access index := by
  rw [twin.eq_under]
  rfl

theorem content_eq (s : Slot) : v.content s = w.content s := by
  rw [twin.eq_under]
  rfl

theorem count_eq (t : Target) : v.count t = w.count t := by
  rw [twin.eq_under]
  rfl

theorem exclusive_eq (name : Field String) : v.exclusive name = w.exclusive name := by
  rw [twin.eq_under]
  unfold exclusive
  simp only [heap_under, twin.single.isExclusive_under]
  rfl

theorem query_eq (t : Target) (query : Query) : v.query t query = w.query t query := by
  unfold Workspace.query
  rw [twin.locate_eq]
  refine congrArg _ (funext fun id => ?_)
  rw [twin.eq_under]
  cases query with
  | walk order =>
      unfold inspect
      rw [heap_under, view_under]
  | _ => rfl

theorem format_eq (t : Target) (style : Field Style) : v.format t style = w.format t style := by
  rw [twin.eq_under]
  unfold format
  simp only [heap_under, viewSlot_under]
  rfl

theorem write_eq (t : Target) (first : Field String) (limit : Field (Option Nat)) :
    v.write t first limit = w.write t first limit := by
  rw [twin.eq_under]
  unfold Workspace.write
  simp only [heap_under, viewSlot_under]
  rfl

theorem acts_eq (cursors : Cursors) (acts : List CursorAct) :
    v.acts cursors acts = w.acts cursors acts := by
  have hact : v.act = w.act := by
    funext cursors a
    rw [twin.eq_under]
    cases a with
    | start name order target =>
        unfold act
        simp only [heap_under, view_under]
        rfl
    | _ => rfl
  induction acts generalizing cursors with
  | nil => rfl
  | cons a rest ih =>
      unfold acts
      rw [hact]
      simp only [ih]

theorem machineReport_eq (full : Bool) (m : Dismantler) :
    v.heap.machineReport full m = w.heap.machineReport full m := by
  rw [twin.eq_under, heap_under, machineReport_under]

theorem machine_eq (name : Field String) : v.machine name = w.machine name := by
  rw [twin.eq_under]
  rfl

end Workspace.Twin

namespace Action

variable {q : Policy} {w v : Workspace}

/-! ## Changes -/

section Change

variable (twin : Twin q w v) (t : Target)

include twin

theorem twins_setValue (value : Field Value) :
    Twins q (setValue t value) (setValue t value) w v := by
  refine (twins_look twin rfl).bind fun value w v twin => twins_get_bind ?_
  rw [twin.locateOwned_eq]
  cases w.locateOwned t with
  | ok id =>
      exact twins_modify_pure (twin.setValue id value) _
  | error failure =>
      exact (twins_modify (twin.report _)).bind fun _ _ _ twin => twins_throw twin failure

theorem twins_pushBack {tree : Spec} (htree : tree.isCloneless) :
    Twins q (pushBack t tree) (pushBack t tree) w v := by
  refine (Spec.twins_build twin htree).bind fun s w v twin => twins_holding ?_ [s]
  refine (twins_look twin (twin.locateOwned_eq t)).bind fun id w v twin => ?_
  exact twins_modify_pure (twin.pushBack id s) _

theorem twins_setChildren {trees : Field (List Spec)} (htrees : trees.all Spec.areCloneless) :
    Twins q (setChildren t trees) (setChildren t trees) w v := by
  refine twins_need_bind twin fun specs hspecs => ?_
  subst hspecs
  refine (Spec.twins_buildAll twin htrees).bind fun slots w v twin => twins_holding ?_ slots
  refine (twins_look twin (twin.locateOwned_eq t)).bind fun id w v twin => ?_
  exact twins_modify_pure (twin.replaceSlots id slots) _

theorem twins_removeChildren : Twins q (removeChildren t) (removeChildren t) w v := by
  refine (twins_look twin (twin.locateOwned_eq t)).bind fun id w v twin => ?_
  exact twins_modify_pure (twin.drain id) _

omit t in
theorem twins_stow (into : Field (Option String)) (s : Slot) :
    Twins q (stow into s) (stow into s) w v := by
  apply twins_get_bind
  rw [twin.content_eq]
  refine (twins_holding ?_ [s]).bind fun _ _ _ twin => twins_pure twin _
  exact (twins_look twin rfl).bind fun into _ _ twin => twins_modify (twin.keep into s)

theorem twins_popBack (into : Field (Option String)) :
    Twins q (popBack t into) (popBack t into) w v := by
  refine (twins_look twin (twin.locateOwned_eq t)).bind fun id w v twin => twins_get_bind ?_
  have hpop := popBack_under q w.heap id
  rw [← heap_under, ← twin.eq_under] at hpop
  rw [hpop]
  cases hpop : w.heap.popBack id with
  | none => exact twins_pure twin _
  | some popped =>
      have single := twin.single.popBack hpop
      exact (twins_modify (twin.update single rfl)).bind fun _ _ _ twin =>
        twins_stow twin into popped.1

theorem twins_putSlot (access : Field SlotAccess) (index : Field Nat) {tree : Spec}
    (htree : tree.isCloneless) :
    Twins q (putSlot t access index tree) (putSlot t access index tree) w v := by
  refine (Spec.twins_build twin htree).bind fun s w v twin => twins_holding ?_ [s]
  refine (twins_look twin (twin.locateOwned_eq t)).bind fun id w v twin => ?_
  refine (twins_look twin rfl).bind fun access w v twin => ?_
  refine (twins_look twin (twin.slotIndex_eq id access index)).bind fun index w v twin => ?_
  obtain ⟨hexchanged, hold⟩ := twin.exchange id index s
  refine twins_modify_pure ?_ _
  dsimp only
  rw [hold]
  exact hexchanged.giveUp _

theorem twins_takeSlot (access : Field SlotAccess) (index : Field Nat)
    (into : Field (Option String)) :
    Twins q (takeSlot t access index into) (takeSlot t access index into) w v := by
  refine (twins_look twin (twin.locateOwned_eq t)).bind fun id w v twin => ?_
  refine (twins_look twin rfl).bind fun access w v twin => ?_
  refine (twins_look twin (twin.slotIndex_eq id access index)).bind fun index w v twin => ?_
  obtain ⟨hexchanged, hold⟩ := twin.exchange id index none
  exact (twins_alter hold hexchanged).bind fun s _ _ twin => twins_stow twin into s

theorem twins_punch (holes : Field (List Nat)) :
    Twins q (punch t holes) (punch t holes) w v := by
  refine (twins_look twin rfl).bind fun holes w v twin => ?_
  refine (twins_look twin (twin.locateOwned_eq t)).bind fun id w v twin => ?_
  obtain ⟨hpunched, hcount⟩ := twin.punch id holes
  exact twins_alter (congrArg Answer.number hcount) hpunched

end Change

/-! ## Dismantlers -/

section Machine

variable (twin : Twin q w v)

include twin

theorem twins_destroy (register : Field String) :
    Twins q (destroy register) (destroy register) w v := by
  refine (twins_look twin rfl).bind fun name w v twin => ?_
  refine (twins_look twin (twin.register_eq name)).bind fun _ w v twin => ?_
  obtain ⟨hpicked, hslot⟩ := twin.pick name
  refine twins_modify_pure ?_ _
  dsimp only
  rw [hslot]
  exact hpicked.dropMachine (.start (w.pick name).2)

theorem twins_createMachine (machine register : Field String) :
    Twins q (createMachine machine register) (createMachine machine register) w v := by
  refine (twins_look twin rfl).bind fun machine w v twin => ?_
  refine (twins_look twin rfl).bind fun name w v twin => ?_
  refine (twins_look twin (twin.register_eq name)).bind fun _ w v twin => ?_
  obtain ⟨hpicked, hslot⟩ := twin.pick name
  refine twins_modify_pure ?_ _
  dsimp only
  rw [hslot]
  exact hpicked.installMachine machine (.start (w.pick name).2)

theorem twins_stepMachine (machine : Field String) (n : Field Nat) (full : Bool) :
    Twins q (stepMachine machine n full) (stepMachine machine n full) w v := by
  refine (twins_look twin rfl).bind fun n w v twin => ?_
  refine (twins_look twin (twin.machine_eq machine)).bind fun found w v twin => ?_
  obtain ⟨name, m⟩ := found
  obtain ⟨hran, heq⟩ := twin.single.stepUpTo q full n m
  rw [← heap_under, ← twin.eq_under] at heq
  apply twins_alter
  · dsimp only
    rw [heq]
  · dsimp only
    rw [heq, twin.machines_eq]
    exact (twin.update hran rfl).setMachines _

theorem twins_machineState (machine : Field String) :
    Twins q (machineState machine) (machineState machine) w v := by
  refine (twins_look twin (twin.machine_eq machine)).bind fun found w v twin => ?_
  apply twins_get_bind
  rw [twin.machineReport_eq]
  exact twins_pure twin _

theorem twins_runMachine (machine : Field String) :
    Twins q (runMachine machine) (runMachine machine) w v := by
  refine (twins_look twin (twin.machine_eq machine)).bind fun found w v twin => ?_
  obtain ⟨name, m⟩ := found
  obtain ⟨hdone, hmachine⟩ := twin.finish m
  apply twins_alter
  · dsimp only
    rw [hmachine, hdone.machineReport_eq]
  · dsimp only
    rw [hmachine, hdone.machines_eq]
    exact hdone.setMachines _

theorem twins_dropMachine (machine : Field String) :
    Twins q (dropMachine machine) (dropMachine machine) w v := by
  refine (twins_look twin (twin.machine_eq machine)).bind fun found w v twin => ?_
  obtain ⟨name, m⟩ := found
  refine twins_modify_pure ?_ _
  rw [twin.machines_eq]
  exact (twin.setMachines _).dropMachine m

theorem twins_machine (c : MachineCommand) : Twins q c.exec c.exec w v := by
  cases c with
  | destroy register => exact twins_destroy twin register
  | create machine register => exact twins_createMachine twin machine register
  | step machine n full => exact twins_stepMachine twin machine n full
  | state machine => exact twins_machineState twin machine
  | run machine => exact twins_runMachine twin machine
  | drop machine => exact twins_dropMachine twin machine

end Machine

/-! ## All commands -/

section Command

variable (twin : Twin q w v)

include twin

theorem twins_store (register : Field String) (s : Slot) :
    Twins q (store register s) (store register s) w v := by
  refine twins_holding ?_ [s]
  exact (twins_look twin rfl).bind fun name _ _ twin => twins_modify (twin.assign name s)

theorem twins_make (register : Field String) (maker : Field Maker) {tree : Spec}
    (htree : tree.isCloneless) :
    Twins q (make register maker tree) (make register maker tree) w v := by
  refine (twins_look twin rfl).bind fun _ w v twin => ?_
  refine (Spec.twins_build twin htree).bind fun s w v twin => ?_
  exact (twins_store twin register s).bind fun _ _ _ twin => twins_pure twin _

theorem twins_plant (register : Field String) (t : Tree Nat) :
    Twins q (plant register t) (plant register t) w v := by
  obtain ⟨hgrown, hroot⟩ := twin.grow (t.map fun n : Nat => .int n)
  refine (twins_alter hroot hgrown).bind fun root w v twin => ?_
  exact (twins_store twin register (some root)).bind fun _ _ _ twin => twins_pure twin _

theorem twins_plantRootLast (register : Field String) (t : Tree Nat) :
    Twins q (plantRootLast register t) (plantRootLast register t) w v := by
  obtain ⟨hgrown, hslots⟩ := twin.growRow (t.map fun n : Nat => Value.int n).slots
  refine (twins_alter hslots hgrown).bind fun slots w v twin => twins_holding ?_ slots
  refine (twins_look twin rfl).bind fun name w v twin => ?_
  refine twins_modify_pure ?_ _
  obtain ⟨hmade, hroot⟩ := twin.alloc (t.map fun n : Nat => Value.int n).value slots
  dsimp only
  rw [hroot]
  exact hmade.assign name _

theorem twins_spine (register : Field String) (n : Field Nat)
    (patterns : Field (List (List Mark))) :
    Twins q (spine register n patterns) (spine register n patterns) w v := by
  refine (twins_look twin rfl).bind fun n w v twin => ?_
  refine (twins_look twin rfl).bind fun patterns w v twin => ?_
  split
  · exact twins_plant twin register (.spine n patterns)
  · exact twins_throw twin _

theorem twins_complete (register : Field String) (arity depth : Field Nat) :
    Twins q (complete register arity depth) (complete register arity depth) w v := by
  refine (twins_look twin rfl).bind fun arity w v twin => ?_
  refine (twins_look twin rfl).bind fun depth w v twin => ?_
  exact twins_plant twin register (.complete arity depth 1)

theorem twins_wide (register : Field String) (n : Field Nat) :
    Twins q (wide register n) (wide register n) w v :=
  (twins_look twin rfl).bind fun n _ _ twin => twins_plantRootLast twin register (.wide n)

theorem twins_drop (register : Field String) :
    Twins q (drop register) (drop register) w v := by
  refine (twins_look twin rfl).bind fun name w v twin => ?_
  refine (twins_look twin (twin.register_eq name)).bind fun s w v twin => ?_
  obtain ⟨hpicked, hslot⟩ := twin.pick name
  refine twins_modify_pure ?_ _
  dsimp only
  rw [hslot]
  exact hpicked.giveUp _

theorem twins_intoValue (register : Field String) :
    Twins q (intoValue register) (intoValue register) w v := by
  refine (twins_look twin rfl).bind fun name w v twin => ?_
  refine (twins_look twin (twin.root_eq name)).bind fun id w v twin => twins_get_bind ?_
  have hexclusive := twin.single.isExclusive_under q id
  have hunwrap := unwrap_under q w.heap id
  rw [← heap_under, ← twin.eq_under] at hexclusive hunwrap
  rw [hexclusive, hunwrap]
  split
  · cases hw : w.heap.unwrap id with
    | none => exact twins_throw twin _
    | some unwrapped =>
        obtain ⟨value, h, values⟩ := unwrapped
        have single := twin.single.unwrap hw
        refine (twins_set ?_).bind fun _ _ _ twin => twins_pure twin _
        exact (twin.pick name).1.settle single rfl
  · exact twins_throw twin _

theorem twins_change (t : Target) {c : Change} (hc : c.isCloneless) :
    Twins q (c.run t) (c.run t) w v := by
  cases c with
  | setValue value => exact twins_setValue twin t value
  | pushBack tree => exact twins_pushBack twin t hc
  | setChildren trees => exact twins_setChildren twin t hc
  | removeChildren => exact twins_removeChildren twin t
  | popBack into => exact twins_popBack twin t into
  | putSlot access index tree => exact twins_putSlot twin t access index hc
  | takeSlot access index into => exact twins_takeSlot twin t access index into
  | punch holes => exact twins_punch twin t holes

omit twin in
/-- A command that clones no handle comes to the same in twin workspaces. -/
theorem exec_twin (twin : Twin q w v) {c : Command} (hc : c.isCloneless) :
    (c.exec.run.run v).1 = c.resultUnder q (c.exec.run.run w).1 ∧
      Twin q (c.exec.run.run w).2 (c.exec.run.run v).2 := by
  cases c with
  | make register maker tree => exact twins_make twin register maker hc
  | spine register n patterns => exact twins_spine twin register n patterns
  | complete register arity depth => exact twins_complete twin register arity depth
  | wide register n => exact twins_wide twin register n
  | makeDefault register => exact twins_plantRootLast twin register (.leaf 0)
  | drop register => exact twins_drop twin register
  | policy =>
      obtain ⟨single, rfl⟩ := twin
      exact ⟨rfl, single, rfl⟩
  | share target into => nomatch hc
  | shareShown target into => nomatch hc
  | count target => exact twins_look twin (twin.count_eq target)
  | exclusive register => exact twins_look twin (twin.exclusive_eq register)
  | query target query => exact twins_look twin (twin.query_eq target query)
  | format target style => exact twins_look twin (twin.format_eq target style)
  | write target first limit => exact twins_look twin (twin.write_eq target first limit)
  | cursors acts =>
      refine (twins_look twin rfl).bind fun acts w v twin => twins_get_bind ?_
      rw [twin.acts_eq]
      exact twins_pure twin _
  | change target c => exact twins_change twin target hc
  | intoValue register => exact twins_intoValue twin register
  | machine c => exact twins_machine twin c
  | unknown => exact twins_throw twin _

end Command

end Action

end SlotTree
