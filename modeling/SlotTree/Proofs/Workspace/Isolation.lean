import SlotTree.Proofs.Workspace.Bystander
import SlotTree.Proofs.Workspace.Run

/-! # Isolation of holders

A command uses some holders: those whose slots it takes or replaces, the register of a node that it
changes, and the machine that it lets work. All other holders are bystanders, and see the same trees
before and after.
-/

namespace SlotTree

open List Heap Workspace

/-! ## What commands use -/

namespace Spec

mutual

/-- The registers that are moved out. -/
def takes : Spec → List Holder
  | .node _ slots => allTakes slots
  | .take name => [.register name]
  | _ => []

def allTakes : List Spec → List Holder
  | [] => []
  | spec :: rest => takes spec ++ allTakes rest

end

end Spec

/-- What a change uses besides the register of its target. -/
def Change.uses : Change → List Holder
  | .pushBack tree => tree.takes
  | .setChildren trees => trees.elim [] Spec.allTakes
  | .popBack into => holderOf .register into.join
  | .putSlot _ _ tree => tree.takes
  | .takeSlot _ _ into => holderOf .register into.join
  | _ => []

def MachineCommand.uses : MachineCommand → List Holder
  | .destroy register => holderOf .register register
  | .create machine register => holderOf .machine machine ++ holderOf .register register
  | .step machine _ _ => holderOf .machine machine
  | .state _ => []
  | .run machine => holderOf .machine machine
  | .drop machine => holderOf .machine machine

/-- The holders that a command uses. To read a node or to clone a handle uses nothing. -/
def Command.uses : Command → List Holder
  | .make register _ tree => holderOf .register register ++ tree.takes
  | .spine register _ _ => holderOf .register register
  | .complete register _ _ => holderOf .register register
  | .wide register _ => holderOf .register register
  | .makeDefault register => holderOf .register register
  | .drop register => holderOf .register register
  | .share _ into => holderOf .register into
  | .shareShown _ into => holderOf .register into
  | .change target c => holderOf .register target.register ++ c.uses
  | .intoValue register => holderOf .register register
  | .machine c => c.uses
  | _ => []

namespace Workspace.Apart

variable {w start : Workspace} {x : Holder} {hand : List NodeId}

mutual

theorem construct {w start : Workspace} {x : Holder} {hand : List NodeId}
    (apart : Apart x start hand w) (spec : Spec) (hx : x ∉ spec.takes) :
    Apart x start ([(spec.construct w).2].reduceOption ++ hand) (spec.construct w).1 := by
  cases spec with
  | hole => exact apart
  | node value slots =>
      rw [Spec.takes] at hx
      exact (constructAll apart slots hx).alloc value
  | take name =>
      rw [Spec.takes, List.mem_singleton] at hx
      exact apart.pick hx
  | share name =>
      unfold Spec.construct
      cases hget : (w.registers.get? name).join with
      | none => exact apart
      | some id =>
          have hclear := apart.sound.not_waits (.inl (mem_inRegisters apart.sound hget))
          cases hk : w.heap.share? id with
          | none =>
              simp only [hk]
              exact apart
          | some k =>
              simp only [hk]
              exact apart.share hclear hk
  | malformed => exact apart

theorem constructAll {w start : Workspace} {x : Holder} {hand : List NodeId}
    (apart : Apart x start hand w) (specs : List Spec) (hx : x ∉ Spec.allTakes specs) :
    Apart x start ((Spec.constructAll w specs).2.reduceOption ++ hand)
      (Spec.constructAll w specs).1 := by
  match specs with
  | [] => exact apart
  | spec :: rest =>
      rw [Spec.allTakes, List.mem_append, not_or] at hx
      have hrest := constructAll (construct apart spec hx.1) rest hx.2
      exact hrest.perm (reduceOption_cons_perm _ _ hand)

end

theorem build (apart : Apart x start [] w) (spec : Spec) (hx : x ∉ spec.takes) :
    spec.build.Ends w (fun s after => Apart x start [s].reduceOption after)
      (Apart x start []) := by
  refine Action.ends_look_bind (fun _ _ => apart) fun taken _ => Action.ends_alter ?_
  simpa using apart.construct spec hx

theorem buildAll (apart : Apart x start [] w) (specs : List Spec)
    (hx : x ∉ Spec.allTakes specs) :
    (Spec.buildAll specs).Ends w (fun slots after => Apart x start slots.reduceOption after)
      (Apart x start []) := by
  refine Action.ends_look_bind (fun _ _ => apart) fun taken _ => Action.ends_alter ?_
  simpa using apart.constructAll specs hx

end Workspace.Apart

namespace Action

variable {w start : Workspace} {x : Holder} {α : Type}

/-- However an action ends, a bystander sees what it saw at the start. -/
def Spares (act : Action α) (x : Holder) (start w : Workspace) : Prop :=
  act.Ends w (fun _ after => Apart x start [] after) (Apart x start [])

theorem spares_holding {slots : List Slot} {act : Action α}
    (hact : act.Ends w (fun _ after => Apart x start [] after)
      (Apart x start slots.reduceOption)) : (holding slots act).Spares x start w :=
  ends_holding hact fun _ hafter => hafter.append_nil.giveUp

theorem spares_look (apart : Apart x start [] w) (f : Workspace → Except Failure α) :
    (look f).Spares x start w :=
  ends_look (fun _ _ => apart) fun _ _ => apart

/-- A part of a command names a holder other than the bystander, or the action fails. -/
theorem ends_name_bind {holder : String → Holder} {field : Field String}
    {next : String → Action α} {Q : α → Workspace → Prop} {E : Workspace → Prop} (he : E w)
    (hx : x ∉ holderOf holder field)
    (hnext : ∀ name, x ≠ holder name → (next name).Ends w Q E) :
    ((look fun _ => field.need) >>= next).Ends w Q E := by
  refine ends_need_bind (fun _ => he) fun name hname => hnext name ?_
  simpa [hname] using hx

/-! ## Changes -/

section Change

variable (apart : Apart x start [] w) {t : Target} (ht : x ∉ holderOf .register t.register)

include apart ht

theorem spares_setValue (value : Field Value) : (setValue t value).Spares x start w := by
  refine ends_look_bind (fun _ _ => apart) fun value _ => ends_get_bind ?_
  cases hid : w.locateOwned t with
  | ok id => exact ends_modify_bind (ends_pure (apart.setValue hid ht value))
  | error failure => exact ends_modify_bind (ends_throw (apart.report _))

theorem spares_pushBack {tree : Spec} (hx : x ∉ tree.takes) :
    (pushBack t tree).Spares x start w := by
  refine (apart.build tree hx).bind fun s built apart => spares_holding ?_
  refine ends_look_bind (fun _ _ => apart) fun id hid => ends_modify_bind (ends_pure ?_)
  exact apart.append_nil.pushBack hid ht

theorem spares_setChildren {trees : Field (List Spec)} (hx : x ∉ trees.elim [] Spec.allTakes) :
    (setChildren t trees).Spares x start w := by
  apply ends_need_bind fun _ => apart
  rintro specs rfl
  refine (apart.buildAll specs hx).bind fun slots built apart => spares_holding ?_
  refine ends_look_bind (fun _ _ => apart) fun id hid => ends_modify_bind (ends_pure ?_)
  exact apart.append_nil.replaceSlots hid ht

theorem spares_removeChildren : (removeChildren t).Spares x start w := by
  refine ends_look_bind (fun _ _ => apart) fun id hid => ends_modify_bind (ends_pure ?_)
  exact apart.drain hid ht

omit apart ht in
theorem spares_stow {s : Slot} (apart : Apart x start [s].reduceOption w)
    {into : Field (Option String)} (hx : x ∉ holderOf .register into.join) :
    (stow into s).Spares x start w := by
  refine ends_get_bind (Ends.bind (R := fun _ after => Apart x start [] after) ?_
    fun _ after hafter => ends_pure hafter)
  apply spares_holding
  apply ends_need_bind fun _ => apart
  rintro name rfl
  exact ends_modify (apart.append_nil.keep hx)

theorem spares_popBack {into : Field (Option String)} (hx : x ∉ holderOf .register into.join) :
    (popBack t into).Spares x start w := by
  refine ends_look_bind (fun _ _ => apart) fun id hid => ends_get_bind ?_
  cases hpop : w.heap.popBack id with
  | none => exact ends_pure apart
  | some popped =>
      obtain ⟨s, k⟩ := popped
      refine ends_modify_bind (spares_stow ?_ hx)
      simpa using apart.popBack hid ht hpop

theorem spares_putSlot (access : Field SlotAccess) (index : Field Nat) {tree : Spec}
    (hx : x ∉ tree.takes) : (putSlot t access index tree).Spares x start w := by
  refine (apart.build tree hx).bind fun s built apart => spares_holding ?_
  refine ends_look_bind (fun _ _ => apart) fun id hid => ?_
  refine ends_look_bind (fun _ _ => apart) fun access _ => ?_
  refine ends_look_bind (fun _ _ => apart) fun index hindex => ends_modify_bind (ends_pure ?_)
  exact (apart.append_nil.exchange hid ht (slotIndex_lt hindex)).giveUp

theorem spares_takeSlot (access : Field SlotAccess) (index : Field Nat)
    {into : Field (Option String)} (hx : x ∉ holderOf .register into.join) :
    (takeSlot t access index into).Spares x start w := by
  refine ends_look_bind (fun _ _ => apart) fun id hid => ?_
  refine ends_look_bind (fun _ _ => apart) fun access _ => ?_
  refine ends_look_bind (fun _ _ => apart) fun index hindex => ?_
  refine ends_alter_bind (spares_stow ?_ hx)
  have hnothing : Apart x start ([none].reduceOption ++ []) w := apart
  simpa using hnothing.exchange hid ht (slotIndex_lt hindex)

theorem spares_punch (holes : Field (List Nat)) : (punch t holes).Spares x start w := by
  refine ends_look_bind (fun _ _ => apart) fun holes _ => ?_
  exact ends_look_bind (fun _ _ => apart) fun id hid => ends_alter (apart.punch hid ht holes)

theorem spares_change {c : Change} (hx : x ∉ c.uses) : (c.run t).Spares x start w := by
  cases c with
  | setValue value => exact spares_setValue apart ht value
  | pushBack tree => exact spares_pushBack apart ht hx
  | setChildren trees => exact spares_setChildren apart ht hx
  | removeChildren => exact spares_removeChildren apart ht
  | popBack into => exact spares_popBack apart ht hx
  | putSlot access index tree => exact spares_putSlot apart ht access index hx
  | takeSlot access index into => exact spares_takeSlot apart ht access index hx
  | punch holes => exact spares_punch apart ht holes

end Change

/-! ## Dismantlers -/

section Machine

variable (apart : Apart x start [] w)

include apart

/-- A fresh machine takes over what a register held. -/
theorem apart_start {name : String} (hx : x ≠ .register name) :
    Apart x start ((Dismantler.start (w.pick name).2).held ++ []) (w.pick name).1 := by
  rw [Dismantler.held_start]
  exact (apart.pick hx).perm (List.Perm.of_eq (by cases (w.pick name).2 <;> rfl))

/-- A machine that is found comes into the hand. -/
theorem apart_taken {field : Field String} {name : String} {m : Dismantler}
    (hfound : w.machine field = .ok (name, m)) (hx : x ∉ holderOf .machine field) :
    x ≠ .machine name ∧ m.Ready w.heap ∧
      Apart x start (m.held ++ []) { w with machines := w.machines.erase name } := by
  obtain ⟨rfl, hget⟩ := machine_ok hfound
  have hname : x ≠ .machine name := by simpa using hx
  have htaken := apart.takeMachine hname
  rw [hget] at htaken
  exact ⟨hname, apart.sound.ready _ (apart.sound.machines.mem_of_get? hget), htaken⟩

theorem spares_destroy {register : Field String} (hx : x ∉ holderOf .register register) :
    (destroy register).Spares x start w := by
  refine ends_name_bind apart hx fun name hname => ?_
  refine ends_look_bind (fun _ _ => apart) fun s _ => ends_modify_bind (ends_pure ?_)
  exact (apart_start apart hname).finish (Dismantler.ready_start _ _)

theorem spares_createMachine {machine register : Field String}
    (hmachine : x ∉ holderOf .machine machine) (hregister : x ∉ holderOf .register register) :
    (createMachine machine register).Spares x start w := by
  refine ends_name_bind apart hmachine fun machine hmachine => ?_
  refine ends_name_bind apart hregister fun name hname => ?_
  refine ends_look_bind (fun _ _ => apart) fun s _ => ends_modify_bind (ends_pure ?_)
  exact (apart_start apart hname).installMachine (Dismantler.ready_start _ _) hmachine

theorem spares_stepMachine {machine : Field String} (hx : x ∉ holderOf .machine machine)
    (n : Field Nat) (full : Bool) : (stepMachine machine n full).Spares x start w := by
  refine ends_look_bind (fun _ _ => apart) fun n _ => ?_
  refine ends_look_bind (fun _ _ => apart) fun found hfound => ends_alter ?_
  obtain ⟨name, m⟩ := found
  obtain ⟨hmachine, hheap, -⟩ := Dismantler.stepUpTo_eq full n m w.heap
  obtain ⟨hname, ready, htaken⟩ := apart_taken apart hfound hx
  have hready := (htaken.sound.stage.runFor ready n).2
  have hran := (htaken.runFor ready n).storeMachine apart.sound.machines rfl hready hname
  rwa [← hmachine, ← hheap] at hran

theorem spares_runMachine {machine : Field String} (hx : x ∉ holderOf .machine machine) :
    (runMachine machine).Spares x start w := by
  refine ends_look_bind (fun _ _ => apart) fun found hfound => ends_alter ?_
  obtain ⟨name, m⟩ := found
  obtain ⟨hname, ready, htaken⟩ := apart_taken apart hfound hx
  obtain ⟨-, hheld, hready, -⟩ := htaken.sound.stage.finish ready
  have hdone := htaken.finish ready
  rw [← List.nil_append ([] : List NodeId)] at hdone
  nth_rewrite 1 [← hheld] at hdone
  exact hdone.storeMachine apart.sound.machines rfl hready hname

theorem spares_dropMachine {machine : Field String} (hx : x ∉ holderOf .machine machine) :
    (dropMachine machine).Spares x start w := by
  refine ends_look_bind (fun _ _ => apart) fun found hfound => ends_modify_bind (ends_pure ?_)
  obtain ⟨name, m⟩ := found
  obtain ⟨-, ready, htaken⟩ := apart_taken apart hfound hx
  exact htaken.finish ready

theorem spares_machine {c : MachineCommand} (hx : x ∉ c.uses) : c.exec.Spares x start w := by
  cases c with
  | destroy register => exact spares_destroy apart hx
  | create machine register =>
      obtain ⟨hmachine, hregister⟩ := not_or.1 (List.mem_append.not.1 hx)
      exact spares_createMachine apart hmachine hregister
  | step machine n full => exact spares_stepMachine apart hx n full
  | state machine =>
      refine ends_look_bind (fun _ _ => apart) fun found _ => ?_
      exact ends_get_bind (ends_pure apart)
  | run machine => exact spares_runMachine apart hx
  | drop machine => exact spares_dropMachine apart hx

end Machine

/-! ## All commands -/

section Command

variable (apart : Apart x start [] w)

theorem spares_store {s : Slot} (apart : Apart x start [s].reduceOption w)
    {register : Field String} (hx : x ∉ holderOf .register register) :
    (store register s).Spares x start w :=
  spares_holding (ends_name_bind apart hx fun _ hname =>
    ends_modify (apart.append_nil.assign hname))

include apart

theorem spares_make {register : Field String} (hx : x ∉ holderOf .register register)
    (maker : Field Maker) {tree : Spec} (htree : x ∉ tree.takes) :
    (make register maker tree).Spares x start w := by
  refine ends_look_bind (fun _ _ => apart) fun maker _ => ?_
  refine (apart.build tree htree).bind fun s built apart => ?_
  exact (spares_store apart hx).bind fun _ after hafter => ends_pure hafter

theorem spares_plant {register : Field String} (hx : x ∉ holderOf .register register)
    (t : Tree Nat) : (plant register t).Spares x start w := by
  have hgrown : Apart x start [(w.heap.plant (numbered t)).2] (w.grow (numbered t)).1 :=
    apart.plant (numbered t)
  apply ends_alter_bind
  exact (spares_store (s := some _) hgrown hx).bind fun _ after hafter => ends_pure hafter

theorem spares_plantRootLast {register : Field String} (hx : x ∉ holderOf .register register)
    (t : Tree Nat) : (plantRootLast register t).Spares x start w := by
  have hgrown := apart.plantRow (numbered t).slots
  rw [List.append_nil] at hgrown
  apply ends_alter_bind
  apply spares_holding
  refine ends_name_bind hgrown hx fun name hname => ends_modify_bind (ends_pure ?_)
  exact Apart.assign (s := some _) (hgrown.append_nil.alloc (numbered t).value) hname

theorem spares_spine {register : Field String} (hx : x ∉ holderOf .register register)
    (n : Field Nat) (patterns : Field (List (List Mark))) :
    (spine register n patterns).Spares x start w := by
  refine ends_look_bind (fun _ _ => apart) fun n _ => ?_
  refine ends_look_bind (fun _ _ => apart) fun patterns _ => ?_
  split
  · exact spares_plant apart hx (.spine n patterns)
  · exact ends_throw apart

theorem spares_complete {register : Field String} (hx : x ∉ holderOf .register register)
    (arity depth : Field Nat) : (complete register arity depth).Spares x start w := by
  refine ends_look_bind (fun _ _ => apart) fun arity _ => ?_
  refine ends_look_bind (fun _ _ => apart) fun depth _ => ?_
  exact spares_plant apart hx (.complete arity depth 1)

theorem spares_wide {register : Field String} (hx : x ∉ holderOf .register register)
    (n : Field Nat) : (wide register n).Spares x start w :=
  ends_look_bind (fun _ _ => apart) fun n _ => spares_plantRootLast apart hx (.wide n)

theorem spares_drop {register : Field String} (hx : x ∉ holderOf .register register) :
    (drop register).Spares x start w := by
  refine ends_name_bind apart hx fun name hname => ?_
  refine ends_look_bind (fun _ _ => apart) fun s _ => ends_modify_bind (ends_pure ?_)
  exact (apart.pick hname).giveUp

theorem spares_clone {s : Slot} (hs : w.Lendable s) :
    (clone s).Ends w (fun _ after => Apart x start [s].reduceOption after)
      (Apart x start []) := by
  cases s with
  | none => exact ends_pure apart
  | some id =>
      apply ends_get_bind
      cases hk : w.heap.share? id with
      | none => exact ends_throw apart
      | some k =>
          have hclear := apart.sound.not_waits (hs id rfl)
          exact ends_modify (apart.share hclear hk)

theorem spares_share {locate : Workspace → Except Failure Slot}
    (hlend : ∀ s, locate w = .ok s → w.Lendable s) {into : Field String}
    (hx : x ∉ holderOf .register into) : (share locate into).Spares x start w := by
  refine ends_look_bind (fun _ _ => apart) fun s hs => ?_
  refine (spares_clone apart (hlend s hs)).bind fun _ cloned apart => ?_
  exact (spares_store apart hx).bind fun _ after hafter => ends_pure hafter

/-- A node that is taken apart goes like one that is released. -/
theorem apart_unwrap {name : String} {id : NodeId} {n : Node Value}
    (hget : w.registers.get? name = some (some id)) (hn : w.heap.get? id = some n)
    (hlast : ¬ 1 < n.count) (hx : x ≠ .register name) :
    Apart x start [] ({ w with registers := w.registers.erase name }.settle
      (((w.heap.free id).release n.handles).1,
        ((w.heap.free id).release n.handles).2 ++ [n.value])) := by
  have hrelease : (w.heap.release [id]).1 = ((w.heap.free id).release n.handles).1 := by
    rw [release_last hn hlast, List.append_nil]
  refine apart.step (stage_unwrap apart.sound hget hn hlast).sound (slotsHeld_pick hx)
    fun other _ hlive => ?_
  change ((w.heap.free id).release n.handles).1.Live other at hlive
  change ((w.heap.free id).release n.handles).1.content? other = w.heap.content? other
  rw [← hrelease] at hlive ⊢
  exact content?_release hlive

theorem spares_intoValue {register : Field String} (hx : x ∉ holderOf .register register) :
    (intoValue register).Spares x start w := by
  refine ends_name_bind apart hx fun name hname => ?_
  refine ends_look_bind (fun _ _ => apart) fun id hid => ends_get_bind ?_
  by_cases hexclusive : w.heap.isExclusive id
  · obtain ⟨n, hn, hlast, hunwrap⟩ := unwrap_eq apart.sound hexclusive
    rw [if_pos hexclusive, hunwrap]
    exact ends_set_bind (ends_pure (apart_unwrap apart (root_ok hid) hn hlast hname))
  · rw [if_neg hexclusive]
    exact ends_throw apart

theorem spares_command {c : Command} (hx : x ∉ c.uses) : c.exec.Spares x start w := by
  cases c with
  | make register maker tree =>
      obtain ⟨hregister, htree⟩ := not_or.1 (List.mem_append.not.1 hx)
      exact spares_make apart hregister maker htree
  | spine register n patterns => exact spares_spine apart hx n patterns
  | complete register arity depth => exact spares_complete apart hx arity depth
  | wide register n => exact spares_wide apart hx n
  | makeDefault register => exact spares_plantRootLast apart hx (.leaf 0)
  | drop register => exact spares_drop apart hx
  | policy => exact ends_get_bind (ends_pure apart)
  | share target into => exact spares_share apart (fun _ => locateSlot_ok apart.sound) hx
  | shareShown target into => exact spares_share apart (fun _ => locateShown_ok) hx
  | count target => exact spares_look apart _
  | exclusive register => exact spares_look apart _
  | query target q => exact spares_look apart _
  | format target style => exact spares_look apart _
  | write target first limit => exact spares_look apart _
  | cursors acts =>
      exact ends_look_bind (fun _ _ => apart) fun acts _ => ends_get_bind (ends_pure apart)
  | change target c =>
      obtain ⟨htarget, hchange⟩ := not_or.1 (List.mem_append.not.1 hx)
      exact spares_change apart htarget hchange
  | intoValue register => exact spares_intoValue apart hx
  | machine c => exact spares_machine apart hx
  | unknown => exact ends_throw apart

end Command

end Action

namespace Workspace

variable {w : Workspace} {x : Holder}

theorem perform_apart {start : Workspace} (apart : Apart x start [] w) (showRegisters : Bool)
    {c : Command} (hx : x ∉ c.uses) : Apart x start [] (w.perform showRegisters c).1 := by
  have hspares := Action.spares_command apart hx
  have hexec : Apart x start [] (w.exec c).2 := by
    unfold Action.Spares Action.Ends at hspares
    unfold Workspace.exec
    rcases hrun : c.exec.run.run w with ⟨result, after⟩
    rw [hrun] at hspares
    cases result with
    | ok answer => exact hspares
    | error failure => exact hspares
  have sound := hexec.sound
  exact ⟨⟨sound.owned, sound.ready, sound.registers, sound.machines⟩, hexec.held_eq,
    hexec.content_eq⟩

/-- What a holder sees in a sound workspace is there as a whole. -/
theorem Sound.view_isSome (sound : Sound [] w) {id : NodeId} (hid : id ∈ w.handlesOf x) :
    (w.heap.view id).isSome := by
  have hlive := sound.owned.live_of_mem
    (List.mem_append_right _ (sound.handlesOf_subset x hid))
  obtain ⟨t, hview, -⟩ := sound.owned.view_eq hlive
  rw [hview, Option.isSome_some]

/-- After any run of commands, each further command leaves the holders that it does not use what
they had: the same slots, and below them the same trees, with the same nodes and values, and the
same holes. Only the counts of handles may have changed. -/
theorem isolation_of_holders (p : Policy) (showRegisters : Bool) (commands : List Command)
    (c : Command) :
    let w := (performAll showRegisters (.empty p) commands).1
    let after := (w.perform showRegisters c).1
    ∀ x, x ∉ c.uses →
      after.slotsHeld x = w.slotsHeld x ∧
      (∀ id ∈ w.handlesOf x, (w.heap.view id).isSome) ∧
      after.seenBy x = w.seenBy x := by
  have sound := (performAll_spec (sound_empty p) rfl showRegisters commands).sound
  intro w after x hx
  have apart := perform_apart (.refl sound x) showRegisters hx
  exact ⟨apart.held_eq, fun id hid => sound.view_isSome hid, apart.seenBy_eq sound⟩

/-- A leaf in a register, and a tree above it in another. -/
def leafBelow : List Command :=
  [.make (some "leaf") (some .create) (.node (.int 2) []),
    .make (some "tree") (some .create) (.node (.int 1) [.share "leaf"])]

/-- Takes the leaf off the tree. -/
def takeOff : Command := .change ⟨some "tree", some []⟩ .removeChildren

theorem isolation_of_holders_leafBelow :
    let w := (performAll false (.empty .shared) leafBelow).1
    let after := (w.perform false takeOff).1
    w.handlesOf (.register "leaf") = [0] ∧ w.heap.slotsOf 1 = [some 0] ∧
    after.heap.slotsOf 1 = [] ∧ .register "leaf" ∉ takeOff.uses ∧
    after.slotsHeld (.register "leaf") = w.slotsHeld (.register "leaf") ∧
    (∀ id ∈ w.handlesOf (.register "leaf"), (w.heap.view id).isSome) ∧
    after.seenBy (.register "leaf") = w.seenBy (.register "leaf") := by
  have hx : Holder.register "leaf" ∉ takeOff.uses := by simp [takeOff, Command.uses, Change.uses]
  exact ⟨by decide +kernel, by decide +kernel, by decide +kernel, hx,
    isolation_of_holders .shared false leafBelow takeOff _ hx⟩

/-! ## Runs of commands -/

/-- Commands that do not use a holder, one after another. -/
theorem performAll_apart {start : Workspace} (apart : Apart x start [] w) (showRegisters : Bool)
    (commands : List Command) (hx : ∀ c ∈ commands, x ∉ c.uses) :
    Apart x start [] (performAll showRegisters w commands).1 := by
  induction commands generalizing w with
  | nil => exact apart
  | cons c rest ih =>
      have hfirst := perform_apart apart showRegisters (hx c List.mem_cons_self)
      rw [performAll_cons]
      exact ih hfirst fun c hc => hx c (List.mem_cons_of_mem _ hc)

/-- The same over any number of commands that do not use the holder. -/
theorem seenBy_performAll (p : Policy) (showRegisters : Bool) (commands later : List Command)
    {x : Holder} (hx : ∀ c ∈ later, x ∉ c.uses) :
    let w := (performAll showRegisters (.empty p) commands).1
    (performAll showRegisters w later).1.seenBy x = w.seenBy x := by
  have sound := (performAll_spec (sound_empty p) rfl showRegisters commands).sound
  exact (performAll_apart (.refl sound x) showRegisters later hx).seenBy_eq sound

end Workspace

end SlotTree
