import SlotTree.Proofs.Heap.Unfolding
import SlotTree.Proofs.Workspace.Machines

/-! # What a bystander sees

A holder sees the trees of the slots it holds. A change of the workspace leaves them as they are if
the holder keeps its slots and no surviving node that it reaches gets another content: as the
workspace is sound after the change, all these nodes survive.
-/

namespace SlotTree

open List Heap

/-- Those who hold handles between commands. -/
inductive Holder where
  | register (name : String)
  | machine (name : String)

/-- The holder of a name, where there is a name. -/
def holderOf (holder : String → Holder) (name : Option String) : List Holder :=
  name.toList.map holder

@[simp] theorem mem_holderOf {holder : String → Holder} {name : String} {x : Holder} :
    x ∈ holderOf holder (some name) ↔ x = holder name := by
  simp [holderOf]

namespace Workspace

/-- The slots of a holder, if there is one. A dismantler holds its current node and its parent. -/
def slotsHeld (w : Workspace) : Holder → Option (List Slot)
  | .register name => (w.registers.get? name).map fun s => [s]
  | .machine name => (w.machines.get? name).map fun m => [m.current, m.parent]

/-- The trees of a holder: at each place the node and its value, or a hole. -/
def seenBy (w : Workspace) (x : Holder) : Option (List (Option (Tree (NodeId × Value)))) :=
  (w.slotsHeld x).map (·.map fun s => (w.heap.viewSlot s).map (Tree.map fun n => (n.id, n.value)))

/-- The handles of a holder. -/
def handlesOf (w : Workspace) (x : Holder) : List NodeId := ((w.slotsHeld x).getD []).reduceOption

variable {w v start : Workspace} {x : Holder} {hand after : List NodeId}

theorem reduceOption_held (m : Dismantler) : [m.current, m.parent].reduceOption = m.held := by
  unfold Dismantler.held
  cases m.current <;> cases m.parent <;> rfl

theorem Sound.handlesOf_subset (sound : Sound hand w) (x : Holder) :
    w.handlesOf x ⊆ w.holders := by
  cases x with
  | register name =>
      cases hget : w.registers.get? name with
      | none => simp [handlesOf, slotsHeld, hget]
      | some s =>
          have hold := inRegisters_perm sound.registers name
          rw [hget] at hold
          intro a ha
          simp only [handlesOf, slotsHeld, hget, Option.map_some, Option.getD_some] at ha
          exact List.mem_append_left _ (hold.mem_iff.2 (List.mem_append_left _ ha))
  | machine name =>
      cases hget : w.machines.get? name with
      | none => simp [handlesOf, slotsHeld, hget]
      | some m =>
          have hold := inMachines_perm sound.machines name
          rw [hget] at hold
          intro a ha
          simp only [handlesOf, slotsHeld, hget, Option.map_some, Option.getD_some,
            reduceOption_held] at ha
          exact List.mem_append_right _ (hold.mem_iff.2 (List.mem_append_left _ ha))

/-! ## Bystanders -/

/-- A workspace on the way from another, sound with some handles in hand, in which a holder has the
same slots, and the nodes below them the same contents. -/
structure Apart (x : Holder) (start : Workspace) (hand : List NodeId) (w : Workspace) : Prop where
  sound : Sound hand w
  held_eq : w.slotsHeld x = start.slotsHeld x
  content_eq : ∀ id, start.heap.Reached (start.handlesOf x) id →
    w.heap.content? id = start.heap.content? id

namespace Apart

theorem refl (sound : Sound hand w) (x : Holder) : Apart x w hand w :=
  ⟨sound, rfl, fun _ _ => rfl⟩

theorem handles_eq (apart : Apart x start hand w) : w.handlesOf x = start.handlesOf x := by
  rw [handlesOf, handlesOf, apart.held_eq]

theorem reached (apart : Apart x start hand w) {id : NodeId}
    (hid : start.heap.Reached (start.handlesOf x) id) :
    w.heap.Reached (w.handlesOf x) id := by
  rw [apart.handles_eq]
  induction hid using Reached.rec_on with
  | held a ha => exact reached_of_mem _ ha
  | edge a b ha hedge ih =>
      apply ih.edge
      rwa [Edge, slotsOf_congr (apart.content_eq a ha)]

/-- A step on which the holder keeps its slots, and what survives below them keeps its content. -/
theorem step (apart : Apart x start hand w) (sound : Sound after v)
    (hheld : v.slotsHeld x = w.slotsHeld x)
    (hcontent : ∀ id, w.heap.Reached (w.handlesOf x) id → v.heap.Live id →
      v.heap.content? id = w.heap.content? id) : Apart x start after v := by
  -- What the holder reaches survives: its slots are still held, and contents lead from one node to
  -- the next.
  have hlive : ∀ id, w.heap.Reached (w.handlesOf x) id → v.heap.Live id := by
    intro id hid
    induction hid using Reached.rec_on with
    | held a ha =>
        apply sound.owned.live_of_mem
        have hsame : v.handlesOf x = w.handlesOf x := by rw [handlesOf, handlesOf, hheld]
        exact List.mem_append_right _ (sound.handlesOf_subset x (hsame ▸ ha))
    | edge a b ha hedge ih =>
        apply sound.owned.live_of_edge (a := a)
        rwa [Edge, slotsOf_congr (hcontent a ha ih)]
  refine ⟨sound, hheld.trans apart.held_eq, fun id hid => ?_⟩
  have hreach := apart.reached hid
  rw [hcontent id hreach (hlive id hreach), apart.content_eq id hid]

/-- Bystanders see the same trees. -/
theorem seenBy_eq (apart : Apart x start hand w) {before : List NodeId}
    (sound : Sound before start) : w.seenBy x = start.seenBy x := by
  have hkept : ∀ id ∈ start.handlesOf x,
      (w.heap.view id).map (Tree.map fun n => (n.id, n.value)) =
        (start.heap.view id).map (Tree.map fun n => (n.id, n.value)) := by
    intro id hid
    have hmem : id ∈ w.handlesOf x := apart.handles_eq.symm ▸ hid
    obtain ⟨t, hview, ht⟩ := sound.owned.view_eq
      (sound.owned.live_of_mem (List.mem_append_right _ (sound.handlesOf_subset x hid)))
    obtain ⟨t', hview', ht'⟩ := apart.sound.owned.view_eq
      (apart.sound.owned.live_of_mem (List.mem_append_right _
        (apart.sound.handlesOf_subset x hmem)))
    have hbefore := ht.map fun l => (l.id, l.value)
    have hafter := ht'.map fun l => (l.id, l.value)
    rw [map_located] at hbefore hafter
    have hsame : Unfolds w.heap.named id (t.map fun l => (l.id, l.value)) := by
      refine hbefore.transport (P := start.heap.Reached (start.handlesOf x)) (fun a ha => ?_)
        (fun a b ha hedge => ha.edge (edge_named.1 hedge)) (reached_of_mem _ hid)
      rw [named, named, apart.content_eq a ha]
    rw [hview, hview', Option.map_some, Option.map_some, hafter.unique hsame]
  rw [seenBy, seenBy, apart.held_eq]
  cases hslots : start.slotsHeld x with
  | none => rfl
  | some slots =>
      refine congrArg some (List.map_congr_left fun s hs => ?_)
      cases s with
      | none => rfl
      | some id =>
          apply hkept id
          rw [handlesOf, hslots]
          exact List.reduceOption_mem_iff.2 hs

end Apart

/-! ## Changes of the registries -/

section Registries

variable {name : String}

theorem slotsHeld_registers (hx : x ≠ .register name) {registers : Registry Slot}
    (hother : ∀ other ≠ name, registers.get? other = w.registers.get? other) :
    slotsHeld { w with registers := registers } x = w.slotsHeld x := by
  cases x with
  | register other => exact congrArg (Option.map _) (hother other fun heq => hx (heq ▸ rfl))
  | machine other => rfl

theorem slotsHeld_machines (hx : x ≠ .machine name) {machines : Registry Dismantler}
    (hother : ∀ other ≠ name, machines.get? other = w.machines.get? other) :
    slotsHeld { w with machines := machines } x = w.slotsHeld x := by
  cases x with
  | register other => rfl
  | machine other => exact congrArg (Option.map _) (hother other fun heq => hx (heq ▸ rfl))

theorem slotsHeld_pick (hx : x ≠ .register name) :
    (w.pick name).1.slotsHeld x = w.slotsHeld x :=
  slotsHeld_registers hx fun _ hne => Registry.get?_erase_of_ne hne _

/-- The holders other than the register of a target do not reach the node that it leads to. -/
theorem Sound.hidden (sound : Sound hand w) {t : Target} {id : NodeId}
    (hok : w.locateOwned t = .ok id) (hx : x ∉ holderOf .register t.register) :
    ¬ w.heap.Reached (w.handlesOf x) id := by
  obtain ⟨name, root, path, hregister, hget, hexclusive, hdescend⟩ := locateOwned_ok hok
  have hname : x ≠ .register name := by simpa [hregister] using hx
  have hpicked := (sound.stage.pick name).sound
  have hroot : [(w.pick name).2].reduceOption = [root] := by
    rw [pick, hget]
    rfl
  have owned : w.heap.Owned (root :: (hand ++ (w.pick name).1.holders)) := by
    have owned := hpicked.owned
    rwa [hroot] at owned
  have hprivate := (owned.private_root hexclusive).descendOwned owned hdescend
  refine fun hreach => hprivate.hidden (hreach.mono fun a ha => List.mem_append_right _ ?_)
  apply hpicked.handlesOf_subset x
  rwa [handlesOf, slotsHeld_pick hname]

end Registries

/-! ## What bystanders do not notice -/

namespace Apart

variable {name : String} {id : NodeId}

theorem live (apart : Apart x start hand w) (hid : w.heap.Reached (w.handlesOf x) id) :
    w.heap.Live id :=
  apart.sound.owned.live_of_reached
    (hid.mono fun _ ha => List.mem_append_right _ (apart.sound.handlesOf_subset x ha))

theorem perm (apart : Apart x start hand w) {others : List NodeId} (hhand : hand ~ others) :
    Apart x start others w :=
  ⟨(apart.sound.stage.perm hhand (.refl _)).sound, apart.held_eq, apart.content_eq⟩

theorem append_nil (apart : Apart x start hand w) : Apart x start (hand ++ []) w := by
  rwa [List.append_nil]

theorem report (apart : Apart x start hand w) (events : List (Event Value)) :
    Apart x start hand (w.report events) :=
  ⟨⟨apart.sound.owned, apart.sound.ready, apart.sound.registers, apart.sound.machines⟩,
    apart.held_eq, apart.content_eq⟩

theorem giveUp {slots : List Slot} (apart : Apart x start (slots.reduceOption ++ hand) w) :
    Apart x start hand (w.giveUp slots) :=
  apart.step apart.sound.stage.giveUp.sound rfl fun _ _ hlive => content?_release hlive

theorem pick (apart : Apart x start hand w) (hx : x ≠ .register name) :
    Apart x start ([(w.pick name).2].reduceOption ++ hand) (w.pick name).1 :=
  apart.step (apart.sound.stage.pick name).sound (slotsHeld_pick hx) fun _ _ _ => rfl

theorem assign {s : Slot} (apart : Apart x start ([s].reduceOption ++ hand) w)
    (hx : x ≠ .register name) : Apart x start hand (w.assign name s) :=
  apart.step (apart.sound.stage.assign name).sound
    (slotsHeld_registers hx fun _ hne => Registry.get?_insert_of_ne hne _ s)
    fun _ _ hlive => content?_release hlive

theorem keep {s : Slot} (apart : Apart x start ([s].reduceOption ++ hand) w)
    {into : Option String} (hx : x ∉ holderOf .register into) :
    Apart x start hand (w.keep into s) := by
  cases into with
  | none => exact apart.giveUp
  | some name => exact apart.assign (by simpa using hx)

/-! ### New nodes and cloned handles -/

theorem alloc {slots : List Slot} (apart : Apart x start (slots.reduceOption ++ hand) w)
    (value : Value) :
    Apart x start ((w.heap.alloc value slots).2 :: hand)
      { w with heap := (w.heap.alloc value slots).1 } := by
  refine apart.step (apart.sound.stage.alloc value).sound rfl fun id hid _ => ?_
  rw [content?, content?, get?_alloc, if_neg (apart.live hid).lt_size.ne]

mutual

theorem plant {w start : Workspace} {x : Holder} {hand : List NodeId}
    (apart : Apart x start hand w) (t : Tree Value) :
    Apart x start ((w.heap.plant t).2 :: hand) { w with heap := (w.heap.plant t).1 } := by
  cases t with
  | node v row => exact (plantRow apart row).alloc v

theorem plantRow {w start : Workspace} {x : Holder} {hand : List NodeId}
    (apart : Apart x start hand w) (row : Row Value) :
    Apart x start ((w.heap.plantRow row).2.reduceOption ++ hand)
      { w with heap := (w.heap.plantRow row).1 } := by
  match row with
  | [] => exact apart
  | none :: rest => exact plantRow apart rest
  | some t :: rest => exact (plantRow (plant apart t) rest).perm List.perm_middle

end

theorem share (apart : Apart x start hand w) (hid : ¬ w.Waits id) {k : Heap Value}
    (hk : w.heap.share? id = some k) : Apart x start (id :: hand) { w with heap := k } := by
  refine apart.step (apart.sound.stage.share hid hk).sound rfl fun other _ _ => ?_
  obtain ⟨-, n, hn, rfl⟩ := share?_eq_some hk
  exact content?_recount hn _ other

/-! ### Changes of a node out of reach -/

section Row

variable (hidden : ¬ w.heap.Reached (w.handlesOf x) id)

include hidden

theorem setSlots (apart : Apart x start hand w) {row : List Slot}
    (sound : Sound after { w with heap := w.heap.setSlots id row }) :
    Apart x start after { w with heap := w.heap.setSlots id row } := by
  refine apart.step sound rfl fun other hother _ => content?_setSlots_other row ?_
  rintro rfl
  exact hidden hother

/-- Another row, where some handles are given up. -/
theorem trim (apart : Apart x start hand w) {row : List Slot} {work : List NodeId}
    (sound : Sound after (w.settle ((w.heap.setSlots id row).release work))) :
    Apart x start after (w.settle ((w.heap.setSlots id row).release work)) := by
  refine apart.step sound rfl fun other hother hlive => ?_
  refine (content?_release hlive).trans (content?_setSlots_other row ?_)
  rintro rfl
  exact hidden hother

end Row

section Targets

variable {t : Target} (hok : w.locateOwned t = .ok id) (hx : x ∉ holderOf .register t.register)

include hok hx

theorem pushBack {s : Slot} (apart : Apart x start ([s].reduceOption ++ hand) w) :
    Apart x start hand { w with heap := w.heap.pushBack id s } :=
  apart.setSlots (apart.sound.hidden hok hx)
    (apart.sound.stage.pushBack (apart.sound.found hok)).sound

theorem popBack (apart : Apart x start hand w) {s : Slot} {k : Heap Value}
    (hpop : w.heap.popBack id = some (s, k)) :
    Apart x start ([s].reduceOption ++ hand) { w with heap := k } := by
  have sound := (apart.sound.stage.popBack (apart.sound.found hok) hpop).sound
  obtain ⟨last, hlast, hpair⟩ := Option.map_eq_some_iff.1 hpop
  obtain ⟨rfl, rfl⟩ := Prod.mk.inj hpair
  exact apart.setSlots (apart.sound.hidden hok hx) sound

theorem exchange {s : Slot} (apart : Apart x start ([s].reduceOption ++ hand) w) {index : Nat}
    (hindex : index < (w.heap.slotsOf id).length) :
    Apart x start ([(w.exchange id index s).2].reduceOption ++ hand) (w.exchange id index s).1 :=
  apart.setSlots (apart.sound.hidden hok hx)
    (apart.sound.stage.exchange (apart.sound.found hok) hindex).sound

theorem replaceSlots {slots : List Slot} (apart : Apart x start (slots.reduceOption ++ hand) w) :
    Apart x start hand (w.settle (w.heap.replaceSlots id slots)) :=
  apart.trim (apart.sound.hidden hok hx)
    (apart.sound.stage.replaceSlots (apart.sound.found hok)).sound

theorem punch (apart : Apart x start hand w) (holes : List Nat) :
    Apart x start hand (w.settle (w.heap.punch id holes).1) :=
  apart.trim (apart.sound.hidden hok hx)
    (apart.sound.stage.punch (apart.sound.found hok) holes).sound

theorem setValue (apart : Apart x start hand w) (value : Value) :
    Apart x start hand (w.settle (w.heap.setValue id value)) := by
  have hidden := apart.sound.hidden hok hx
  have sound := (apart.sound.stage.setValue (apart.sound.found hok) value).sound
  refine apart.step sound rfl fun other hother _ => ?_
  have hne : other ≠ id := by
    rintro rfl
    exact hidden hother
  change (w.heap.setValue id value).1.content? other = w.heap.content? other
  unfold Heap.setValue
  split
  · rw [content?, content?, get?_put_other hne]
  · rfl

/-- The drain runs below the node, where the bystander reaches nothing through it. -/
theorem drain (apart : Apart x start hand w) :
    Apart x start hand ({ w with heap := (w.heap.drain id).1 }.report (w.heap.drain id).2) := by
  have found := apart.sound.found hok
  have ⟨_, _, _, _, hprivate⟩ := found
  obtain ⟨passes, hdrain, -⟩ := drain_derivation apart.sound.owned hprivate.live
  have hrest := (hdrain.spec apart.sound.owned).unseen.mono fun _ ha =>
    List.mem_append_right _ (apart.sound.handlesOf_subset x ha)
  have hunseen := (unseen_setSlots [] (apart.sound.hidden hok hx)).trans hrest
  exact apart.step (apart.sound.stage.drain found).sound rfl
    fun other hother _ => hunseen.content_eq other hother

end Targets

/-! ### Machines at work -/

section Machines

variable {m : Dismantler}

open Dismantler

theorem takeMachine (apart : Apart x start hand w) (hx : x ≠ .machine name) :
    Apart x start ((w.machines.get? name).elim [] held ++ hand)
      { w with machines := w.machines.erase name } :=
  apart.step (apart.sound.stage.takeMachine name).sound
    (slotsHeld_machines hx fun _ hne => Registry.get?_erase_of_ne hne _) fun _ _ _ => rfl

theorem storeMachine {r : Registry Dismantler} (apart : Apart x start (m.held ++ hand) w)
    (sorted : r.Sorted) (hmachines : w.machines = r.erase name) (ready : m.Ready w.heap)
    (hx : x ≠ .machine name) :
    Apart x start hand { w with machines := r.insert name m } := by
  refine apart.step (apart.sound.stage.storeMachine sorted hmachines ready).sound
    (slotsHeld_machines hx fun other hne => ?_) fun _ _ _ => rfl
  rw [hmachines, Registry.get?_insert_of_ne hne, Registry.get?_erase_of_ne hne]

theorem runFor (apart : Apart x start (m.held ++ hand) w) (ready : m.Ready w.heap) (n : Nat) :
    Apart x start ((Dismantler.runFor n m w.heap).machine.held ++ hand)
      { w with heap := (Dismantler.runFor n m w.heap).heap } := by
  have owned := apart.sound.owned
  rw [List.append_assoc] at owned
  have hunseen := (runFor_kept n owned ready).unseen.mono fun _ ha =>
    List.mem_append_right _ (apart.sound.handlesOf_subset x ha)
  exact apart.step (apart.sound.stage.runFor ready n).1.sound rfl
    fun other hother _ => hunseen.content_eq other hother

theorem finish (apart : Apart x start (m.held ++ hand) w) (ready : m.Ready w.heap) :
    Apart x start hand (w.finish m).1 := by
  obtain ⟨hstage, -, -, values, hunseen⟩ := apart.sound.stage.finish ready
  have hunseen := hunseen.mono fun _ ha =>
    List.mem_append_right _ (apart.sound.handlesOf_subset x ha)
  exact apart.step hstage.sound rfl fun other hother _ => hunseen.content_eq other hother

/-- A machine is stored, and the one in whose place it comes runs to its end. -/
theorem installMachine (apart : Apart x start (m.held ++ hand) w) (ready : m.Ready w.heap)
    (hx : x ≠ .machine name) : Apart x start hand (w.installMachine name m) := by
  have sorted := apart.sound.machines
  have hstored := ((apart.takeMachine hx).perm
    (List.perm_append_comm_assoc _ m.held hand)).storeMachine sorted rfl ready hx
  unfold Workspace.installMachine
  cases hget : w.machines.get? name with
  | none =>
      rw [hget] at hstored
      exact hstored
  | some old =>
      rw [hget] at hstored
      exact hstored.finish (apart.sound.ready _ (sorted.mem_of_get? hget))

end Machines

end Apart

end Workspace

end SlotTree
