import SlotTree.Proofs.Workspace.Action
import SlotTree.Proofs.Workspace.Growth
import SlotTree.Workspace.Change

/-! # Changes of nodes

A change is made at a node that its target alone leads to. It takes slots from the hand into the row
of the node or back, so handles are neither lost nor made, and what comes below the node does not
lead back to it.
-/

namespace SlotTree.Workspace

open List Heap Event

variable {w start : Workspace} {hand after : List NodeId} {supplied seen : List Value}
  {id : NodeId}

/-! ## Targets -/

/-- A node that is out of reach of the hand and of all holders except one register. -/
def Found (hand : List NodeId) (w : Workspace) (id : NodeId) : Prop :=
  ∃ root rest, w.holders ~ root :: rest ∧ inMachines w.machines ⊆ rest ∧
    w.heap.Private (hand ++ rest) id

theorem register_ok {name : String} {s : Slot} (hok : w.register name = .ok s) :
    w.registers.get? name = some s := by
  unfold register at hok
  cases hget : w.registers.get? name with
  | none => simp [hget] at hok
  | some other =>
      obtain rfl : other = s := by simpa [hget] using hok
      rfl

theorem root_ok {name : String} {root : NodeId} (hok : w.root name = .ok root) :
    w.registers.get? name = some (some root) := by
  obtain ⟨s, hregister, hnode⟩ := ok_of_bind hok
  cases s with
  | none => nomatch hnode
  | some other => exact Except.ok.inj hnode ▸ register_ok hregister

theorem parts_ok {t : Target} {name : String} {path : List Nat}
    (hok : t.parts = .ok (name, path)) : t.register = some name := by
  obtain ⟨register, path'⟩ := t
  cases register with
  | none => nomatch hok
  | some other =>
      cases path' with
      | none => nomatch hok
      | some found => exact congrArg some (Prod.mk.inj (Except.ok.inj hok)).1

theorem locateOwned_ok {t : Target} (hok : w.locateOwned t = .ok id) :
    ∃ name root path, t.register = some name ∧ w.registers.get? name = some (some root) ∧
      w.heap.isExclusive root ∧ w.heap.descendOwned root path = .ok id := by
  obtain ⟨⟨name, path⟩, hparts, hok⟩ := ok_of_bind hok
  obtain ⟨root, hroot, hok⟩ := ok_of_bind hok
  by_cases hexclusive : w.heap.isExclusive root
  · rw [if_pos hexclusive] at hok
    exact ⟨name, root, path, parts_ok hparts, root_ok hroot, hexclusive, ok_of_mapError hok⟩
  · rw [if_neg hexclusive] at hok
    nomatch hok

theorem Sound.found (sound : Sound hand w) {t : Target} (hok : w.locateOwned t = .ok id) :
    Found hand w id := by
  obtain ⟨name, root, path, -, hget, hexclusive, hdescend⟩ := locateOwned_ok hok
  have hregisters := inRegisters_perm sound.registers name
  rw [hget] at hregisters
  have hholders : w.holders ~
      root :: (inRegisters (w.registers.erase name) ++ inMachines w.machines) :=
    hregisters.append_right _
  have owned : w.heap.Owned
      (root :: (hand ++ (inRegisters (w.registers.erase name) ++ inMachines w.machines))) :=
    sound.owned.perm ((hholders.append_left hand).trans List.perm_middle)
  refine ⟨root, _, hholders, List.subset_append_right _ _, ?_⟩
  exact (owned.private_root hexclusive).descendOwned owned hdescend

theorem slotAt_lt {index : Nat} {s : Slot} {h : Heap Value} (hok : h.slotAt id index = .ok s) :
    index < (h.slotsOf id).length := by
  unfold slotAt at hok
  cases hslot : (h.slotsOf id)[index]? with
  | none => simp [hslot] at hok
  | some other => exact (List.getElem?_eq_some_iff.1 hslot).1

/-- A change reaches only slots that are there. -/
theorem slotIndex_lt {access : SlotAccess} {index : Field Nat} {i : Nat}
    (hok : w.slotIndex id access index = .ok i) : i < (w.heap.slotsOf id).length := by
  cases access with
  | unchecked =>
      obtain ⟨n, -, hok⟩ := ok_of_bind hok
      by_cases hlt : n < (w.heap.slotsOf id).length
      · rw [checkBounds, if_pos hlt] at hok
        rwa [← Except.ok.inj hok]
      · rw [checkBounds, if_neg hlt] at hok
        nomatch hok
  | checked =>
      obtain ⟨n, -, hok⟩ := ok_of_bind hok
      obtain ⟨s, hslot, hok⟩ := ok_of_bind hok
      rw [← Except.ok.inj hok]
      exact slotAt_lt (ok_of_mapError hslot)
  | front =>
      by_cases hzero : (w.heap.slotsOf id).length = 0
      · simp [slotIndex, hzero, throw, throwThe, MonadExceptOf.throw] at hok
      · obtain rfl : 0 = i := by simpa [slotIndex, hzero, pure, Except.pure] using hok
        exact Nat.pos_of_ne_zero hzero
  | back =>
      by_cases hzero : (w.heap.slotsOf id).length = 0
      · simp [slotIndex, hzero, throw, throwThe, MonadExceptOf.throw] at hok
      · obtain rfl : (w.heap.slotsOf id).length - 1 = i := by
          simpa [slotIndex, hzero, pure, Except.pure] using hok
        omega

/-! ## Rows -/

/-- A row may be exchanged against slots in hand. -/
theorem Stage.setSlots (stage : Stage start hand supplied seen w) (found : Found hand w id)
    {row : List Slot} (hcount : ∀ x, after.count x + row.count (some x) =
      hand.count x + (w.heap.slotsOf id).count (some x)) :
    Stage start after supplied seen { w with heap := w.heap.setSlots id row } := by
  obtain ⟨root, rest, hholders, hmachines, hprivate⟩ := found
  have hunseen := unseen_setSlots row hprivate.hidden
  apply stage.update hunseen (fun p hp => List.mem_append_right _ (hmachines hp))
  refine stage.sound.owned.setSlots_of_private hprivate (fun b hb hold => ?_) fun x => ?_
  · refine List.mem_append_left _ (List.count_pos_iff.1 ?_)
    have hrow := List.count_pos_iff.2 hb
    have hnone := List.count_eq_zero.2 hold
    have hx := hcount b
    omega
  · have hx := hcount x
    rw [List.count_append, List.count_append]
    omega

theorem Stage.pushBack {s : Slot}
    (stage : Stage start ([s].reduceOption ++ hand) supplied seen w)
    (found : Found ([s].reduceOption ++ hand) w id) :
    Stage start hand supplied seen { w with heap := w.heap.pushBack id s } := by
  apply stage.setSlots found
  intro x
  rw [List.count_append, List.count_append, count_reduceOption]
  omega

theorem Stage.popBack (stage : Stage start hand supplied seen w) (found : Found hand w id)
    {s : Slot} {k : Heap Value} (hpop : w.heap.popBack id = some (s, k)) :
    Stage start ([s].reduceOption ++ hand) supplied seen { w with heap := k } := by
  obtain ⟨last, hlast, hpair⟩ := Option.map_eq_some_iff.1 hpop
  obtain ⟨rfl, rfl⟩ := Prod.mk.inj hpair
  obtain ⟨front, hrow⟩ := List.getLast?_eq_some_iff.1 hlast
  apply stage.setSlots found
  intro x
  rw [hrow, List.dropLast_concat]
  rw [List.count_append, List.count_append, count_reduceOption]
  omega

theorem Stage.exchange {s : Slot}
    (stage : Stage start ([s].reduceOption ++ hand) supplied seen w)
    (found : Found ([s].reduceOption ++ hand) w id) {index : Nat}
    (hindex : index < (w.heap.slotsOf id).length) :
    Stage start ([(w.exchange id index s).2].reduceOption ++ hand) supplied seen
      (w.exchange id index s).1 := by
  have hold : (w.exchange id index s).2 = (w.heap.slotsOf id)[index] := by
    simp [Workspace.exchange, Heap.exchange, hindex]
  rw [hold]
  apply stage.setSlots found
  intro x
  have hset := (List.set_perm_cons_eraseIdx hindex s).count_eq (some x)
  have hrow := (List.getElem_cons_eraseIdx_perm hindex).count_eq (some x)
  rw [List.count_cons] at hset hrow
  simp only [List.count_append, count_reduceOption, List.count_cons, List.count_nil]
  omega

/-- New slots take the place of all the old ones. -/
theorem Stage.replaceSlots {slots : List Slot}
    (stage : Stage start (slots.reduceOption ++ hand) supplied seen w)
    (found : Found (slots.reduceOption ++ hand) w id) :
    Stage start hand supplied seen (w.settle (w.heap.replaceSlots id slots)) := by
  have hset : Stage start ((w.heap.slotsOf id).reduceOption ++ hand) supplied seen
      { w with heap := w.heap.setSlots id slots } := by
    apply stage.setSlots found
    intro x
    simp only [List.count_append, count_reduceOption]
    omega
  exact hset.giveUp

/-- Each slot is either kept or taken. -/
theorem count_punched (taken : Nat → Bool) (slots : List Slot) (x : NodeId) :
    (slots.mapIdx fun i s => if taken i then none else s).count (some x) +
      (slots.mapIdx fun i s => if taken i then s else none).count (some x) =
      slots.count (some x) := by
  induction slots generalizing taken with
  | nil => rfl
  | cons s slots ih =>
      have hrest := ih fun i => taken (i + 1)
      simp only [List.mapIdx_cons, List.count_cons]
      by_cases hfirst : taken 0
      · simp only [hfirst, if_true, beq_iff_eq, reduceCtorEq, if_false]
        omega
      · simp only [hfirst, beq_iff_eq, reduceCtorEq, if_false]
        omega

theorem Stage.punch (stage : Stage start hand supplied seen w) (found : Found hand w id)
    (holes : List Nat) :
    Stage start hand supplied seen (w.settle (w.heap.punch id holes).1) := by
  have hset : Stage start
      (((w.heap.slotsOf id).mapIdx fun i s =>
        if holes.contains i then s else none).reduceOption ++ hand) supplied seen
      { w with
        heap := w.heap.setSlots id
          ((w.heap.slotsOf id).mapIdx fun i s => if holes.contains i then none else s) } := by
    apply stage.setSlots found
    intro x
    rw [List.count_append, count_reduceOption, Nat.add_comm (List.count _ _), Nat.add_assoc,
      Nat.add_comm (List.count _ (List.mapIdx _ _))]
    exact congrArg (hand.count x + ·) (count_punched holes.contains (w.heap.slotsOf id) x)
  exact hset.giveUp

theorem Stage.drain (stage : Stage start hand supplied seen w) (found : Found hand w id) :
    Stage start hand supplied seen
      ({ w with heap := (w.heap.drain id).1 }.report (w.heap.drain id).2) := by
  obtain ⟨root, rest, hholders, hmachines, hprivate⟩ := found
  obtain ⟨passes, hdrain, hreport⟩ := drain_derivation stage.sound.owned hprivate.live
  have hspec := hdrain.spec stage.sound.owned
  have hsub : hand ++ rest ⊆ hand ++ w.holders := by
    intro x hx
    rcases List.mem_append.1 hx with hhand | hrest
    · exact List.mem_append_left _ hhand
    · exact List.mem_append_right _ (hholders.mem_iff.2 (List.mem_cons_of_mem _ hrest))
  -- The drain is told from the heap in which the root has lost its row, unseen as well.
  have hunseen := (unseen_setSlots [] hprivate.hidden).trans (hspec.unseen.mono hsub)
  apply Stage.report (w := { w with heap := (w.heap.drain id).1 })
  rw [hreport, releasedIn_reportPasses]
  exact stage.update hunseen (fun p hp => List.mem_append_right _ (hmachines hp)) hspec.owned

/-- The new value goes into the node, and the old one dies. -/
theorem Stage.setValue (stage : Stage start hand supplied seen w) (found : Found hand w id)
    (value : Value) :
    Stage start hand (value :: supplied) seen (w.settle (w.heap.setValue id value)) := by
  obtain ⟨root, rest, -, -, hprivate⟩ := found
  obtain ⟨n, hn⟩ := live_iff.1 hprivate.live
  have owned := stage.sound.owned.revalue hn value
  have hset : w.heap.setValue id value = (w.heap.put id { n with value := value }, [n.value]) := by
    simp [Heap.setValue, hn]
  rw [hset]
  apply Stage.report (w := { w with heap := w.heap.put id { n with value := value } })
  rw [releasedIn_ofReleased]
  have ready := stage.sound.ready_frame owned fun p _ =>
    ⟨slotsOf_revalue hn value p, (countOf_revalue hn value p).le⟩
  refine ⟨⟨owned, ready, stage.sound.registers, stage.sound.machines⟩, stage.policy_eq, ?_,
    fun x hold hx => stage.old x hold ((live_revalue hn value x).1 hx), ?_⟩
  · exact stage.size_le.trans_eq (size_put w.heap id _).symm
  · have hvalues := values_put hn { n with value := value }
    have hledger := stage.ledger
    rw [List.perm_iff_count] at hvalues hledger ⊢
    intro v
    have hv := hvalues v
    have hv' := hledger v
    simp only [accounted, List.count_append, List.count_cons, List.cons_append,
      List.nil_append] at hv hv' ⊢
    omega

end SlotTree.Workspace

namespace SlotTree

open Workspace Event

/-- The values that are seen to die in an answer. -/
def Answer.released : Answer → List Value
  | .steps reports => reports.flatMap fun r => releasedIn r.journal
  | _ => []

/-- The values that a change brings along. -/
def Change.supplies (w : Workspace) : Change → List Value
  | .setValue value => value.toList
  | .pushBack tree => tree.supplies w
  | .setChildren trees => trees.elim [] (Spec.allSupplies w)
  | .putSlot _ _ tree => tree.supplies w
  | _ => []

namespace Action

variable {w start : Workspace} {supplied : List Value}

/-- An action that leaves nothing in hand, however it ends. -/
def Settles (act : Action Answer) (start : Workspace) (supplied : List Value) (w : Workspace) :
    Prop :=
  act.Ends w (fun answer after => Stage start [] supplied answer.released after)
    (Stage start [] supplied [])

/-- Slots in hand are given up by an action that fails. -/
theorem settles_holding {slots : List Slot} {act : Action Answer}
    (hact : act.Ends w (fun answer after => Stage start [] supplied answer.released after)
      (Stage start slots.reduceOption supplied [])) :
    (holding slots act).Settles start supplied w := by
  apply ends_holding hact
  intro after hafter
  exact hafter.append_nil.giveUp

theorem settles_pushBack (sound : Sound [] w) (t : Target) (tree : Spec) :
    (pushBack t tree).Settles w (tree.supplies w) w := by
  refine (sound.build tree).bind fun s built stage => settles_holding ?_
  apply ends_look_bind fun _ _ => stage
  intro id hid
  refine ends_modify_bind (ends_pure ?_)
  exact stage.append_nil.pushBack (stage.append_nil.sound.found hid)

theorem settles_setChildren (sound : Sound [] w) (t : Target) (trees : Field (List Spec)) :
    (setChildren t trees).Settles w (trees.elim [] (Spec.allSupplies w)) w := by
  apply ends_need_bind
  · rintro rfl
    exact sound.stage
  · rintro specs rfl
    apply (sound.buildAll specs).bind
    intro slots built stage
    apply settles_holding
    apply ends_look_bind fun _ _ => stage
    intro id hid
    apply ends_modify_bind
    apply ends_pure
    exact stage.append_nil.replaceSlots (stage.append_nil.sound.found hid)

theorem settles_setValue (sound : Sound [] w) (t : Target) (value : Field Value) :
    (setValue t value).Settles w value.toList w := by
  apply ends_need_bind
  · rintro rfl
    exact sound.stage
  · rintro value rfl
    apply ends_get_bind
    cases hid : w.locateOwned t with
    | ok id =>
        apply ends_modify_bind
        apply ends_pure
        exact sound.stage.setValue (sound.found hid) value
    | error failure =>
        apply ends_modify_bind
        apply ends_throw
        exact (sound.stage.pass value).report

theorem settles_removeChildren (sound : Sound [] w) (t : Target) :
    (removeChildren t).Settles w [] w := by
  apply ends_look_bind fun _ _ => sound.stage
  intro id hid
  exact ends_modify_bind (ends_pure (sound.stage.drain (sound.found hid)))

theorem settles_stow {s : Slot} (stage : Stage start [s].reduceOption supplied [] w)
    (into : Field (Option String)) : (stow into s).Settles start supplied w := by
  refine ends_get_bind (Ends.bind (R := fun _ after => Stage start [] supplied [] after) ?_
    fun _ after hafter => ends_pure hafter)
  refine ends_holding (ends_look_bind (fun _ _ => stage) fun name _ => ?_)
    fun after hafter => hafter.append_nil.giveUp
  exact ends_modify (stage.append_nil.keep name)

theorem settles_popBack (sound : Sound [] w) (t : Target) (into : Field (Option String)) :
    (popBack t into).Settles w [] w := by
  refine ends_look_bind (fun _ _ => sound.stage) fun id hid => ends_get_bind ?_
  cases hpop : w.heap.popBack id with
  | none => exact ends_pure sound.stage
  | some popped =>
      obtain ⟨s, k⟩ := popped
      refine ends_modify_bind (settles_stow ?_ into)
      simpa using sound.stage.popBack (sound.found hid) hpop

theorem settles_putSlot (sound : Sound [] w) (t : Target) (access : Field SlotAccess)
    (index : Field Nat) (tree : Spec) :
    (putSlot t access index tree).Settles w (tree.supplies w) w := by
  refine (sound.build tree).bind fun s built stage => settles_holding ?_
  apply ends_look_bind fun _ _ => stage
  intro id hid
  apply ends_look_bind fun _ _ => stage
  intro access _
  apply ends_look_bind fun _ _ => stage
  intro index hindex
  refine ends_modify_bind (ends_pure ?_)
  have found := stage.append_nil.sound.found hid
  exact (stage.append_nil.exchange found (slotIndex_lt hindex)).giveUp

theorem settles_takeSlot (sound : Sound [] w) (t : Target) (access : Field SlotAccess)
    (index : Field Nat) (into : Field (Option String)) :
    (takeSlot t access index into).Settles w [] w := by
  apply ends_look_bind fun _ _ => sound.stage
  intro id hid
  apply ends_look_bind fun _ _ => sound.stage
  intro access _
  apply ends_look_bind fun _ _ => sound.stage
  intro index hindex
  refine ends_alter_bind (settles_stow ?_ into)
  have stage : Stage w ([none].reduceOption ++ []) [] [] w := sound.stage
  simpa using stage.exchange (stage.sound.found hid) (slotIndex_lt hindex)

theorem settles_punch (sound : Sound [] w) (t : Target) (holes : Field (List Nat)) :
    (punch t holes).Settles w [] w := by
  apply ends_look_bind fun _ _ => sound.stage
  intro holes _
  apply ends_look_bind fun _ _ => sound.stage
  intro id hid
  exact ends_alter (sound.stage.punch (sound.found hid) holes)

/-- Every change keeps the workspace sound, and accounts for the values it brings along. -/
theorem settles_change (sound : Sound [] w) (t : Target) (c : Change) :
    (c.run t).Settles w (c.supplies w) w := by
  cases c with
  | setValue value => exact settles_setValue sound t value
  | pushBack tree => exact settles_pushBack sound t tree
  | setChildren trees => exact settles_setChildren sound t trees
  | removeChildren => exact settles_removeChildren sound t
  | popBack into => exact settles_popBack sound t into
  | putSlot access index tree => exact settles_putSlot sound t access index tree
  | takeSlot access index into => exact settles_takeSlot sound t access index into
  | punch holes => exact settles_punch sound t holes

end Action

end SlotTree
