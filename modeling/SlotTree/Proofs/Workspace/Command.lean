import SlotTree.Proofs.Workspace.Machines
import SlotTree.Workspace.Command

/-! # Commands

Every command leaves a sound workspace with nothing in hand, however it ends. The values that it
brings along are then in nodes, or they were reported like those of the nodes that died.
-/

namespace SlotTree

open List Heap Event

/-! ## Answers that report no death -/

/-- No value is seen to die in the answer, if there is one. -/
def Quiet (x : Except Failure Answer) : Prop := ∀ answer, x = .ok answer → answer.released = []

namespace Quiet

variable {α : Type}

theorem ok {answer : Answer} (hanswer : answer.released = []) : Quiet (.ok answer) := by
  intro other hother
  rw [← Except.ok.inj hother]
  exact hanswer

theorem error (failure : Failure) : Quiet (.error failure) := nofun

theorem bind {x : Except Failure α} {next : α → Except Failure Answer}
    (hnext : ∀ a, Quiet (next a)) : Quiet (x >>= next) := by
  cases x with
  | ok a => exact hnext a
  | error failure => exact error failure

theorem ofOption {f : α → Answer} (hf : ∀ a, (f a).released = []) (o : Option α) :
    (Answer.ofOption f o).released = [] := by
  cases o with
  | none => rfl
  | some a => exact hf a

end Quiet

namespace Workspace

variable (w : Workspace)

theorem quiet_inspect (id : NodeId) (q : Query) : Quiet (w.inspect id q) := by
  cases q with
  | value => exact .ok (Quiet.ofOption (fun _ => rfl) _)
  | hasChild => exact .ok rfl
  | childCount => exact .ok rfl
  | child index => exact .bind fun _ => .bind fun _ => .ok rfl
  | slotAt index => exact .bind fun _ => .bind fun _ => .ok rfl
  | childAt index => exact .bind fun _ => .bind fun _ => .ok (Quiet.ofOption (fun _ => rfl) _)
  | front => exact .ok (Quiet.ofOption (fun _ => rfl) _)
  | back => exact .ok (Quiet.ofOption (fun _ => rfl) _)
  | slots listing => exact .bind fun _ => .ok rfl
  | walk order => exact .bind fun _ => .ok rfl

theorem quiet_query (t : Target) (q : Query) : Quiet (w.query t q) :=
  .bind fun id => w.quiet_inspect id q

theorem quiet_count (t : Target) : Quiet (w.count t) :=
  .bind fun _ => .ok (Quiet.ofOption (fun _ => rfl) _)

theorem quiet_exclusive (name : Field String) : Quiet (w.exclusive name) :=
  .bind fun _ => .bind fun _ => .ok (Quiet.ofOption (fun _ => rfl) _)

theorem quiet_format (t : Target) (style : Field Style) : Quiet (w.format t style) := by
  refine .bind fun s => .bind fun style => ?_
  split
  · exact .ok rfl
  · exact .ok rfl
  · exact .error _
  · exact .ok rfl
  · exact .ok rfl
  · exact .ok rfl
  · exact .ok rfl
  · exact .error _

theorem quiet_write (t : Target) (first : Field String) (limit : Field (Option Nat)) :
    Quiet (w.write t first limit) :=
  .bind fun _ => .bind fun _ => .bind fun _ => .ok rfl

variable {w}

theorem edge_of_slotAt {h : Heap Value} {above id : NodeId} {index : Nat}
    (hok : (h.slotAt above index).mapError Failure.access = .ok (some id)) : h.Edge above id := by
  have hslot := ok_of_mapError hok
  unfold slotAt at hslot
  cases hget : (h.slotsOf above)[index]? with
  | none =>
      rw [hget] at hslot
      nomatch hslot
  | some s =>
      rw [hget] at hslot
      rw [Except.ok.inj hslot] at hget
      exact List.mem_of_getElem? hget

/-- A slot of a register or of a row. The handles of dismantlers are not lent. -/
def Lendable (w : Workspace) (s : Slot) : Prop :=
  ∀ id, s = some id → id ∈ inRegisters w.registers ∨ ∃ a, w.heap.Edge a id

theorem locateSlot_ok {t : Target} {s : Slot} (sound : Sound [] w)
    (hok : w.locateSlot t = .ok s) : w.Lendable s := by
  rintro id rfl
  obtain ⟨⟨name, path⟩, -, hok⟩ := ok_of_bind hok
  cases hlast : path.getLast? with
  | none =>
      simp only [hlast] at hok
      exact .inl (mem_inRegisters sound (congrArg Option.join (register_ok hok)))
  | some last =>
      simp only [hlast] at hok
      obtain ⟨root, -, hok⟩ := ok_of_bind hok
      obtain ⟨above, -, hok⟩ := ok_of_bind hok
      exact .inr ⟨above, edge_of_slotAt hok⟩

theorem locateShown_ok {t : MachineTarget} {s : Slot} (hok : w.locateShown t = .ok s) :
    w.Lendable s := by
  rintro id rfl
  obtain ⟨⟨name, m⟩, -, hok⟩ := ok_of_bind hok
  obtain ⟨shown, -, hok⟩ := ok_of_bind hok
  obtain ⟨path, -, hok⟩ := ok_of_bind hok
  obtain ⟨index, -, hok⟩ := ok_of_bind hok
  cases hshown : m.shown shown with
  | none =>
      simp only [hshown] at hok
      nomatch hok
  | some root =>
      simp only [hshown] at hok
      obtain ⟨above, -, hok⟩ := ok_of_bind hok
      exact .inr ⟨above, edge_of_slotAt hok⟩

end Workspace

/-! ## What commands bring along -/

/-- The tree of a number at each node. -/
def numbered (t : Tree Nat) : Tree Value := t.map fun n : Nat => .int n

/-- The values of a tree whose root is made last, if there is a register for it. -/
def rootLast (register : Field String) (t : Tree Nat) : List Value :=
  match register with
  | some _ => (numbered t).values
  | none => Tree.rowValues (numbered t).slots

/-- The values that a command brings along. -/
def Command.supplies (w : Workspace) : Command → List Value
  | .make _ maker tree => if maker.isSome then tree.supplies w else []
  | .spine _ (some n) (some patterns) =>
    if Action.isSpine n patterns then (numbered (.spine n patterns)).values else []
  | .complete _ (some arity) (some depth) => (numbered (.complete arity depth 1)).values
  | .wide register (some n) => rootLast register (.wide n)
  | .makeDefault register => rootLast register (.leaf 0)
  | .change _ c => c.supplies w
  | _ => []

namespace Action

open Workspace

variable {w start : Workspace} {supplied : List Value}

/-! ## Making -/

theorem ends_store {s : Slot} (stage : Stage start [s].reduceOption supplied [] w)
    (register : Field String) :
    (store register s).Ends w (fun _ after => Stage start [] supplied [] after)
      (Stage start [] supplied []) := by
  refine ends_holding (ends_look_bind (fun _ _ => stage) fun name _ => ?_)
    fun after hafter => hafter.append_nil.giveUp
  exact ends_modify (stage.append_nil.assign name)

theorem settles_make (sound : Sound [] w) (register : Field String) (maker : Field Maker)
    (tree : Spec) :
    (make register maker tree).Settles w (if maker.isSome then tree.supplies w else []) w := by
  apply ends_need_bind
  · rintro rfl
    exact sound.stage
  · rintro maker rfl
    apply (sound.build tree).bind
    intro s built stage
    exact (ends_store stage register).bind fun _ after hafter => ends_pure hafter

theorem settles_plant (sound : Sound [] w) (register : Field String) (t : Tree Nat) :
    (plant register t).Settles w (numbered t).values w := by
  apply ends_alter_bind
  have hgrown := sound.stage.plant (numbered t)
  rw [List.append_nil] at hgrown
  exact (ends_store hgrown register).bind fun _ after hafter => ends_pure hafter

theorem settles_plantRootLast (sound : Sound [] w) (register : Field String) (t : Tree Nat) :
    (plantRootLast register t).Settles w (rootLast register t) w := by
  have hgrown := sound.stage.plantRow (numbered t).slots
  rw [List.append_nil, List.append_nil] at hgrown
  apply ends_alter_bind
  apply settles_holding
  apply ends_need_bind
  · rintro rfl
    exact hgrown
  · rintro name rfl
    have hvalues : rootLast (some name) t =
        (numbered t).value :: Tree.rowValues (numbered t).slots := by
      rw [rootLast]
      cases numbered t
      rfl
    rw [hvalues]
    apply ends_modify_bind
    apply ends_pure
    exact Stage.assign (s := some _) (hgrown.append_nil.alloc (numbered t).value) name

/-! ## Dropping, cloning, taking apart -/

theorem settles_drop (sound : Sound [] w) (register : Field String) :
    (drop register).Settles w [] w := by
  apply ends_look_bind fun _ _ => sound.stage
  intro name _
  refine ends_look_bind (fun _ _ => sound.stage) fun s _ => ends_modify_bind (ends_pure ?_)
  exact (sound.stage.pick name).giveUp

theorem ends_clone (sound : Sound [] w) {s : Slot} (hs : w.Lendable s) :
    (clone s).Ends w (fun _ after => Stage w [s].reduceOption [] [] after)
      (Stage w [] [] []) := by
  cases s with
  | none => exact ends_pure sound.stage
  | some id =>
      apply ends_get_bind
      cases hk : w.heap.share? id with
      | none => exact ends_throw sound.stage
      | some k =>
          have hclear := sound.not_waits (hs id rfl)
          exact ends_modify (sound.stage.share hclear hk)

theorem settles_share (sound : Sound [] w) {locate : Workspace → Except Failure Slot}
    (hlend : ∀ s, locate w = .ok s → w.Lendable s) (into : Field String) :
    (share locate into).Settles w [] w := by
  apply ends_look_bind fun _ _ => sound.stage
  intro s hs
  apply (ends_clone sound (hlend s hs)).bind
  intro _ cloned stage
  exact (ends_store stage into).bind fun _ after hafter => ends_pure hafter

/-- A node that is taken apart dies like one that is released, with its value last. -/
theorem stage_unwrap (sound : Sound [] w) {name : String} {id : NodeId} {n : Node Value}
    (hname : w.registers.get? name = some (some id)) (hn : w.heap.get? id = some n)
    (hlast : ¬ 1 < n.count) :
    Stage w [] [] [] ({ w with registers := w.registers.erase name }.settle
      (((w.heap.free id).release n.handles).1,
        ((w.heap.free id).release n.handles).2 ++ [n.value])) := by
  have hpicked := sound.stage.pick name
  have hhand : [(w.pick name).2].reduceOption = [id] := by
    rw [Workspace.pick, hname]
    rfl
  rw [hhand] at hpicked
  have owned : w.heap.Owned ([id] ++ (w.pick name).1.holders) := hpicked.sound.owned
  have hend : (w.heap.release [id]).1.Owned ([] ++ (w.pick name).1.holders) := owned.release
  have hreleased := hpicked.update owned.unseen_release (List.subset_append_right _ _) hend
  have hrelease := release_last hn hlast []
  rw [List.append_nil] at hrelease
  rw [hrelease] at hreleased
  apply Stage.report (w := { (w.pick name).1 with heap := ((w.heap.free id).release n.handles).1 })
  rw [releasedIn_ofReleased]
  apply hreleased.perm_seen
  rw [List.append_nil, List.append_nil]
  exact (List.perm_append_singleton _ _).symm

theorem unwrap_eq (sound : Sound [] w) {id : NodeId} (hexclusive : w.heap.isExclusive id) :
    ∃ n, w.heap.get? id = some n ∧ ¬ 1 < n.count ∧
      w.heap.unwrap id = some (n.value, (w.heap.free id).release n.handles) := by
  obtain ⟨n, hn⟩ := live_iff.1 (isExclusive_iff.1 hexclusive).1
  have hone := sound.owned.isExclusive_iff.1 hexclusive
  rw [countOf_eq hn] at hone
  exact ⟨n, hn, by omega, by simp [unwrap, hn]⟩

theorem settles_intoValue (sound : Sound [] w) (register : Field String) :
    (intoValue register).Settles w [] w := by
  apply ends_look_bind fun _ _ => sound.stage
  intro name _
  refine ends_look_bind (fun _ _ => sound.stage) fun id hid => ends_get_bind ?_
  by_cases hexclusive : w.heap.isExclusive id
  · obtain ⟨n, hn, hlast, hunwrap⟩ := unwrap_eq sound hexclusive
    rw [if_pos hexclusive, hunwrap]
    exact ends_set_bind (ends_pure (stage_unwrap sound (root_ok hid) hn hlast))
  · rw [if_neg hexclusive]
    exact ends_throw sound.stage

/-! ## All commands -/

theorem settles_spine (sound : Sound [] w) (register : Field String) (n : Field Nat)
    (patterns : Field (List (List Mark))) :
    (spine register n patterns).Settles w ((Command.spine register n patterns).supplies w) w := by
  apply ends_need_bind
  · rintro rfl
    exact sound.stage
  · rintro n rfl
    apply ends_need_bind
    · rintro rfl
      exact sound.stage
    · rintro patterns rfl
      by_cases hspine : isSpine n patterns
      · rw [if_pos hspine, Command.supplies, if_pos hspine]
        exact settles_plant sound register (.spine n patterns)
      · rw [if_neg hspine, Command.supplies, if_neg hspine]
        exact ends_throw sound.stage

theorem settles_complete (sound : Sound [] w) (register : Field String)
    (arity depth : Field Nat) :
    (complete register arity depth).Settles w
      ((Command.complete register arity depth).supplies w) w := by
  apply ends_need_bind
  · rintro rfl
    exact sound.stage
  · rintro arity rfl
    apply ends_need_bind
    · rintro rfl
      exact sound.stage
    · rintro depth rfl
      exact settles_plant sound register (.complete arity depth 1)

theorem settles_wide (sound : Sound [] w) (register : Field String) (n : Field Nat) :
    (wide register n).Settles w ((Command.wide register n).supplies w) w := by
  apply ends_need_bind
  · rintro rfl
    exact sound.stage
  · rintro n rfl
    exact settles_plantRootLast sound register (.wide n)

/-- Every command keeps the workspace sound, and accounts for the values it brings along. -/
theorem settles_command (sound : Sound [] w) (c : Command) :
    c.exec.Settles w (c.supplies w) w := by
  have hquiet : ∀ f : Workspace → Except Failure Answer, (∀ w, Quiet (f w)) →
      (look f).Settles w [] w := fun f hf => by
    apply ends_look fun _ _ => sound.stage
    intro answer hanswer
    rw [hf w answer hanswer]
    exact sound.stage
  cases c with
  | make register maker tree => exact settles_make sound register maker tree
  | spine register n patterns => exact settles_spine sound register n patterns
  | complete register arity depth => exact settles_complete sound register arity depth
  | wide register n => exact settles_wide sound register n
  | makeDefault register => exact settles_plantRootLast sound register (.leaf 0)
  | drop register => exact settles_drop sound register
  | policy => exact ends_get_bind (ends_pure sound.stage)
  | share target into => exact settles_share sound (fun _ => locateSlot_ok sound) into
  | shareShown target into => exact settles_share sound (fun _ => locateShown_ok) into
  | count target => exact hquiet _ fun w => w.quiet_count target
  | exclusive register => exact hquiet _ fun w => w.quiet_exclusive register
  | query target q => exact hquiet _ fun w => w.quiet_query target q
  | format target style => exact hquiet _ fun w => w.quiet_format target style
  | write target first limit => exact hquiet _ fun w => w.quiet_write target first limit
  | cursors acts =>
      apply ends_look_bind fun _ _ => sound.stage
      intro acts _
      exact ends_get_bind (ends_pure sound.stage)
  | change target c => exact settles_change sound target c
  | intoValue register => exact settles_intoValue sound register
  | machine c => exact settles_machine sound c
  | unknown => exact ends_throw sound.stage

end Action

end SlotTree
