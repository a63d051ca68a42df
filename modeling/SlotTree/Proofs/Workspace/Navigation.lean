import SlotTree.Proofs.Heap.Ways
import SlotTree.Proofs.Workspace.Run

/-! # Targets that may be changed

A change is made at the end of the only way to a node. Along any other path it is refused: at the
root if that has a second handle, and else at the first step that may not be made. A refused change
leaves the workspace as it was.
-/

namespace SlotTree

open Heap

namespace Workspace

variable {w : Workspace} {t : Target} {id : NodeId}

/-! ## Targets by their parts -/

theorem parts_eq_ok {name : String} {path : List Nat} :
    t.parts = .ok (name, path) ↔ t = ⟨some name, some path⟩ := by
  obtain ⟨register, path'⟩ := t
  cases register with
  | none => simp [Target.parts, Field.need, bind, Except.bind]
  | some other =>
      cases path' with
      | none => simp [Target.parts, Field.need, bind, Except.bind]
      | some found => simp [Target.parts, Field.need, bind, Except.bind, pure, Except.pure]

theorem root_eq_ok {name : String} {root : NodeId} :
    w.root name = .ok root ↔ w.registers.get? name = some (some root) := by
  refine ⟨root_ok, fun hget => ?_⟩
  simp [Workspace.root, register, hget, bind, Except.bind, pure, Except.pure]

theorem mapError_eq_ok {ε ε' α : Type} {x : Except ε α} {f : ε → ε'} {a : α} :
    x.mapError f = .ok a ↔ x = .ok a :=
  ⟨ok_of_mapError, fun hx => by rw [hx]; rfl⟩

theorem locate_eq_ok :
    w.locate t = .ok id ↔ ∃ name root path, t = ⟨some name, some path⟩ ∧
      w.registers.get? name = some (some root) ∧ w.heap.descend root path = .ok id := by
  constructor
  · intro hok
    obtain ⟨⟨name, path⟩, hparts, hok⟩ := ok_of_bind hok
    obtain ⟨root, hroot, hok⟩ := ok_of_bind hok
    exact ⟨name, root, path, parts_eq_ok.1 hparts, root_eq_ok.1 hroot, mapError_eq_ok.1 hok⟩
  · rintro ⟨name, root, path, rfl, hget, hok⟩
    rw [locate, parts_eq_ok.2 rfl]
    change (w.root name >>= fun root => w.follow root path) = _
    rw [root_eq_ok.2 hget]
    exact mapError_eq_ok.2 hok

/-- What is left of finding a node to change once its register is known. -/
theorem locateOwned_of_get? {name : String} {root : NodeId} {path : List Nat}
    (hget : w.registers.get? name = some (some root)) :
    w.locateOwned ⟨some name, some path⟩ =
      if w.heap.isExclusive root then (w.heap.descendOwned root path).mapError .access
      else .error .sharedRoot := by
  rw [locateOwned, parts_eq_ok.2 rfl]
  change (w.root name >>= fun root => _) = _
  rw [root_eq_ok.2 hget]
  rfl

theorem locateOwned_eq_ok :
    w.locateOwned t = .ok id ↔ ∃ name root path, t = ⟨some name, some path⟩ ∧
      w.registers.get? name = some (some root) ∧
      w.heap.isExclusive root ∧ w.heap.descendOwned root path = .ok id := by
  constructor
  · intro hok
    obtain ⟨⟨name, path⟩, hparts, hafter⟩ := ok_of_bind hok
    obtain ⟨root, hroot, -⟩ := ok_of_bind hafter
    obtain rfl := parts_eq_ok.1 hparts
    have hget := root_eq_ok.1 hroot
    rw [locateOwned_of_get? hget] at hok
    by_cases hexclusive : w.heap.isExclusive root
    · rw [if_pos hexclusive] at hok
      exact ⟨name, root, path, rfl, hget, hexclusive, mapError_eq_ok.1 hok⟩
    · rw [if_neg hexclusive] at hok
      nomatch hok
  · rintro ⟨name, root, path, rfl, hget, hexclusive, hok⟩
    rw [locateOwned_of_get? hget, if_pos hexclusive]
    exact mapError_eq_ok.2 hok

/-! ## Sole ways -/

/-- What may be changed is what can be read and has one way to it. -/
theorem Sound.locateOwned_iff (sound : Sound [] w) :
    w.locateOwned t = .ok id ↔
      w.locate t = .ok id ∧ ∃! way, w.heap.Leads w.holders way id := by
  have hiff {name : String} {root : NodeId} {path : List Nat}
      (hget : w.registers.get? name = some (some root)) :
      w.heap.isExclusive root ∧ w.heap.descendOwned root path = .ok id ↔
        w.heap.descend root path = .ok id ∧ ∃! way, w.heap.Leads w.holders way id := by
    have hmem : root ∈ w.holders :=
      List.mem_append_left _ (mem_inRegisters sound (congrArg Option.join hget))
    obtain ⟨start, hstart⟩ := List.mem_iff_getElem?.1 hmem
    exact sound.owned.descendOwned_iff hstart
  rw [locateOwned_eq_ok, locate_eq_ok]
  constructor
  · rintro ⟨name, root, path, rfl, hget, hown⟩
    obtain ⟨hok, hsole⟩ := (hiff hget).1 hown
    exact ⟨⟨name, root, path, rfl, hget, hok⟩, hsole⟩
  · rintro ⟨⟨name, root, path, rfl, hget, hok⟩, hsole⟩
    exact ⟨name, root, path, rfl, hget, (hiff hget).2 ⟨hok, hsole⟩⟩

/-- Below a root that may be changed, a target is refused at the first step that may not be made. -/
theorem Sound.locateOwned_eq_error (sound : Sound [] w) {name : String} {root : NodeId}
    {path : List Nat} (hget : w.registers.get? name = some (some root))
    (hexclusive : w.heap.isExclusive root) {failure : Failure}
    (herror : w.locateOwned ⟨some name, some path⟩ = .error failure) :
    ∃ front index back node cause, path = front ++ index :: back ∧
      w.locateOwned ⟨some name, some front⟩ = .ok node ∧
      failure = .access cause ∧ w.heap.Refused node index cause := by
  rw [locateOwned_of_get? hget, if_pos hexclusive] at herror
  cases hdescend : w.heap.descendOwned root path with
  | ok id =>
      rw [hdescend] at herror
      nomatch herror
  | error cause =>
      rw [hdescend] at herror
      obtain ⟨front, index, back, node, hpath, hfront, hrefused⟩ :=
        sound.owned.descendOwned_eq_error hdescend
      refine ⟨front, index, back, node, cause, hpath, ?_, (Except.error.inj herror).symm, hrefused⟩
      exact locateOwned_eq_ok.2 ⟨name, root, front, rfl, hget, hexclusive, hfront⟩

end Workspace

/-! ## Refused changes -/

/-- A change that brings neither a value nor trees along. -/
def Change.Bare : Change → Prop
  | .removeChildren => True
  | .popBack _ => True
  | .takeSlot _ _ _ => True
  | .punch holes => holes.isSome
  | _ => False

namespace Workspace

variable {w : Workspace} {t : Target} {failure : Failure}

theorem run_look_bind_error {α β : Type} {f : Workspace → Except Failure β}
    (hf : f w = .error failure) (next : β → Action α) :
    (Action.look f >>= next).run.run w = (.error failure, w) := by
  rw [Action.run_bind, Action.run_look, hf]

/-- A change without its target is not begun. -/
theorem exec_change_of_error (herror : w.locateOwned t = .error failure) {c : Change}
    (hc : c.Bare) : w.exec (.change t c) = (.error failure, w) := by
  cases c with
  | removeChildren => exact run_look_bind_error herror _
  | popBack into => exact run_look_bind_error herror _
  | takeSlot access index into => exact run_look_bind_error herror _
  | punch holes =>
      cases holes with
      | none => nomatch hc
      | some holes =>
          change (Action.look (fun _ => Field.need (some holes)) >>= _).run.run w = _
          rw [Action.run_bind, Action.run_look]
          exact run_look_bind_error herror _
  | setValue value => exact hc.elim
  | pushBack tree => exact hc.elim
  | setChildren trees => exact hc.elim
  | putSlot access index tree => exact hc.elim

/-- After any run of commands, a target leads to a node that may be changed exactly if it leads to a
node that can be read and has no other way to it. If it is refused below a root that may be changed,
this is due to the first index whose slot is not there, is a hole, or holds a node with a further
handle, and the change is not begun. -/
theorem owned_navigation (p : Policy) (showRegisters : Bool) (commands : List Command) :
    let w := (performAll showRegisters (.empty p) commands).1
    (∀ t id, w.locateOwned t = .ok id ↔
      w.locate t = .ok id ∧ ∃! way, w.heap.Leads w.holders way id) ∧
    ∀ name root path, w.registers.get? name = some (some root) → w.heap.isExclusive root →
      ∀ failure, w.locateOwned ⟨some name, some path⟩ = .error failure →
        (∃ front index back node cause, path = front ++ index :: back ∧
          w.locateOwned ⟨some name, some front⟩ = .ok node ∧
          failure = .access cause ∧ w.heap.Refused node index cause) ∧
        ∀ c : Change, c.Bare →
          w.exec (.change ⟨some name, some path⟩ c) = (.error failure, w) := by
  have sound := (performAll_spec (sound_empty p) rfl showRegisters commands).sound
  intro w
  refine ⟨fun t id => sound.locateOwned_iff, ?_⟩
  intro name root path hget hexclusive failure herror
  exact ⟨sound.locateOwned_eq_error hget hexclusive herror,
    fun c hc => exec_change_of_error herror hc⟩

/-- A leaf in a register, and two steps below the root of a tree in another. -/
def lentLeaf : List Command :=
  [.make (some "leaf") (some .create) (.node (.int 3) []),
    .make (some "tree") (some .create)
      (.node (.int 1) [.hole, .node (.int 2) [.share "leaf"]])]

theorem owned_navigation_lentLeaf :
    let w := (performAll false (.empty .shared) lentLeaf).1
    let t : Target := ⟨some "tree", some [1, 0]⟩
    let failure : Failure := .access (.sharedChild 0)
    w.registers.get? "tree" = some (some 2) ∧ w.heap.isExclusive 2 ∧
    w.locate t = .ok 0 ∧ w.locateOwned t = .error failure ∧
    (¬ ∃! way, w.heap.Leads w.holders way 0) ∧
    (∃ front index back node cause, [1, 0] = front ++ index :: back ∧
      w.locateOwned ⟨some "tree", some front⟩ = .ok node ∧
      failure = .access cause ∧ w.heap.Refused node index cause) ∧
    w.exec (.change t .removeChildren) = (.error failure, w) := by
  intro w t failure
  obtain ⟨hiff, hrefused⟩ := owned_navigation .shared false lentLeaf
  have hget : w.registers.get? "tree" = some (some 2) := by decide +kernel
  have hexclusive : w.heap.isExclusive 2 := by decide +kernel
  have hread : w.locate t = .ok 0 := by decide +kernel
  have herror : w.locateOwned t = .error failure := by decide +kernel
  obtain ⟨hstep, hexec⟩ := hrefused "tree" 2 [1, 0] hget hexclusive failure herror
  refine ⟨hget, hexclusive, hread, herror, fun hsole => ?_, hstep, hexec .removeChildren trivial⟩
  nomatch herror.symm.trans ((hiff t 0).2 ⟨hread, hsole⟩)

end Workspace

end SlotTree
