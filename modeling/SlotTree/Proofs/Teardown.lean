import SlotTree.Heap.Edit
import SlotTree.Proofs.Dismantler.Termination
import SlotTree.Proofs.Drain.Execution

/-! # Three ways to release a tree

A release in one go, a drain and a dismantling give up the same handles, and each goes on unseen by
the other holders. So they end in the same heap, and report the same values in different orders.
-/

namespace SlotTree

universe u

variable {α : Type u}

open List

/-! ## Reported values -/

/-- The values of which a record says that they died. -/
def Event.releasedIn (events : List (Event α)) : List α :=
  events.filterMap fun e => match e with
    | .released value => some value
    | _ => none

namespace Event

@[simp] theorem releasedIn_append (events later : List (Event α)) :
    releasedIn (events ++ later) = releasedIn events ++ releasedIn later := by
  simp [releasedIn]

@[simp] theorem releasedIn_ofReleased (values : List α) :
    releasedIn (ofReleased values) = values := by
  simp [releasedIn, ofReleased, List.filterMap_map]

end Event

open Event

namespace Heap

theorem releasedIn_reportPasses (policy : Policy) (passes pops : Nat)
    (done : List (List (Pop α))) :
    releasedIn (reportPasses policy passes pops done) = done.flatMap freedIn := by
  induction done generalizing passes pops with
  | nil => rfl
  | cons now later ih =>
      have htail : ∀ events : List (Event α),
          releasedIn (.drained (passes + 1) (pops + now.length) :: events) = releasedIn events :=
        fun _ => rfl
      rw [reportPasses, releasedIn_append, releasedIn_ofReleased, htail, ih, List.flatMap_cons]

variable {h : Heap α} {holders : List NodeId} {root : NodeId}

/-- The root of a row that is given up stays, without slots. -/
theorem content?_replaceSlots_nil (owned : h.Owned holders) (hroot : h.Live root) :
    (h.replaceSlots root []).1.content? root = (h.content? root).map fun c => (c.1, []) := by
  have hcut := owned.takeSlots root
  have hlive : (h.replaceSlots root []).1.Live root := by
    apply (hcut.live_release_iff root).2
    exact (owned.reached_of_live hroot).setSlots_nil_self
  rw [replaceSlots, content?_release hlive, content?_setSlots, if_pos rfl]

theorem drain_eq_replaceSlots (owned : h.Owned holders) (hroot : h.Live root) :
    (h.drain root).1 = (h.replaceSlots root []).1 ∧
      releasedIn (h.drain root).2 ~ (h.replaceSlots root []).2 := by
  obtain ⟨passes, hdrain, hreport⟩ := drain_derivation owned hroot
  have hspec := hdrain.spec owned
  have hend : (h.drain root).1.Owned ([] ++ holders) := hspec.owned
  have heq := hspec.unseen.release_eq (owned.takeSlots root) hend
  simp only [release_nil, List.append_nil] at heq
  rw [hreport, releasedIn_reportPasses]
  exact heq

end Heap

namespace Dismantler

open Heap

/-- A run takes as many steps as its budget allows. -/
theorem run_eq (m : Dismantler) (h : Heap α) :
    (m.run h).1 = (runFor (budget h) m h).machine ∧
      (m.run h).2.1 = (runFor (budget h) m h).heap ∧
      releasedIn (m.run h).2.2 = (runFor (budget h) m h).values := by
  unfold run isDone
  cases hcurrent : m.current with
  | none => simp [runFor_of_done hcurrent, releasedIn]
  | some current =>
      refine ⟨rfl, rfl, ?_⟩
      simp only [Option.isNone_some, Bool.false_eq_true, if_false, releasedIn_append,
        releasedIn_ofReleased]
      exact List.append_nil _

theorem held_start (s : Slot) : (start s).held = s.toList := by
  simp [held, start]

/-- A run leaves nothing to the machine. -/
theorem run_kept {m : Dismantler} {h : Heap α} {others : List NodeId}
    (owned : h.Owned (m.held ++ others)) (ready : m.Ready h) :
    (m.run h).1.held = [] ∧ (m.run h).1.Ready (m.run h).2.1 ∧ (m.run h).2.1.Owned others ∧
      Unseen others h (m.run h).2.1 (releasedIn (m.run h).2.2) := by
  obtain ⟨hmachine, hheap, hvalues⟩ := run_eq m h
  have hkept := runFor_kept (budget h) owned ready
  have hheld := hkept.ready.held_eq_nil (runFor_done owned ready (workload_le_budget m h))
  have hend := hkept.owned
  rw [hheld] at hend
  rw [hmachine, hheap, hvalues]
  exact ⟨hheld, hkept.ready, hend, hkept.unseen⟩

theorem run_eq_release {h : Heap α} {others work : List NodeId} {o : Outcome α}
    (kept : Kept others h o) (owned : h.Owned (work ++ others)) :
    (o.machine.run o.heap).1.isDone ∧ (o.machine.run o.heap).2.1 = (h.release work).1 ∧
      o.values ++ releasedIn (o.machine.run o.heap).2.2 ~ (h.release work).2 := by
  obtain ⟨hmachine, hheap, hvalues⟩ := run_eq o.machine o.heap
  obtain ⟨hheld, heq, hperm⟩ := kept.run_eq owned
  rw [hmachine, hheap, hvalues]
  refine ⟨?_, heq, hperm⟩
  rw [held, List.append_eq_nil_iff] at hheld
  simpa [isDone] using hheld.1

end Dismantler

namespace Heap

open Dismantler

/-- A drain leaves what a release of all slots of the root leaves, and so does a dismantling, after
any number of single steps, with what a plain release leaves. The values of the nodes that die are
reported once in each, and the root of a drain keeps its own. -/
theorem teardowns_agree {h : Heap α} {holders : List NodeId} {s : Slot}
    (owned : h.Owned (s.toList ++ holders)) :
    (∀ root, h.isExclusive root →
      (h.drain root).1 = (h.replaceSlots root []).1 ∧
      (h.drain root).1.content? root = (h.content? root).map (fun c => (c.1, [])) ∧
      releasedIn (h.drain root).2 ~ (h.replaceSlots root []).2 ∧
      (h.replaceSlots root []).2 ++ (h.replaceSlots root []).1.values ~ h.values) ∧
    ((h.dismantle s).1 = (h.releaseSlot s).1 ∧
      releasedIn (h.dismantle s).2 ~ (h.releaseSlot s).2 ∧
      (h.releaseSlot s).2 ++ (h.releaseSlot s).1.values ~ h.values) ∧
    ∀ steps, let o := runFor steps (start s) h
      (o.machine.run o.heap).1.isDone ∧
      (o.machine.run o.heap).2.1 = (h.releaseSlot s).1 ∧
      o.values ++ releasedIn (o.machine.run o.heap).2.2 ~ (h.releaseSlot s).2 := by
  have hstart : ∀ steps, Kept holders h (runFor steps (start s) h) := fun steps =>
    runFor_kept steps (by rwa [held_start]) (ready_start s h)
  refine ⟨fun root hroot => ?_, ?_, fun steps => run_eq_release (hstart steps) owned⟩
  · have hlive := (isExclusive_iff.1 hroot).1
    obtain ⟨hheap, hvalues⟩ := drain_eq_replaceSlots owned hlive
    refine ⟨hheap, ?_, hvalues, ?_⟩
    · rw [hheap, content?_replaceSlots_nil owned hlive]
    · exact (values_release _ _).trans (values_setSlots h root [])
  · obtain ⟨-, hheap, hvalues⟩ := run_eq_release (hstart 0) owned
    exact ⟨hheap, hvalues, values_release h s.toList⟩

theorem teardowns_agree_diamond : diamond.Owned ((some 2).toList ++ []) ∧
    (∀ root, diamond.isExclusive root →
      (diamond.drain root).1 = (diamond.replaceSlots root []).1 ∧
      (diamond.drain root).1.content? root = (diamond.content? root).map (fun c => (c.1, [])) ∧
      releasedIn (diamond.drain root).2 ~ (diamond.replaceSlots root []).2 ∧
      (diamond.replaceSlots root []).2 ++ (diamond.replaceSlots root []).1.values ~
        diamond.values) ∧
    ((diamond.dismantle (some 2)).1 = (diamond.releaseSlot (some 2)).1 ∧
      releasedIn (diamond.dismantle (some 2)).2 ~ (diamond.releaseSlot (some 2)).2 ∧
      (diamond.releaseSlot (some 2)).2 ++ (diamond.releaseSlot (some 2)).1.values ~
        diamond.values) ∧
    ∀ steps, let o := runFor steps (start (some 2)) diamond
      (o.machine.run o.heap).1.isDone ∧
      (o.machine.run o.heap).2.1 = (diamond.releaseSlot (some 2)).1 ∧
      o.values ++ releasedIn (o.machine.run o.heap).2.2 ~ (diamond.releaseSlot (some 2)).2 :=
  ⟨owned_diamond, teardowns_agree owned_diamond⟩

end Heap

end SlotTree
