import SlotTree.Proofs.Teardown
import Mathlib.Data.Nat.Find

/-! # The course of a machine

A machine starts on a slot and takes its steps one at a time. Between two of them the other holders
may do what they like, but it happens where they reach: the nodes that only the machine reaches stay
as they are. However a machine came to its state, a run from there has finitely many steps.
-/

namespace SlotTree

universe u

variable {α : Type u}

open List

namespace Heap

/-- Where no handle is new, everything is reached that was reached from what reaches the holders. -/
theorem Reached.of_edge {h k : Heap α} {holders more : List NodeId} {id : NodeId}
    (hedge : ∀ a b, k.Edge a b → h.Edge a b) (hheld : ∀ a ∈ holders, h.Reached more a)
    (hreach : k.Reached holders id) : h.Reached more id := by
  induction hreach using Reached.rec_on with
  | held a ha => exact hheld a ha
  | edge a b _ hab ih => exact ih.edge (hedge a b hab)

/-- A release changes nothing out of reach of the handles that are given up. -/
theorem get?_release_of_not_reached {h : Heap α} {work : List NodeId} {id : NodeId}
    (hid : ¬ h.Reached work id) : (h.release work).1.get? id = h.get? id := by
  induction h, work using release_induct with
  | nil h => rw [release_nil]
  | dead h other rest hn ih =>
      rw [release_dead hn]
      exact ih fun hreach => hid (hreach.mono (List.subset_cons_self _ _))
  | lower h other rest n hn hmore ih =>
      rw [release_lower hn hmore]
      have hne : id ≠ other := fun heq => hid (heq ▸ reached_of_mem h List.mem_cons_self)
      refine (ih fun hreach => hid (hreach.of_edge (fun a b hedge => ?_) fun a ha => ?_)).trans
        (get?_put_other hne _)
      · rwa [Edge, slotsOf_congr (content?_recount hn _ a)] at hedge
      · exact reached_of_mem h (List.mem_cons_of_mem _ ha)
  | last h other rest n hn hlast ih =>
      rw [release_last hn hlast]
      have hne : id ≠ other := fun heq => hid (heq ▸ reached_of_mem h List.mem_cons_self)
      refine (ih fun hreach => hid (hreach.of_edge (fun a b hedge => ?_) fun a ha => ?_)).trans
        (get?_free_other hne)
      · by_cases hsame : a = other
        · subst hsame
          simp [Edge, slotsOf, get?_free_self] at hedge
        · rwa [Edge, slotsOf_congr (content?_free_other hsame)] at hedge
      · rcases List.mem_append.1 ha with hslot | hrest
        · have hedge : h.Edge other a := (edge_of_get? hn).2 (by simpa [Node.handles] using hslot)
          exact (reached_of_mem h List.mem_cons_self).edge hedge
        · exact reached_of_mem h (List.mem_cons_of_mem _ hrest)

/-- A change by holders. The nodes out of their reach keep their values and slots, and a further
handle to such a node is cloned out of a slot. -/
structure ChangedBy (holders : List NodeId) (h k : Heap α) : Prop where
  content_eq : ∀ id, h.Live id → ¬ h.Reached holders id → k.content? id = h.content? id
  countOf_eq : ∀ id, h.Live id → ¬ h.Reached holders id → (∀ a, ¬ h.Edge a id) →
    k.countOf id = h.countOf id

/-- Handles are given up. -/
theorem changedBy_release {h : Heap α} {work holders : List NodeId} (hsub : work ⊆ holders) :
    ChangedBy holders h (h.release work).1 := by
  have hsame : ∀ id, ¬ h.Reached holders id → (h.release work).1.get? id = h.get? id :=
    fun id hid => get?_release_of_not_reached fun hreach => hid (hreach.mono hsub)
  refine ⟨fun id _ hid => ?_, fun id _ hid _ => ?_⟩
  · rw [content?, hsame id hid, content?]
  · rw [countOf, hsame id hid, countOf]

/-- A handle is cloned out of a slot, also of a node that the holders do not reach. -/
theorem changedBy_share {h k : Heap α} {holders : List NodeId} {a id : NodeId}
    (hedge : h.Edge a id) (hk : h.share? id = some k) : ChangedBy holders h k := by
  obtain ⟨-, n, hn, rfl⟩ := share?_eq_some hk
  refine ⟨fun other _ _ => content?_recount hn _ other, fun other _ _ hsole => ?_⟩
  have hne : other ≠ id := by
    rintro rfl
    exact hsole a hedge
  rw [countOf_recount hn, if_neg hne]

end Heap

namespace Dismantler

open Heap

variable {m : Dismantler} {h : Heap α} {others : List NodeId} {current : NodeId}

/-- The states that a machine comes to, with the heap and the other holders at that moment. -/
inductive Course : List NodeId → Dismantler → Heap α → Prop where
  | started {s : Slot} {h : Heap α} {others : List NodeId} (owned : h.Owned (s.toList ++ others)) :
    Course others (start s) h
  | stepped {m : Dismantler} {h : Heap α} {others : List NodeId} {current : NodeId}
    (course : Course others m h) (hcurrent : m.current = some current) :
    Course others (advance m h current).machine (advance m h current).heap
  /-- The others change the heap, and hold other handles afterwards. -/
  | meanwhile {m : Dismantler} {h k : Heap α} {others after : List NodeId}
    (course : Course others m h) (owned : k.Owned (m.held ++ after))
    (changed : ChangedBy others h k) : Course after m k

theorem owned_waiting (owned : h.Owned (m.held ++ others)) {p : NodeId}
    (hparent : m.parent = some p) : h.Owned (p :: (m.current.toList ++ others)) := by
  rw [held, hparent, Option.toList_some, List.append_assoc] at owned
  exact owned.perm List.perm_middle

/-- A parent that waits for the machine alone is out of reach of the others. -/
theorem Ready.not_reached_parent (ready : m.Ready h) (owned : h.Owned (m.held ++ others))
    {p : NodeId} (hparent : m.parent = some p) : ¬ h.Reached others p := fun hreach =>
  (owned_waiting owned hparent).not_reached_of_held_sole (ready.sole p hparent)
    (hreach.mono (List.subset_append_right _ _))

theorem Ready.meanwhile (ready : m.Ready h) (owned : h.Owned (m.held ++ others)) {k : Heap α}
    (changed : ChangedBy others h k) : m.Ready k := by
  have hlive : ∀ p, m.parent = some p → h.Live p := fun p hp =>
    owned.live_of_mem (by simp [held, hp])
  refine ⟨ready.below, fun p hp => ?_, fun p hp => ?_⟩
  · -- The machine holds the parent outside of all slots.
    have hsole := (owned_waiting owned hp).of_held_sole (ready.sole p hp)
    rw [changed.countOf_eq p (hlive p hp) (ready.not_reached_parent owned hp) hsole.2]
    exact ready.sole p hp
  · rw [slotsOf_congr (changed.content_eq p (hlive p hp) (ready.not_reached_parent owned hp))]
    exact ready.vacated p hp

theorem Course.sound (course : Course others m h) : h.Owned (m.held ++ others) ∧ m.Ready h := by
  induction course with
  | started owned => exact ⟨by rwa [held_start], ready_start _ _⟩
  | stepped _ hcurrent ih =>
      have hkept := advance_kept ih.1 ih.2 hcurrent
      exact ⟨hkept.owned, hkept.ready⟩
  | meanwhile _ owned changed ih => exact ⟨owned, ih.2.meanwhile ih.1 changed⟩

/-- The others may give up handles at any time. -/
theorem Course.release {work : List NodeId} (course : Course (work ++ others) m h) :
    Course others m (h.release work).1 := by
  have owned : h.Owned (work ++ (m.held ++ others)) :=
    course.sound.1.perm (List.perm_append_comm_assoc _ _ _)
  exact course.meanwhile owned.release (changedBy_release (List.subset_append_left _ _))

/-- The others may clone a handle out of any slot at any time. -/
theorem Course.share {a id : NodeId} {k : Heap α} (course : Course others m h)
    (hedge : h.Edge a id) (hk : h.share? id = some k) : Course (id :: others) m k := by
  have owned : k.Owned (id :: (m.held ++ others)) := course.sound.1.share hk
  exact course.meanwhile (owned.perm List.perm_middle.symm) (changedBy_share hedge hk)

/-! ## Steps in a row -/

theorem runFor_add (first later : Nat) (m : Dismantler) (h : Heap α) :
    (runFor (first + later) m h).machine =
        (runFor later (runFor first m h).machine (runFor first m h).heap).machine ∧
      (runFor (first + later) m h).heap =
        (runFor later (runFor first m h).machine (runFor first m h).heap).heap := by
  induction first generalizing m h with
  | zero => simp
  | succ first ih =>
      rw [Nat.succ_add]
      cases hcurrent : m.current with
      | none => simp [runFor_of_done hcurrent]
      | some current =>
          rw [runFor_succ hcurrent, runFor_succ hcurrent]
          exact ih _ _

/-- Steps beyond the end of a machine change nothing. -/
theorem runFor_of_le {n budget : Nat} (hdone : (runFor n m h).machine.current = none)
    (hle : n ≤ budget) : (runFor budget m h).machine = (runFor n m h).machine ∧
      (runFor budget m h).heap = (runFor n m h).heap := by
  obtain ⟨later, rfl⟩ := Nat.exists_eq_add_of_le hle
  obtain ⟨hmachine, hheap⟩ := runFor_add n later m h
  rw [hmachine, hheap, runFor_of_done hdone]
  exact ⟨rfl, rfl⟩

theorem step_eq_none_iff : step m h = none ↔ m.current = none := by
  rw [step, Option.map_eq_none_iff]

/-- From every state that a machine comes to, a run takes a finite number of steps, no more than its
budget, and the next one finds nothing left to do. -/
theorem run_ends (course : Course others m h) :
    ∃ n ≤ budget h,
      (∀ k < n, (step (runFor k m h).machine (runFor k m h).heap).isSome) ∧
      step (runFor n m h).machine (runFor n m h).heap = none ∧
      (m.run h).1 = (runFor n m h).machine ∧ (m.run h).2.1 = (runFor n m h).heap := by
  classical
  obtain ⟨owned, ready⟩ := course.sound
  have hdone := runFor_done owned ready (workload_le_budget m h)
  have hends : ∃ n, (runFor n m h).machine.current = none := ⟨budget h, hdone⟩
  have hle : Nat.find hends ≤ budget h := Nat.find_min' hends hdone
  obtain ⟨hmachine, hheap⟩ := runFor_of_le (Nat.find_spec hends) hle
  obtain ⟨hrun, hran, -⟩ := run_eq m h
  refine ⟨Nat.find hends, hle, fun k hk => ?_, step_eq_none_iff.2 (Nat.find_spec hends),
    hrun.trans hmachine, hran.trans hheap⟩
  rw [Option.isSome_iff_ne_none, ne_eq, step_eq_none_iff]
  exact Nat.find_min hends hk

/-- The diamond, with a leaf that somebody else holds too. -/
def lent : Heap Nat :=
  ⟨.shared, #[some ⟨3, 4, []⟩, some ⟨1, 2, [some 0, none]⟩, some ⟨1, 1, [some 1, none, some 0]⟩]⟩

theorem owned_lent : lent.Owned [0, 2] := owned_diamond.share rfl

theorem run_ends_lent :
    let begun := advance (start (some 2)) lent 2
    let after := (begun.heap.release [0]).1
    Course [] begun.machine after ∧
    ∃ n ≤ budget after,
      (∀ k < n, (step (runFor k begun.machine after).machine
        (runFor k begun.machine after).heap).isSome) ∧
      step (runFor n begun.machine after).machine (runFor n begun.machine after).heap = none ∧
      (begun.machine.run after).1 = (runFor n begun.machine after).machine ∧
      (begun.machine.run after).2.1 = (runFor n begun.machine after).heap := by
  intro begun after
  have owned : lent.Owned ((some 2).toList ++ [0]) := owned_lent.perm (List.Perm.swap _ _ _)
  have course : Course ([0] ++ []) begun.machine begun.heap := .stepped (.started owned) rfl
  exact ⟨course.release, run_ends course.release⟩

end Dismantler

end SlotTree
