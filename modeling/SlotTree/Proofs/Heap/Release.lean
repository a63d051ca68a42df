import SlotTree.Proofs.Heap.Ownership

/-! # What a release leaves

Releasing handles goes on unseen by those who hold the others: what they reach stays as it is, and
only values of nodes that die are reported. As a heap is determined by what its holders reach, any
two unseen ways of giving up the same handles end in the same heap, with the same values reported.
-/

namespace SlotTree.Heap

universe u

variable {α : Type u}

open List

/-! ## Changes unseen by some holders -/

/-- The holders reach the same nodes with the same contents, no handle is cloned, and the values
that left the nodes are reported. -/
structure Unseen (holders : List NodeId) (h k : Heap α) (values : List α) : Prop where
  policy_eq : k.policy = h.policy
  size_eq : k.cells.size = h.cells.size
  count_le : ∀ id, k.countOf id ≤ h.countOf id
  content_eq : ∀ id, h.Reached holders id → k.content? id = h.content? id
  conserved : values ++ k.values ~ h.values

namespace Unseen

variable {holders : List NodeId} {h k l : Heap α} {values later : List α}

theorem refl (holders : List NodeId) (h : Heap α) : Unseen holders h h [] :=
  ⟨rfl, rfl, fun _ => le_refl _, fun _ _ => rfl, .refl _⟩

theorem edge_iff (unseen : Unseen holders h k values) {a b : NodeId}
    (ha : h.Reached holders a) : k.Edge a b ↔ h.Edge a b := by
  rw [Edge, Edge, slotsOf_congr (unseen.content_eq a ha)]

theorem reached (unseen : Unseen holders h k values) {id : NodeId}
    (hid : h.Reached holders id) : k.Reached holders id := by
  induction hid using Reached.rec_on with
  | held a ha => exact reached_of_mem k ha
  | edge a b ha hedge ih => exact ih.edge ((unseen.edge_iff ha).2 hedge)

theorem reached_iff (unseen : Unseen holders h k values) (id : NodeId) :
    k.Reached holders id ↔ h.Reached holders id := by
  refine ⟨fun hid => ?_, unseen.reached⟩
  induction hid using Reached.rec_on with
  | held a ha => exact reached_of_mem h ha
  | edge a b _ hedge ih => exact ih.edge ((unseen.edge_iff ih).1 hedge)

theorem trans (first : Unseen holders h k values) (second : Unseen holders k l later) :
    Unseen holders h l (values ++ later) := by
  refine ⟨second.policy_eq.trans first.policy_eq, second.size_eq.trans first.size_eq,
    fun id => (second.count_le id).trans (first.count_le id), fun id hid => ?_, ?_⟩
  · rw [second.content_eq id (first.reached hid), first.content_eq id hid]
  · rw [List.append_assoc]
    exact (second.conserved.append_left values).trans first.conserved

/-- The fewer holders look on, the less is seen. -/
theorem mono (unseen : Unseen holders h k values) {fewer : List NodeId} (hsub : fewer ⊆ holders) :
    Unseen fewer h k values :=
  ⟨unseen.policy_eq, unseen.size_eq, unseen.count_le,
    fun id hid => unseen.content_eq id (hid.mono hsub), unseen.conserved⟩

end Unseen

/-- Nobody sees an exchange of slots in a node that he does not reach. -/
theorem unseen_setSlots {h : Heap α} {holders : List NodeId} {id : NodeId} (slots : List Slot)
    (hid : ¬ h.Reached holders id) : Unseen holders h (h.setSlots id slots) [] := by
  refine ⟨by simp, by simp, by simp, fun other hother => ?_, values_setSlots h id slots⟩
  refine content?_setSlots_other slots ?_
  rintro rfl
  exact hid hother

/-! ## Releases -/

/-- The last handle to a node that holds none frees this node only. -/
theorem release_bare {h : Heap α} {id : NodeId} {n : Node α} (hn : h.get? id = some n)
    (hlast : ¬ 1 < n.count) (hbare : n.handles = []) :
    h.release [id] = (h.free id, [n.value]) := by
  rw [release_last hn hlast, hbare, List.nil_append, release_nil]

theorem policy_release (h : Heap α) (work : List NodeId) :
    (h.release work).1.policy = h.policy := by
  induction h, work using release_induct with
  | nil h => rw [release_nil]
  | dead h id rest hn ih => rwa [release_dead hn]
  | lower h id rest n hn hmore ih => rwa [release_lower hn hmore]
  | last h id rest n hn hlast ih => rwa [release_last hn hlast]

theorem size_release (h : Heap α) (work : List NodeId) :
    (h.release work).1.cells.size = h.cells.size := by
  induction h, work using release_induct with
  | nil h => rw [release_nil]
  | dead h id rest hn ih => rwa [release_dead hn]
  | lower h id rest n hn hmore ih => rw [release_lower hn hmore, ih, size_put]
  | last h id rest n hn hlast ih => rw [release_last hn hlast, ih, size_free]

theorem countOf_release_le (h : Heap α) (work : List NodeId) (id : NodeId) :
    (h.release work).1.countOf id ≤ h.countOf id := by
  induction h, work using release_induct with
  | nil h => rw [release_nil]
  | dead h other rest hn ih => rwa [release_dead hn]
  | lower h other rest n hn hmore ih =>
      rw [release_lower hn hmore]
      apply ih.trans
      rw [countOf_recount hn]
      split
      · next hsame =>
          subst hsame
          rw [countOf_eq hn]
          omega
      · exact le_refl _
  | last h other rest n hn hlast ih =>
      rw [release_last hn hlast]
      apply ih.trans
      rw [countOf_free]
      split <;> omega

/-- What survives a release keeps its content. -/
theorem content?_release {h : Heap α} {work : List NodeId} {id : NodeId}
    (hid : (h.release work).1.Live id) : (h.release work).1.content? id = h.content? id := by
  induction h, work using release_induct with
  | nil h => rw [release_nil]
  | dead h other rest hn ih =>
      rw [release_dead hn] at hid ⊢
      exact ih hid
  | lower h other rest n hn hmore ih =>
      rw [release_lower hn hmore] at hid ⊢
      rw [ih hid, content?_recount hn]
  | last h other rest n hn hlast ih =>
      rw [release_last hn hlast] at hid ⊢
      have hcontent := ih hid
      rw [live_iff_content?] at hid
      by_cases hsame : id = other
      · subst hsame
        rw [hcontent, content?_free_self] at hid
        simp at hid
      · exact hcontent.trans (content?_free_other hsame)

/-- A release reports the value of each node that dies once, and no other value. -/
theorem values_release (h : Heap α) (work : List NodeId) :
    (h.release work).2 ++ (h.release work).1.values ~ h.values := by
  induction h, work using release_induct with
  | nil h => rw [release_nil, List.nil_append]
  | dead h id rest hn ih => rwa [release_dead hn]
  | lower h id rest n hn hmore ih =>
      rw [release_lower hn hmore]
      exact ih.trans (values_recount hn _)
  | last h id rest n hn hlast ih =>
      rw [release_last hn hlast]
      exact (ih.cons n.value).trans (values_free hn)

/-- A release lowers what the live nodes weigh, if handles do not count. -/
theorem weigh_release_le {f : Node α → Nat} (hf : ∀ n count, f { n with count := count } = f n)
    (h : Heap α) (work : List NodeId) : (h.release work).1.weigh f ≤ h.weigh f := by
  induction h, work using release_induct with
  | nil h => rw [release_nil]
  | dead h id rest hn ih => rwa [release_dead hn]
  | lower h id rest n hn hmore ih =>
      rw [release_lower hn hmore]
      have hput := weigh_put hn f { n with count := n.count - 1 }
      have hsame := hf n (n.count - 1)
      omega
  | last h id rest n hn hlast ih =>
      rw [release_last hn hlast]
      have hfree := weigh_free hn f
      exact le_trans ih (by omega)

/-- What is left after a release belongs to the other holders. -/
theorem Owned.release {h : Heap α} {work holders : List NodeId}
    (owned : h.Owned (work ++ holders)) : (h.release work).1.Owned holders := by
  induction h, work using release_induct with
  | nil h => rwa [release_nil]
  | dead h id rest hn ih =>
      have hlive : h.Live id := owned.live_of_mem (by simp)
      simp [Live, hn] at hlive
  | lower h id rest n hn hmore ih =>
      rw [release_lower hn hmore]
      exact ih (Owned.lower owned hn hmore)
  | last h id rest n hn hlast ih =>
      rw [release_last hn hlast]
      apply ih
      rw [List.append_assoc]
      exact Owned.free owned hn hlast

theorem Owned.unseen_release {h : Heap α} {work holders : List NodeId}
    (owned : h.Owned (work ++ holders)) :
    Unseen holders h (h.release work).1 (h.release work).2 := by
  refine ⟨policy_release h work, size_release h work, countOf_release_le h work, fun id hid => ?_,
    values_release h work⟩
  refine content?_release ?_
  induction hid using Reached.rec_on with
  | held a ha => exact owned.release.live_of_mem ha
  | edge a b _ hedge ih =>
      apply owned.release.live_of_edge (a := a)
      rwa [Edge, slotsOf_congr (content?_release ih)]

/-- A release kills the nodes that the other holders do not reach. -/
theorem Owned.live_release_iff {h : Heap α} {work holders : List NodeId}
    (owned : h.Owned (work ++ holders)) (id : NodeId) :
    (h.release work).1.Live id ↔ h.Reached holders id := by
  rw [owned.release.live_iff_reached, owned.unseen_release.reached_iff]

/-- Two heaps of the same holders, in which these see the same as in a common origin and nothing is
alive but what they reach, are equal. -/
theorem Unseen.eq_of_owned {h k l : Heap α} {holders : List NodeId} {values others : List α}
    (hk : Unseen holders h k values) (hl : Unseen holders h l others)
    (ownedk : k.Owned holders) (ownedl : l.Owned holders) : k = l := by
  have hsize : k.cells.size = l.cells.size := hk.size_eq.trans hl.size_eq.symm
  have hcontent : ∀ id, k.content? id = l.content? id := by
    intro id
    by_cases hid : h.Reached holders id
    · rw [hk.content_eq id hid, hl.content_eq id hid]
    · have hdeadk : ¬ k.Live id := by rwa [ownedk.live_iff_reached, hk.reached_iff]
      have hdeadl : ¬ l.Live id := by rwa [ownedl.live_iff_reached, hl.reached_iff]
      rw [live_iff_content?, Option.not_isSome_iff_eq_none] at hdeadk hdeadl
      rw [hdeadk, hdeadl]
  apply ext_content (hk.policy_eq.trans hl.policy_eq.symm) hsize hcontent
  intro id
  rw [ownedk.counted, ownedl.counted, handlesTo_congr hsize hcontent]

/-- Whatever was done unseen by the others before some handles are given up, the same heap is left,
and the same values are reported in all. -/
theorem Unseen.release_eq {h k : Heap α} {holders work others : List NodeId} {values : List α}
    (unseen : Unseen holders h k values) (ownedh : h.Owned (work ++ holders))
    (ownedk : k.Owned (others ++ holders)) :
    (k.release others).1 = (h.release work).1 ∧
      values ++ (k.release others).2 ~ (h.release work).2 := by
  have hk := unseen.trans ownedk.unseen_release
  have hh := ownedh.unseen_release
  have heq := hk.eq_of_owned hh ownedk.release ownedh.release
  refine ⟨heq, ?_⟩
  have hconserved := hk.conserved.trans hh.conserved.symm
  rw [heq] at hconserved
  exact (List.perm_append_right_iff _).1 hconserved

end SlotTree.Heap
