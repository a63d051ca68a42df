import SlotTree.Heap.Basic

/-! # Releasing handles

Giving up the last handle to a node frees the node, reports its value and then gives up the
handles of its slots, first to last. Any other handle only lowers the count.
-/

namespace SlotTree.Heap

universe u

variable {α : Type u}

/-- Gives up the handles of a worklist in order, and adds the values of the freed nodes to those
noted before. The handles of a freed node come before the rest of the list, so a tree is freed
parents first. -/
def releaseOnto (noted : Array α) (h : Heap α) : List NodeId → Heap α × List α
  | [] => (h, noted.toList)
  | id :: rest =>
    match _hn : h.get? id with
    | none => releaseOnto noted h rest
    | some n =>
      if 1 < n.count then
        releaseOnto noted (h.put id { n with count := n.count - 1 }) rest
      else
        releaseOnto (noted.push n.value) (h.free id) (n.handles ++ rest)
termination_by work => h.handleCount + work.length
decreasing_by
  · simp
  · have := weigh_put _hn (fun n => n.handles.length) { n with count := n.count - 1 }
    simp only [Node.handles] at this
    simp only [handleCount, Node.handles, List.length_cons]
    omega
  · have := weigh_free _hn (fun n => n.handles.length)
    simp only [handleCount, List.length_append, List.length_cons]
    omega

/-- Gives up the handles of a worklist in order, and returns the values of the freed nodes. -/
def release (h : Heap α) (work : List NodeId) : Heap α × List α := h.releaseOnto #[] work

/-- Gives up what a slot holds; a hole holds nothing. -/
def releaseSlot (h : Heap α) (s : Slot) : Heap α × List α := h.release s.toList

/-! ## One handle after the other -/

/-- A worklist is empty, or its first handle leads nowhere, is one of several, or is the last. -/
theorem release_induct {motive : Heap α → List NodeId → Prop} (nil : ∀ h, motive h [])
    (dead : ∀ (h : Heap α) id rest, h.get? id = none → motive h rest → motive h (id :: rest))
    (lower : ∀ (h : Heap α) id rest n, h.get? id = some n → 1 < n.count →
      motive (h.put id { n with count := n.count - 1 }) rest → motive h (id :: rest))
    (last : ∀ (h : Heap α) id rest n, h.get? id = some n → ¬ 1 < n.count →
      motive (h.free id) (n.handles ++ rest) → motive h (id :: rest))
    (h : Heap α) (work : List NodeId) : motive h work :=
  releaseOnto.induct (fun _ => motive) (fun _ => nil) (fun _ => dead) (fun _ => lower)
    (fun _ => last) #[] h work

theorem releaseOnto_dead {h : Heap α} {id : NodeId} (hn : h.get? id = none) (noted : Array α)
    (rest : List NodeId) : h.releaseOnto noted (id :: rest) = h.releaseOnto noted rest := by
  rw [releaseOnto, hn]

theorem releaseOnto_lower {h : Heap α} {id : NodeId} {n : Node α} (hn : h.get? id = some n)
    (hmore : 1 < n.count) (noted : Array α) (rest : List NodeId) :
    h.releaseOnto noted (id :: rest) =
      (h.put id { n with count := n.count - 1 }).releaseOnto noted rest := by
  rw [releaseOnto, hn]
  exact if_pos hmore

theorem releaseOnto_last {h : Heap α} {id : NodeId} {n : Node α} (hn : h.get? id = some n)
    (hlast : ¬ 1 < n.count) (noted : Array α) (rest : List NodeId) :
    h.releaseOnto noted (id :: rest) =
      (h.free id).releaseOnto (noted.push n.value) (n.handles ++ rest) := by
  rw [releaseOnto, hn]
  exact if_neg hlast

/-- What was noted before comes first, and has no part in the release. -/
theorem releaseOnto_eq (noted : Array α) (h : Heap α) (work : List NodeId) :
    h.releaseOnto noted work = ((h.release work).1, noted.toList ++ (h.release work).2) := by
  induction h, work using release_induct generalizing noted with
  | nil h => simp [releaseOnto, release]
  | dead h id rest hn ih => rw [release, releaseOnto_dead hn, releaseOnto_dead hn, ih, release]
  | lower h id rest n hn hmore ih =>
    rw [release, releaseOnto_lower hn hmore, releaseOnto_lower hn hmore, ih, release]
  | last h id rest n hn hlast ih =>
    rw [release, releaseOnto_last hn hlast, releaseOnto_last hn hlast, ih, ih (#[].push _)]
    simp

@[simp] theorem release_nil (h : Heap α) : h.release [] = (h, []) := by
  rw [release, releaseOnto]

theorem release_dead {h : Heap α} {id : NodeId} (hn : h.get? id = none) (rest : List NodeId) :
    h.release (id :: rest) = h.release rest :=
  releaseOnto_dead hn #[] rest

theorem release_lower {h : Heap α} {id : NodeId} {n : Node α} (hn : h.get? id = some n)
    (hmore : 1 < n.count) (rest : List NodeId) :
    h.release (id :: rest) = (h.put id { n with count := n.count - 1 }).release rest :=
  releaseOnto_lower hn hmore #[] rest

theorem release_last {h : Heap α} {id : NodeId} {n : Node α} (hn : h.get? id = some n)
    (hlast : ¬ 1 < n.count) (rest : List NodeId) :
    h.release (id :: rest) = (((h.free id).release (n.handles ++ rest)).1,
      n.value :: ((h.free id).release (n.handles ++ rest)).2) := by
  rw [release, releaseOnto_last hn hlast, releaseOnto_eq]
  simp

end SlotTree.Heap
