import SlotTree.Proofs.Heap.Graph
import Mathlib.Data.List.ReduceOption

/-! # Ownership

The handles outside the slots of live nodes are kept apart as the list of the holders. A heap is
owned by its holders if every count tells the handles in hand and in slots, no live node has none,
and no path of handles comes back. Then exactly the nodes reached from the holders are alive.
-/

namespace SlotTree.Heap

universe u

variable {α : Type u}

open List

/-- The handles to the nodes of a heap are counted, and lead nowhere back. -/
structure Owned (h : Heap α) (holders : List NodeId) : Prop where
  counted : ∀ id, h.countOf id = holders.count id + h.handlesTo id
  positive : ∀ id, h.Live id → 0 < h.countOf id
  single : h.policy = .unique → ∀ id, h.Live id → h.countOf id = 1
  acyclic : h.Acyclic

theorem count_reduceOption (slots : List Slot) (id : NodeId) :
    slots.reduceOption.count id = slots.count (some id) := by
  induction slots with
  | nil => rfl
  | cons s slots ih => cases s <;> simp [List.count_cons, ih]

theorem owned_empty (p : Policy) : (empty p : Heap α).Owned [] := by
  have hnone : ∀ id, (empty p : Heap α).get? id = none := fun id => by simp [get?, empty]
  refine ⟨fun id => ?_, fun id hid => ?_, fun _ id hid => ?_, fun id hcycle => ?_⟩
  · rw [countOf, hnone]
    rfl
  · simp [Live, hnone] at hid
  · simp [Live, hnone] at hid
  · obtain ⟨b, hedge, -⟩ := Relation.TransGen.head'_iff.1 hcycle
    simp [Edge, slotsOf, hnone] at hedge

namespace Owned

variable {h : Heap α} {holders : List NodeId}

theorem perm (owned : h.Owned holders) {others : List NodeId} (hperm : holders ~ others) :
    h.Owned others :=
  ⟨fun id => hperm.count_eq id ▸ owned.counted id, owned.positive, owned.single, owned.acyclic⟩

theorem live_of_countOf_pos {id : NodeId} (hpos : 0 < h.countOf id) : h.Live id := by
  by_contra hdead
  simp [countOf_of_not_live hdead] at hpos

theorem live_of_mem (owned : h.Owned holders) {id : NodeId} (hid : id ∈ holders) : h.Live id := by
  apply live_of_countOf_pos
  have := List.count_pos_iff.2 hid
  rw [owned.counted]
  omega

/-- No handle dangles. -/
theorem live_of_edge (owned : h.Owned holders) {a b : NodeId} (hedge : h.Edge a b) : h.Live b := by
  apply live_of_countOf_pos
  have := handlesTo_pos_iff.2 ⟨a, hedge⟩
  rw [owned.counted]
  omega

theorem live_of_reached (owned : h.Owned holders) {id : NodeId} (hid : h.Reached holders id) :
    h.Live id := by
  rcases hid.mem_or_edge with hmem | ⟨a, -, hedge⟩
  · exact owned.live_of_mem hmem
  · exact owned.live_of_edge hedge

/-- A live node is held by someone, and so is the one that holds it in a slot: as no path comes
back, the search upwards ends at a holder. -/
theorem reached_of_live (owned : h.Owned holders) {id : NodeId} (hid : h.Live id) :
    h.Reached holders id := by
  induction id using owned.acyclic.induction with
  | hstep b ih =>
      have hpos := owned.positive b hid
      rw [owned.counted] at hpos
      rcases Nat.eq_zero_or_pos (h.handlesTo b) with hzero | hslot
      · exact reached_of_mem h (List.count_pos_iff.1 (by omega))
      · obtain ⟨a, hedge⟩ := handlesTo_pos_iff.1 hslot
        exact (ih a hedge hedge.live).edge hedge

/-- Alive are exactly the nodes that the holders reach. -/
theorem live_iff_reached (owned : h.Owned holders) (id : NodeId) :
    h.Live id ↔ h.Reached holders id :=
  ⟨owned.reached_of_live, owned.live_of_reached⟩

theorem isExclusive_iff (owned : h.Owned holders) {id : NodeId} :
    h.isExclusive id ↔ h.countOf id = 1 := by
  rw [Heap.isExclusive_iff]
  constructor
  · rintro ⟨hlive, hunique | hone⟩
    · exact owned.single hunique id hlive
    · exact hone
  · intro hone
    exact ⟨live_of_countOf_pos (by omega), .inr hone⟩

/-! ## Sole handles -/

/-- A node with one handle, which is in a slot, is not held, and no other slot leads to it. -/
theorem of_edge_sole (owned : h.Owned holders) {a b : NodeId} (hedge : h.Edge a b)
    (hone : h.countOf b = 1) : b ∉ holders ∧ ∀ c, h.Edge c b → c = a := by
  have hpos := handlesTo_pos_iff.2 ⟨a, hedge⟩
  have hcounted := owned.counted b
  constructor
  · intro hmem
    have := List.count_pos_iff.2 hmem
    omega
  · intro c hc
    exact hedge.eq_of_handlesTo_le_one hc (by omega)

/-- A node with one handle, which is held, is in no slot and not held again. -/
theorem of_held_sole {id : NodeId} (owned : h.Owned (id :: holders))
    (hone : h.countOf id = 1) : id ∉ holders ∧ ∀ c, ¬ h.Edge c id := by
  have hcounted := owned.counted id
  rw [List.count_cons_self] at hcounted
  constructor
  · intro hmem
    have := List.count_pos_iff.2 hmem
    omega
  · intro c hc
    have := handlesTo_pos_iff.2 ⟨c, hc⟩
    omega

theorem not_reached_of_held_sole {id : NodeId} (owned : h.Owned (id :: holders))
    (hone : h.countOf id = 1) : ¬ h.Reached holders id := by
  intro hreach
  obtain ⟨hmem, hedge⟩ := owned.of_held_sole hone
  rcases hreach.mem_or_edge with hheld | ⟨a, -, ha⟩
  · exact hmem hheld
  · exact hedge a ha

/-! ## What the updates keep -/

/-- Giving up a handle that is not the last one. -/
theorem lower {id : NodeId} (owned : h.Owned (id :: holders)) {n : Node α}
    (hn : h.get? id = some n) (hmore : 1 < n.count) :
    (h.put id { n with count := n.count - 1 }).Owned holders := by
  have hcount : h.countOf id = n.count := countOf_eq hn
  have hlive : ∀ x, (h.put id { n with count := n.count - 1 }).Live x ↔ h.Live x := fun x => by
    rw [live_iff_content?, live_iff_content?, content?_recount hn]
  refine ⟨fun x => ?_, fun x hx => ?_, fun hunique x hx => ?_, ?_⟩
  · rw [countOf_recount hn, handlesTo_recount hn]
    have hx := owned.counted x
    rw [List.count_cons] at hx
    by_cases hxid : x = id
    · subst hxid
      simp only [beq_self_eq_true, if_true] at hx ⊢
      omega
    · simpa [hxid, Ne.symm hxid] using hx
  · have := owned.positive x ((hlive x).1 hx)
    rw [countOf_recount hn]
    split <;> omega
  · have := owned.single hunique id (live_iff.2 ⟨n, hn⟩)
    omega
  · apply owned.acyclic.mono
    intro a b hedge
    rwa [Edge, slotsOf_congr (content?_recount hn _ a)] at hedge

/-- Giving up the last handle to a node leaves the handles of its slots in hand. -/
theorem free {id : NodeId} (owned : h.Owned (id :: holders)) {n : Node α}
    (hn : h.get? id = some n) (hlast : ¬ 1 < n.count) :
    (h.free id).Owned (n.handles ++ holders) := by
  have hcount : h.countOf id = n.count := countOf_eq hn
  have hone : h.countOf id = 1 := by
    have := owned.positive id (live_iff.2 ⟨n, hn⟩)
    omega
  have hself := owned.counted id
  rw [List.count_cons_self] at hself
  have hlive : ∀ x, (h.free id).Live x → x ≠ id ∧ h.Live x := by
    intro x hx
    have hxid : x ≠ id := by
      rintro rfl
      simp [Live, get?_free_self] at hx
    exact ⟨hxid, by rwa [Live, get?_free_other hxid] at hx⟩
  refine ⟨fun x => ?_, fun x hx => ?_, fun hunique x hx => ?_, ?_⟩
  · have hx := owned.counted x
    have hfree := handlesTo_free hn x
    rw [countOf_free, List.count_append, Node.count_handles]
    by_cases hxid : x = id
    · subst hxid
      rw [if_pos rfl]
      omega
    · rw [List.count_cons_of_ne (Ne.symm hxid)] at hx
      rw [if_neg hxid]
      omega
  · obtain ⟨hxid, hx⟩ := hlive x hx
    rw [countOf_free, if_neg hxid]
    exact owned.positive x hx
  · obtain ⟨hxid, hx⟩ := hlive x hx
    rw [countOf_free, if_neg hxid]
    exact owned.single hunique x hx
  · apply owned.acyclic.mono
    intro a b hedge
    have haid : a ≠ id := (hlive a hedge.live).1
    rwa [Edge, slotsOf_congr (content?_free_other haid)] at hedge

/-- Cloning a handle. -/
theorem share {id : NodeId} (owned : h.Owned holders) {k : Heap α}
    (hk : h.share? id = some k) : k.Owned (id :: holders) := by
  obtain ⟨hpolicy, n, hn, rfl⟩ := share?_eq_some hk
  have hcount : h.countOf id = n.count := countOf_eq hn
  refine ⟨fun x => ?_, fun x hx => ?_, fun hunique => ?_, ?_⟩
  · rw [countOf_recount hn, handlesTo_recount hn, List.count_cons]
    have hx := owned.counted x
    by_cases hxid : x = id
    · subst hxid
      simp only [beq_self_eq_true, if_true]
      omega
    · simpa [hxid, Ne.symm hxid] using hx
  · have hx : h.Live x := by
      rwa [live_iff_content?, content?_recount hn, ← live_iff_content?] at hx
    have := owned.positive x hx
    rw [countOf_recount hn]
    split <;> omega
  · simp [put, hpolicy] at hunique
  · apply owned.acyclic.mono
    intro a b hedge
    rwa [Edge, slotsOf_congr (content?_recount hn _ a)] at hedge

/-- Values hold no handles. -/
theorem revalue {id : NodeId} (owned : h.Owned holders) {n : Node α} (hn : h.get? id = some n)
    (value : α) : (h.put id { n with value := value }).Owned holders := by
  refine ⟨fun x => ?_, fun x hx => ?_, fun hunique x hx => ?_, ?_⟩
  · rw [countOf_revalue hn, handlesTo_revalue hn]
    exact owned.counted x
  · rw [countOf_revalue hn]
    exact owned.positive x ((live_revalue hn value x).1 hx)
  · rw [countOf_revalue hn]
    exact owned.single hunique x ((live_revalue hn value x).1 hx)
  · apply owned.acyclic.mono
    intro a b hedge
    rwa [Edge, slotsOf_revalue hn] at hedge

/-- Exchanging the slots of a node. The handles of the old row go to the holders, those of the new
one come from them, and none that comes new may lead back to the node. -/
theorem setSlots (owned : h.Owned holders) {id : NodeId} (hid : h.Live id) {slots : List Slot}
    {others : List NodeId}
    (hcount : ∀ x, others.count x + slots.count (some x) =
      holders.count x + (h.slotsOf id).count (some x))
    (hback : ∀ b, some b ∈ slots → some b ∉ h.slotsOf id → ¬ h.Reaches b id) :
    (h.setSlots id slots).Owned others := by
  refine ⟨fun x => ?_, fun x hx => ?_, fun hunique x hx => ?_, owned.acyclic.setSlots hback⟩
  · have := owned.counted x
    have := handlesTo_setSlots slots hid x
    have := hcount x
    rw [countOf_setSlots]
    omega
  · rw [countOf_setSlots]
    exact owned.positive x ((live_setSlots h id slots x).1 hx)
  · rw [countOf_setSlots]
    rw [policy_setSlots] at hunique
    exact owned.single hunique x ((live_setSlots h id slots x).1 hx)

/-- Taking the whole row of a node into the hand. -/
theorem takeSlots (owned : h.Owned holders) (id : NodeId) :
    (h.setSlots id []).Owned ((h.slotsOf id).reduceOption ++ holders) := by
  by_cases hid : h.Live id
  · refine owned.setSlots hid (fun x => ?_) (by simp)
    rw [List.count_append, count_reduceOption]
    simp [Nat.add_comm]
  · have hnone : h.get? id = none := by simpa [Live] using hid
    simpa [Heap.setSlots, hnone, slotsOf_of_not_live hid] using owned

/-- A node whose only handle is in hand may get any row. -/
theorem setSlots_of_held_sole {id : NodeId} (owned : h.Owned holders) (hone : h.countOf id = 1)
    {slots : List Slot} {others : List NodeId} (hmem : id ∈ holders) (hmem' : id ∈ others)
    (hcount : ∀ x, others.count x + slots.count (some x) =
      holders.count x + (h.slotsOf id).count (some x)) :
    (h.setSlots id slots).Owned others := by
  have hcounted := owned.counted id
  have hheld := List.count_pos_iff.2 hmem
  have hheld' := List.count_pos_iff.2 hmem'
  have hslots := count_le_handlesTo h id id
  apply owned.setSlots (owned.live_of_mem hmem) hcount
  intro b hb _ hpath
  cases hpath with
  | refl =>
      have := List.count_pos_iff.2 hb
      have := hcount id
      omega
  | tail _ hedge =>
      have := handlesTo_pos_iff.2 ⟨_, hedge⟩
      omega

/-- Making a node from slots in hand. -/
theorem alloc {slots : List Slot} (owned : h.Owned (slots.reduceOption ++ holders)) (value : α) :
    (h.alloc value slots).1.Owned (h.cells.size :: holders) := by
  have hfresh := owned.counted h.cells.size
  rw [countOf_of_not_live (not_live_size h)] at hfresh
  have hcountOf : ∀ x, (h.alloc value slots).1.countOf x =
      if x = h.cells.size then 1 else h.countOf x := by
    intro x
    simp only [countOf, get?_alloc]
    split <;> rfl
  have hlive : ∀ x, (h.alloc value slots).1.Live x → x = h.cells.size ∨ h.Live x := by
    intro x hx
    by_cases hxid : x = h.cells.size
    · exact .inl hxid
    · exact .inr (by simpa [Live, get?_alloc, hxid] using hx)
  refine ⟨fun x => ?_, fun x hx => ?_, fun hunique x hx => ?_, ?_⟩
  · have hx := owned.counted x
    rw [List.count_append, count_reduceOption] at hx hfresh
    rw [hcountOf, handlesTo_alloc, List.count_cons]
    by_cases hxid : x = h.cells.size
    · subst hxid
      simp only [beq_self_eq_true, if_true]
      omega
    · simp only [hxid, Ne.symm hxid, beq_iff_eq, if_false]
      omega
  · rw [hcountOf]
    split
    · exact Nat.one_pos
    · next hxid => exact owned.positive x ((hlive x hx).resolve_left hxid)
  · rw [hcountOf]
    split
    · rfl
    · next hxid => exact owned.single hunique x ((hlive x hx).resolve_left hxid)
  · -- The new node is made without slots first, which adds no edge, and nothing leads to it.
    have hbare : ((h.alloc value slots).1.setSlots h.cells.size []).Acyclic := by
      apply owned.acyclic.mono
      intro a b hedge
      obtain ⟨ha, hedge⟩ := edge_setSlots_nil.1 hedge
      simpa [Edge, slotsOf, get?_alloc, ha] using hedge
    have hrow : (h.alloc value slots).1 =
        ((h.alloc value slots).1.setSlots h.cells.size []).setSlots h.cells.size slots := by
      rw [setSlots_setSlots]
      refine ext_get? (by simp) (by simp) fun x => ?_
      by_cases hx : x = h.cells.size <;> simp [get?_setSlots, get?_alloc, hx]
    rw [hrow]
    apply hbare.setSlots
    intro b hb _ hpath
    rw [List.count_append, count_reduceOption] at hfresh
    cases hpath with
    | refl =>
        have := List.count_pos_iff.2 hb
        omega
    | @tail a _ _ hedge =>
        obtain ⟨ha, hedge⟩ := edge_setSlots_nil.1 hedge
        have hedge : h.Edge a h.cells.size := by simpa [Edge, slotsOf, get?_alloc, ha] using hedge
        have := handlesTo_pos_iff.2 ⟨_, hedge⟩
        omega

end Owned

/-! ## A small heap -/

/-- A root whose last slot holds the leaf that its first child holds too. -/
def diamond : Heap Nat :=
  ⟨.shared, #[some ⟨2, 4, []⟩, some ⟨1, 2, [some 0, none]⟩,
    some ⟨1, 1, [some 1, none, some 0]⟩]⟩

theorem owned_diamond : diamond.Owned [2] := by
  have hleaf : ((empty .shared).alloc 4 []).1.Owned [0] := (owned_empty .shared).alloc 4
  have htwice : (⟨.shared, #[some ⟨2, 4, []⟩]⟩ : Heap Nat).Owned [0, 0] := hleaf.share rfl
  have hchild : (⟨.shared, #[some ⟨2, 4, []⟩, some ⟨1, 2, [some 0, none]⟩]⟩ : Heap Nat).Owned
      [1, 0] := @Owned.alloc _ _ [0] [some 0, none] htwice 2
  exact @Owned.alloc _ _ [] [some 1, none, some 0] hchild 1

end SlotTree.Heap
