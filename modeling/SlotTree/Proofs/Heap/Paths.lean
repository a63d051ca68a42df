import SlotTree.Proofs.Heap.Unfolding
import SlotTree.Proofs.Heap.Ways
import SlotTree.Proofs.Walk.Paths
import Mathlib.Data.List.Pairwise

/-! # Paths in a heap and in its views

The view of a node has a subtree for each path below the node, and at its root the node to which the
path leads. So a node has as many places in a view as paths lead to it.
-/

namespace SlotTree

universe u

/-! ## Rows side by side -/

section Rows

variable {β : Type u} {g : Graph β} {slots : List Slot} {row : Row β} {index : Nat}

theorem UnfoldsRow.getElem?_row (hrow : UnfoldsRow g slots row) {child : NodeId}
    (hslot : slots[index]? = some (some child)) :
    ∃ s, row[index]? = some (some s) ∧ Unfolds g child s := by
  induction slots generalizing row index with
  | nil => simp at hslot
  | cons slot slots ih =>
      cases hrow with
      | hole hrest =>
          cases index with
          | zero => simp at hslot
          | succ index =>
              obtain ⟨s, hs, hchild⟩ := ih hrest hslot
              exact ⟨s, hs, hchild⟩
      | tree ht hrest =>
          cases index with
          | zero =>
              obtain rfl := Option.some.inj (Option.some.inj hslot)
              exact ⟨_, rfl, ht⟩
          | succ index =>
              obtain ⟨s, hs, hchild⟩ := ih hrest hslot
              exact ⟨s, hs, hchild⟩

theorem UnfoldsRow.getElem?_slots (hrow : UnfoldsRow g slots row) {s : Tree β}
    (hs : row[index]? = some (some s)) :
    ∃ child, slots[index]? = some (some child) ∧ Unfolds g child s := by
  induction slots generalizing row index with
  | nil =>
      cases hrow
      simp at hs
  | cons slot slots ih =>
      cases hrow with
      | hole hrest =>
          cases index with
          | zero => simp at hs
          | succ index => exact ih hrest hs
      | tree ht hrest =>
          cases index with
          | zero =>
              obtain rfl := Option.some.inj (Option.some.inj hs)
              exact ⟨_, rfl, ht⟩
          | succ index => exact ih hrest hs

end Rows

namespace Heap

variable {α : Type u} {h : Heap α} {holders : List NodeId} {id target : NodeId}
  {t : Tree (Located α)} {path : List Nat}

/-! ## Subtrees at the ends of paths -/

theorem value_id_of_unfolds (ht : Unfolds h.located id t) : t.value.id = id := by
  obtain ⟨n, row, -, -, rfl⟩ := unfolds_located_iff.1 ht
  rfl

theorem descend_cons {index : Nat} :
    h.descend id (index :: path) = .ok target ↔
      ∃ child, (h.slotsOf id)[index]? = some (some child) ∧ h.descend child path = .ok target := by
  simp only [← childAt_eq_ok, descend, List.foldlM_cons]
  cases h.childAt id index <;> simp [bind, Except.bind]

/-- A path that leads to a node leads to its subtree in a view. -/
theorem nodeAt?_of_descend (ht : Unfolds h.located id t) (hok : h.descend id path = .ok target) :
    ∃ s, t.nodeAt? path = some s ∧ Unfolds h.located target s := by
  induction path generalizing id t with
  | nil =>
      obtain rfl := Except.ok.inj hok
      exact ⟨t, by simp [Tree.nodeAt?], ht⟩
  | cons index path ih =>
      obtain ⟨child, hslot, hrest⟩ := descend_cons.1 hok
      obtain ⟨n, row, hn, hrow, rfl⟩ := unfolds_located_iff.1 ht
      rw [slotsOf_eq hn] at hslot
      obtain ⟨below, hbelow, hchild⟩ := hrow.getElem?_row hslot
      obtain ⟨s, hs, htarget⟩ := ih hchild hrest
      exact ⟨s, Tree.nodeAt?_cons.2 ⟨below, hbelow, hs⟩, htarget⟩

/-- A path that leads to a subtree in a view leads to its node. -/
theorem descend_of_nodeAt? (ht : Unfolds h.located id t) {s : Tree (Located α)}
    (hs : t.nodeAt? path = some s) : h.descend id path = .ok s.value.id := by
  induction path generalizing id t with
  | nil =>
      have hroot : t.nodeAt? [] = some t := by simp [Tree.nodeAt?]
      obtain rfl := Option.some.inj (hroot.symm.trans hs)
      rw [value_id_of_unfolds ht]
      rfl
  | cons index path ih =>
      obtain ⟨n, row, hn, hrow, rfl⟩ := unfolds_located_iff.1 ht
      obtain ⟨below, hbelow, hs⟩ := Tree.nodeAt?_cons.1 hs
      obtain ⟨child, hslot, hchild⟩ := hrow.getElem?_slots hbelow
      exact descend_cons.2 ⟨child, by rwa [slotsOf_eq hn], ih hchild hs⟩

/-! ## The nodes of a view -/

/-- The identities at the places of a view, in pre-order. -/
def idsOf (t : Tree (Located α)) : List NodeId := t.preorder.map fun s => s.value.id

theorem mem_idsOf (ht : Unfolds h.located id t) : target ∈ idsOf t ↔ h.Reaches id target := by
  have hlocated {a : NodeId} {l : Located α} {slots : List Slot}
      (ha : h.located a = some (l, slots)) : l.id = a := by
    obtain ⟨n, -, hpair⟩ := Option.map_eq_some_iff.1 ha
    rw [← (Prod.mk.inj hpair).1]
  constructor
  · intro hmem
    obtain ⟨s, hs, rfl⟩ := List.mem_map.1 hmem
    have hclosed : ∀ a b, h.Reaches id a → h.located.Edge a b → h.Reaches id b :=
      fun a b ha hedge => ha.tail (edge_located.1 hedge)
    obtain ⟨a, slots, ha, hnode⟩ := ht.forall_preorder hclosed .refl s hs
    rwa [hlocated hnode]
  · intro hreach
    have hpath : Relation.ReflTransGen h.located.Edge id target :=
      Relation.ReflTransGen.mono (fun _ _ => edge_located.2) _ _ hreach
    obtain ⟨s, hs, slots, hnode⟩ := ht.exists_preorder hpath
    exact List.mem_map.2 ⟨s, hs, hlocated hnode⟩

/-- No node is reached from a node by two paths. -/
def Untangled (h : Heap α) (id : NodeId) : Prop :=
  ∀ p q target, h.descend id p = .ok target → h.descend id q = .ok target → p = q

theorem idsOf_eq (t : Tree (Located α)) :
    idsOf t = t.paths.filterMap fun path => (t.nodeAt? path).map fun s => s.value.id := by
  rw [idsOf, ← Tree.filterMap_paths, List.map_filterMap]

/-- What is picked out of a list without repetition is picked at one place. -/
theorem eq_of_nodup_filterMap {β γ : Type u} {f : β → Option γ} {l : List β} {x y : β} {b : γ}
    (hnodup : (l.filterMap f).Nodup) (hx : x ∈ l) (hy : y ∈ l) (hfx : f x = some b)
    (hfy : f y = some b) : x = y := by
  have hapart := List.pairwise_filterMap.1 hnodup
  have : Std.Symm fun a a' : β => ∀ b, f a = some b → ∀ b', f a' = some b' → b ≠ b' :=
    ⟨fun a a' haa' b hb b' hb' => (haa' b' hb' b hb).symm⟩
  by_contra hne
  exact hapart.forall hx hy hne b hfx b hfy rfl

/-- A node is untangled if its view has each node at one place. -/
theorem untangled_iff_nodup (ht : Unfolds h.located id t) : h.Untangled id ↔ (idsOf t).Nodup := by
  rw [idsOf_eq]
  constructor
  · intro huntangled
    refine (Tree.nodup_paths t).filterMap fun p q x hp hq => ?_
    obtain ⟨s, hs, rfl⟩ := Option.map_eq_some_iff.1 hp
    obtain ⟨s', hs', heq⟩ := Option.map_eq_some_iff.1 hq
    exact huntangled p q _ (descend_of_nodeAt? ht hs) (heq ▸ descend_of_nodeAt? ht hs')
  · intro hnodup p q target hp hq
    obtain ⟨s, hs, htarget⟩ := nodeAt?_of_descend ht hp
    obtain ⟨s', hs', htarget'⟩ := nodeAt?_of_descend ht hq
    obtain rfl := htarget.unique htarget'
    exact eq_of_nodup_filterMap hnodup (Tree.mem_paths_of_nodeAt? hs)
      (Tree.mem_paths_of_nodeAt? hs') (congrArg _ hs) (congrArg _ hs')

/-- Where a view has each node at one place, it has as many nodes as are reached. -/
theorem size_eq_height (owned : h.Owned holders) (hid : h.Live id) (ht : Unfolds h.located id t)
    (hnodup : (idsOf t).Nodup) : t.size = h.height id := by
  classical
  have hsame : (idsOf t).toFinset = (Finset.range h.cells.size).filter (h.Reaches id) := by
    ext x
    rw [List.mem_toFinset, mem_idsOf ht, Finset.mem_filter, Finset.mem_range]
    refine ⟨fun hreach => ⟨?_, hreach⟩, fun hx => hx.2⟩
    obtain ⟨a, ha, hpath⟩ := owned.reached_of_live hid
    exact (owned.live_of_reached ⟨a, ha, hpath.trans hreach⟩).lt_size
  rw [height, ← hsame, List.toFinset_card_of_nodup hnodup, idsOf, List.length_map,
    Tree.length_preorder]

end Heap

end SlotTree
