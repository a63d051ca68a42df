import SlotTree.Heap.View
import SlotTree.Proofs.Heap.Ownership
import SlotTree.Proofs.Walk.Sequence

/-! # Unfolding a graph

A graph gives each node that is there a label and a row of slots. A node unfolds to a tree by its
row, in one way at most, and the tree depends only on what the node reaches. The view of a node of
an owned heap is its unfolding.
-/

namespace SlotTree

universe u v

variable {β : Type u} {γ : Type v}

/-- The labels and rows of the nodes that are there. -/
abbrev Graph (β : Type u) := NodeId → Option (β × List Slot)

/-- A node that is there has another in its row. -/
def Graph.Edge (g : Graph β) (a b : NodeId) : Prop :=
  ∃ l slots, g a = some (l, slots) ∧ some b ∈ slots

mutual

/-- A node with all that is below it, as a tree. -/
inductive Unfolds (g : Graph β) : NodeId → Tree β → Prop where
  | node {id : NodeId} {b : β} {slots : List Slot} {row : Row β} (hnode : g id = some (b, slots))
      (hrow : UnfoldsRow g slots row) : Unfolds g id (.node b row)

/-- Slots with all that is below them, as a row. -/
inductive UnfoldsRow (g : Graph β) : List Slot → Row β → Prop where
  | nil : UnfoldsRow g [] []
  | hole {slots : List Slot} {row : Row β} (hrest : UnfoldsRow g slots row) :
      UnfoldsRow g (none :: slots) (none :: row)
  | tree {id : NodeId} {t : Tree β} {slots : List Slot} {row : Row β} (ht : Unfolds g id t)
      (hrest : UnfoldsRow g slots row) : UnfoldsRow g (some id :: slots) (some t :: row)

end

variable {g k : Graph β}

/-! ## One tree at most -/

mutual

theorem Unfolds.unique {id : NodeId} {t t' : Tree β} (ht : Unfolds g id t)
    (ht' : Unfolds g id t') : t = t' := by
  cases ht with
  | node hnode hrow =>
      cases ht' with
      | node hnode' hrow' =>
          obtain ⟨rfl, rfl⟩ := Prod.mk.inj (Option.some.inj (hnode.symm.trans hnode'))
          rw [hrow.unique hrow']

theorem UnfoldsRow.unique {slots : List Slot} {row row' : Row β} (hrow : UnfoldsRow g slots row)
    (hrow' : UnfoldsRow g slots row') : row = row' := by
  cases hrow with
  | nil =>
      cases hrow'
      rfl
  | hole hrest =>
      cases hrow' with
      | hole hrest' => rw [hrest.unique hrest']
  | tree ht hrest =>
      cases hrow' with
      | tree ht' hrest' => rw [ht.unique ht', hrest.unique hrest']

end

/-! ## Other graphs -/

mutual

/-- A graph that agrees on a closed set of nodes unfolds them alike. -/
theorem Unfolds.transport {P : NodeId → Prop} (hagree : ∀ a, P a → k a = g a)
    (hclosed : ∀ a b, P a → g.Edge a b → P b)
    {id : NodeId} {t : Tree β} (ht : Unfolds g id t) (hid : P id) : Unfolds k id t := by
  cases ht with
  | node hnode hrow =>
      refine .node ((hagree id hid).trans hnode) (hrow.transport hagree hclosed fun b hb => ?_)
      exact hclosed id b hid ⟨_, _, hnode, hb⟩

theorem UnfoldsRow.transport {P : NodeId → Prop} (hagree : ∀ a, P a → k a = g a)
    (hclosed : ∀ a b, P a → g.Edge a b → P b)
    {slots : List Slot} {row : Row β} (hrow : UnfoldsRow g slots row)
    (hslots : ∀ b, some b ∈ slots → P b) : UnfoldsRow k slots row := by
  cases hrow with
  | nil => exact .nil
  | hole hrest =>
      exact .hole (hrest.transport hagree hclosed fun b hb => hslots b (List.mem_cons_of_mem _ hb))
  | tree ht hrest =>
      refine .tree (ht.transport hagree hclosed (hslots _ List.mem_cons_self)) ?_
      exact hrest.transport hagree hclosed fun b hb => hslots b (List.mem_cons_of_mem _ hb)

end

/-- The graph with other labels. -/
def Graph.map (f : β → γ) (g : Graph β) : Graph γ := fun id => (g id).map (Prod.map f fun s => s)

mutual

theorem Unfolds.map (f : β → γ) {id : NodeId} {t : Tree β} (ht : Unfolds g id t) :
    Unfolds (g.map f) id (t.map f) := by
  cases ht with
  | node hnode hrow => exact .node (by rw [Graph.map, hnode]; rfl) (hrow.map f)

theorem UnfoldsRow.map (f : β → γ) {slots : List Slot} {row : Row β}
    (hrow : UnfoldsRow g slots row) : UnfoldsRow (g.map f) slots (Tree.mapRow f row) := by
  cases hrow with
  | nil => exact .nil
  | hole hrest => exact .hole (hrest.map f)
  | tree ht hrest => exact .tree (ht.map f) (hrest.map f)

end

/-! ## Parts of a row -/

theorem UnfoldsRow.append {slots others : List Slot} {row more : Row β}
    (hrow : UnfoldsRow g slots row) (hmore : UnfoldsRow g others more) :
    UnfoldsRow g (slots ++ others) (row ++ more) := by
  induction slots generalizing row with
  | nil =>
      cases hrow
      exact hmore
  | cons s slots ih =>
      cases hrow with
      | hole hrest => exact .hole (ih hrest)
      | tree ht hrest => exact .tree ht (ih hrest)

theorem UnfoldsRow.of_cons {s : Slot} {slots : List Slot} {row : Row β}
    (hrow : UnfoldsRow g (s :: slots) row) :
    ∃ first rest, row = first :: rest ∧ UnfoldsRow g [s] [first] ∧ UnfoldsRow g slots rest := by
  cases hrow with
  | hole hrest => exact ⟨none, _, rfl, .hole .nil, hrest⟩
  | tree ht hrest => exact ⟨some _, _, rfl, .tree ht .nil, hrest⟩

theorem UnfoldsRow.of_append {slots others : List Slot} {row : Row β}
    (hrow : UnfoldsRow g (slots ++ others) row) :
    ∃ front back, row = front ++ back ∧ UnfoldsRow g slots front ∧ UnfoldsRow g others back := by
  induction slots generalizing row with
  | nil => exact ⟨[], row, rfl, .nil, hrow⟩
  | cons s slots ih =>
      cases hrow with
      | hole hrest =>
          obtain ⟨front, back, rfl, hfront, hback⟩ := ih hrest
          exact ⟨none :: front, back, rfl, .hole hfront, hback⟩
      | tree ht hrest =>
          obtain ⟨front, back, rfl, hfront, hback⟩ := ih hrest
          exact ⟨some _ :: front, back, rfl, .tree ht hfront, hback⟩

theorem UnfoldsRow.length_eq {slots : List Slot} {row : Row β} (hrow : UnfoldsRow g slots row) :
    row.length = slots.length := by
  induction slots generalizing row with
  | nil =>
      cases hrow
      rfl
  | cons s slots ih =>
      cases hrow with
      | hole hrest => exact congrArg Nat.succ (ih hrest)
      | tree _ hrest => exact congrArg Nat.succ (ih hrest)

theorem UnfoldsRow.exists_of_mem {slots : List Slot} {row : Row β} (hrow : UnfoldsRow g slots row)
    {id : NodeId} (hid : some id ∈ slots) : ∃ t, some t ∈ row ∧ Unfolds g id t := by
  induction slots generalizing row with
  | nil => simp at hid
  | cons s slots ih =>
      cases hrow with
      | hole hrest =>
          obtain ⟨t, hmem, ht⟩ := ih hrest (by simpa using hid)
          exact ⟨t, List.mem_cons_of_mem _ hmem, ht⟩
      | tree ht hrest =>
          rcases List.mem_cons.1 hid with hhead | hmem
          · obtain rfl := Option.some.inj hhead
            exact ⟨_, List.mem_cons_self, ht⟩
          · obtain ⟨t, hmem, ht⟩ := ih hrest hmem
            exact ⟨t, List.mem_cons_of_mem _ hmem, ht⟩

/-! ## The nodes of an unfolding -/

mutual

/-- What holds of the root and passes on to all that is below holds of the node of each subtree. -/
theorem Unfolds.forall_preorder {P : NodeId → Prop}
    (hclosed : ∀ a b, P a → g.Edge a b → P b) {id : NodeId} {t : Tree β} (ht : Unfolds g id t)
    (hid : P id) : ∀ s ∈ t.preorder, ∃ a slots, P a ∧ g a = some (s.value, slots) := by
  cases ht with
  | node hnode hrow =>
      intro s hs
      rcases List.mem_cons.1 hs with rfl | hs
      · exact ⟨id, _, hid, hnode⟩
      · exact hrow.forall_preorder hclosed (fun b hb => hclosed id b hid ⟨_, _, hnode, hb⟩) s hs

theorem UnfoldsRow.forall_preorder {P : NodeId → Prop}
    (hclosed : ∀ a b, P a → g.Edge a b → P b) {slots : List Slot} {row : Row β}
    (hrow : UnfoldsRow g slots row) (hslots : ∀ b, some b ∈ slots → P b) :
    ∀ s ∈ Tree.rowPreorder row, ∃ a slots, P a ∧ g a = some (s.value, slots) := by
  cases hrow with
  | nil => simp [Tree.rowPreorder]
  | hole hrest =>
      exact hrest.forall_preorder hclosed fun b hb => hslots b (List.mem_cons_of_mem _ hb)
  | tree ht hrest =>
      intro s hs
      rcases List.mem_append.1 hs with hs | hs
      · exact ht.forall_preorder hclosed (hslots _ List.mem_cons_self) s hs
      · refine hrest.forall_preorder hclosed (fun b hb => ?_) s hs
        exact hslots b (List.mem_cons_of_mem _ hb)

end

theorem Unfolds.exists_node {id : NodeId} {t : Tree β} (ht : Unfolds g id t) {s : Tree β}
    (hs : s ∈ t.preorder) : ∃ a slots, g a = some (s.value, slots) := by
  obtain ⟨a, slots, -, hnode⟩ := ht.forall_preorder (P := fun _ => True)
    (fun _ _ _ _ => trivial) trivial s hs
  exact ⟨a, slots, hnode⟩

/-- Each node to which a path leads has a subtree. -/
theorem Unfolds.exists_preorder {id other : NodeId} {t : Tree β} (ht : Unfolds g id t)
    (hpath : Relation.ReflTransGen g.Edge id other) :
    ∃ s ∈ t.preorder, ∃ slots, g other = some (s.value, slots) := by
  induction hpath using Relation.ReflTransGen.head_induction_on generalizing t with
  | refl =>
      cases ht with
      | node hnode _ => exact ⟨_, Tree.mem_preorder_self _, _, hnode⟩
  | head hedge _ ih =>
      obtain ⟨l, slots, hnode, hb⟩ := hedge
      cases ht with
      | node hnode' hrow =>
          obtain ⟨rfl, rfl⟩ := Prod.mk.inj (Option.some.inj (hnode.symm.trans hnode'))
          obtain ⟨child, hchild, ht⟩ := hrow.exists_of_mem hb
          obtain ⟨s, hs, hother⟩ := ih ht
          refine ⟨s, ?_, hother⟩
          exact List.mem_cons_of_mem _ (Tree.preorder_subset_rowPreorder hchild hs)

/-! ## Views -/

namespace Heap

variable {α : Type u} {h : Heap α} {holders : List NodeId}

/-- What is seen of the nodes of a heap. -/
def located (h : Heap α) : Graph (Located α) := fun id =>
  (h.get? id).map fun n => (⟨id, n.count, n.value⟩, n.slots)

/-- What is seen of the nodes of a heap, but not how many handles they have. -/
def named (h : Heap α) : Graph (NodeId × α) := fun id =>
  (h.content? id).map (Prod.map (fun a => (id, a)) fun s => s)

theorem located_eq {id : NodeId} {n : Node α} (hn : h.get? id = some n) :
    h.located id = some (⟨id, n.count, n.value⟩, n.slots) := by
  rw [located, hn]
  rfl

theorem located_setSlots_self {id : NodeId} {l : Located α} {old : List Slot}
    (hid : h.located id = some (l, old)) (slots : List Slot) :
    (h.setSlots id slots).located id = some (l, slots) := by
  obtain ⟨n, hn, hpair⟩ := Option.map_eq_some_iff.1 hid
  obtain ⟨rfl, rfl⟩ := Prod.mk.inj hpair
  simp [located, get?_setSlots, hn]

theorem located_setSlots_other {id other : NodeId} (hother : other ≠ id) (slots : List Slot) :
    (h.setSlots id slots).located other = h.located other := by
  simp [located, get?_setSlots, hother]

/-- A node unfolds by its slots. -/
theorem unfolds_located_iff {id : NodeId} {t : Tree (Located α)} :
    Unfolds h.located id t ↔ ∃ n row, h.get? id = some n ∧
      UnfoldsRow h.located n.slots row ∧ t = .node ⟨id, n.count, n.value⟩ row := by
  constructor
  · rintro ⟨hnode, hrow⟩
    obtain ⟨n, hn, hpair⟩ := Option.map_eq_some_iff.1 hnode
    obtain ⟨rfl, rfl⟩ := Prod.mk.inj hpair
    exact ⟨n, _, hn, hrow, rfl⟩
  · rintro ⟨n, row, hn, hrow, rfl⟩
    exact .node (located_eq hn) hrow

theorem slotsOf_of_located {id : NodeId} {l : Located α} {slots : List Slot}
    (hid : h.located id = some (l, slots)) : h.slotsOf id = slots := by
  obtain ⟨n, hn, hpair⟩ := Option.map_eq_some_iff.1 hid
  obtain ⟨-, rfl⟩ := Prod.mk.inj hpair
  exact slotsOf_eq hn

theorem countOf_of_located {id : NodeId} {l : Located α} {slots : List Slot}
    (hid : h.located id = some (l, slots)) : h.countOf l.id = l.count := by
  obtain ⟨n, hn, hpair⟩ := Option.map_eq_some_iff.1 hid
  obtain ⟨rfl, -⟩ := Prod.mk.inj hpair
  exact countOf_eq hn

theorem map_located (h : Heap α) : h.located.map (fun l => (l.id, l.value)) = h.named := by
  funext id
  simp [Graph.map, located, named, content?, Function.comp_def]

@[simp] theorem edge_located {a b : NodeId} : h.located.Edge a b ↔ h.Edge a b := by
  constructor
  · rintro ⟨l, slots, ha, hb⟩
    rwa [Edge, slotsOf_of_located ha]
  · intro hedge
    obtain ⟨n, hn⟩ := live_iff.1 hedge.live
    exact ⟨_, _, located_eq hn, (edge_of_get? hn).1 hedge⟩

@[simp] theorem edge_named {a b : NodeId} : h.named.Edge a b ↔ h.Edge a b := by
  rw [← edge_located, ← map_located]
  constructor
  · rintro ⟨l, slots, ha, hb⟩
    obtain ⟨⟨l, slots⟩, hl, hpair⟩ := Option.map_eq_some_iff.1 ha
    obtain ⟨-, rfl⟩ := Prod.mk.inj hpair
    exact ⟨l, slots, hl, hb⟩
  · rintro ⟨l, slots, ha, hb⟩
    exact ⟨_, slots, by rw [Graph.map, ha]; rfl, hb⟩

theorem named_eq_some {id : NodeId} {l : NodeId × α} {slots : List Slot} :
    h.named id = some (l, slots) ↔ l.1 = id ∧ h.content? id = some (l.2, slots) := by
  obtain ⟨a, v⟩ := l
  cases hcontent : h.content? id with
  | none => simp [named, hcontent]
  | some c =>
      obtain ⟨w, row⟩ := c
      simp only [named, hcontent, Option.map_some, Prod.map_apply, Option.some.injEq,
        Prod.mk.injEq]
      tauto

/-- A change of nodes to which no slot leads leaves what is below the others. -/
theorem unfoldsRow_of_unled {k : Heap α} {changed : List NodeId}
    (hagree : ∀ id, id ∉ changed → k.get? id = h.get? id)
    (hunled : ∀ id ∈ changed, ∀ a, ¬ h.Edge a id) {slots : List Slot} {row : Row (Located α)}
    (hrow : UnfoldsRow h.located slots row) (hslots : ∀ b, some b ∈ slots → b ∉ changed) :
    UnfoldsRow k.located slots row := by
  refine hrow.transport (fun id hid => ?_) (fun a b _ hedge hchanged => ?_) hslots
  · rw [located, located, hagree id hid]
  · exact hunled b hchanged a (edge_located.1 hedge)

/-- The trees found so far are unfoldings. -/
def Known (h : Heap α) (seen : Seen α) : Prop :=
  ∀ (id : NodeId) (t : Tree (Located α)), seen[id]?.join = some t → Unfolds h.located id t

theorem Known.set {seen : Seen α} (known : h.Known seen) {id : NodeId} {t : Tree (Located α)}
    (ht : Unfolds h.located id t) : h.Known (seen.setIfInBounds id (some t)) := by
  intro other t' ht'
  rw [Array.getElem?_setIfInBounds] at ht'
  split at ht'
  · next heq =>
      subst heq
      split at ht'
      · obtain rfl : t = t' := by simpa using ht'
        exact ht
      · simp at ht'
  · exact known other t' ht'

theorem unfoldRow_spec {unfold : NodeId → Seen α → Option (Tree (Located α)) × Seen α}
    {slots : List Slot} (hunfold : ∀ id, some id ∈ slots → ∀ seen, h.Known seen →
      ∃ t, (unfold id seen).1 = some t ∧ Unfolds h.located id t ∧ h.Known (unfold id seen).2)
    {seen : Seen α} (known : h.Known seen) :
    UnfoldsRow h.located slots (unfoldRow unfold slots seen).1 ∧
      h.Known (unfoldRow unfold slots seen).2 := by
  induction slots generalizing seen with
  | nil => exact ⟨.nil, known⟩
  | cons s slots ih =>
      have hrest := fun id hid => hunfold id (List.mem_cons_of_mem s hid)
      cases s with
      | none =>
          obtain ⟨hrow, hknown⟩ := ih hrest known
          exact ⟨.hole hrow, hknown⟩
      | some id =>
          obtain ⟨t, heq, ht, hafter⟩ := hunfold id List.mem_cons_self seen known
          obtain ⟨hrow, hknown⟩ := ih hrest hafter
          refine ⟨?_, hknown⟩
          change UnfoldsRow h.located (some id :: slots)
            ((unfold id seen).1 :: (unfoldRow unfold slots (unfold id seen).2).1)
          rw [heq]
          exact .tree ht hrow

/-- A depth that is at least the height suffices to unfold a node. -/
theorem unfold_spec (owned : h.Owned holders) {depth : Nat} {id : NodeId} (hid : h.Live id)
    (hdepth : h.height id ≤ depth) {seen : Seen α} (known : h.Known seen) :
    ∃ t, (h.unfold depth id seen).1 = some t ∧ Unfolds h.located id t ∧
      h.Known (h.unfold depth id seen).2 := by
  induction depth generalizing id seen with
  | zero =>
      have := hid.height_pos
      omega
  | succ depth ih =>
      obtain ⟨n, hn⟩ := live_iff.1 hid
      rw [unfold]
      cases hseen : seen[id]?.join with
      | some t => exact ⟨t, rfl, known id t hseen, known⟩
      | none =>
          have hbelow : ∀ b, some b ∈ n.slots → ∀ seen, h.Known seen →
              ∃ t, (h.unfold depth b seen).1 = some t ∧ Unfolds h.located b t ∧
                h.Known (h.unfold depth b seen).2 := by
            intro b hb seen known
            have hedge := (edge_of_get? hn).2 hb
            have hlt := owned.acyclic.height_lt hedge
            exact ih (owned.live_of_edge hedge) (by omega) known
          obtain ⟨hrow, hknown⟩ := unfoldRow_spec hbelow known
          have ht : Unfolds h.located id
              (.node ⟨id, n.count, n.value⟩ (unfoldRow (h.unfold depth) n.slots seen).1) :=
            .node (located_eq hn) hrow
          simp only [hn]
          exact ⟨_, rfl, ht, hknown.set ht⟩

/-- In an owned heap the view of a live node is its unfolding. -/
theorem Owned.view_eq (owned : h.Owned holders) {id : NodeId} (hid : h.Live id) :
    ∃ t, h.view id = some t ∧ Unfolds h.located id t := by
  have hnone : h.Known (Array.replicate h.cells.size none) := by
    intro other t ht
    rw [Array.getElem?_replicate] at ht
    split at ht <;> simp at ht
  obtain ⟨t, heq, ht, -⟩ := unfold_spec owned hid (height_le_size h id) hnone
  exact ⟨t, heq, ht⟩

end Heap

end SlotTree
