import SlotTree.Proofs.Drain.Pass
import SlotTree.Proofs.Heap.Unfolding

/-! # The chain of last slots

The cursor of a drain is reached from the root by last slots, each with the only handle to its node.
So no other way leads from the root to the cursor, and a pop takes off the last place of the tree of
the root, and leaves all places before it.
-/

namespace SlotTree

universe u

/-- The labels of the nodes below the root, in pre-order. -/
def Tree.descendants {β : Type u} (t : Tree β) : List β := (Tree.rowPreorder t.slots).map Tree.value

namespace Heap

variable {α : Type u} {h k : Heap α} {holders : List NodeId} {root : NodeId}

open List Relation

/-- A node has its only handle in the last slot of another. -/
structure LastChild (h : Heap α) (a b : NodeId) : Prop where
  last : (h.slotsOf a).getLast? = some (some b)
  sole : h.countOf b = 1

/-- Last slots lead down from one node to another. -/
def Spine (h : Heap α) : NodeId → NodeId → Prop := ReflTransGen h.LastChild

namespace LastChild

variable {a b c : NodeId}

theorem edge (hlast : h.LastChild a b) : h.Edge a b := List.mem_of_getLast? hlast.last

theorem row (hlast : h.LastChild a b) (owned : h.Owned holders) :
    ∃ front, h.slotsOf a = front ++ [some b] ∧ some b ∉ front := by
  obtain ⟨front, hrow⟩ := List.getLast?_eq_some_iff.1 hlast.last
  refine ⟨front, hrow, fun hmem => ?_⟩
  have hfront := List.count_pos_iff.2 hmem
  have hslots := count_le_handlesTo h a b
  have hcounted := owned.counted b
  have hsole := hlast.sole
  rw [hrow, List.count_append, List.count_singleton_self] at hslots
  omega

end LastChild

theorem Spine.reaches {a c : NodeId} (hspine : h.Spine a c) : h.Reaches a c :=
  ReflTransGen.mono (fun _ _ hlast => hlast.edge) _ _ hspine

/-- From the other slots of a node no way leads to the chain below its last slot. -/
theorem LastChild.apart {a b c y : NodeId} (hlast : h.LastChild a b) (owned : h.Owned holders)
    (hspine : h.Spine b c) (hedge : h.Edge a y) (hne : y ≠ b) : ¬ h.Reaches y c := by
  have hback : ¬ h.Reaches y a := owned.acyclic.not_reaches hedge
  induction hspine with
  | refl =>
      intro hpath
      cases hpath with
      | refl => exact hne rfl
      | tail hpath hin =>
          obtain rfl := (owned.of_edge_sole hlast.edge hlast.sole).2 _ hin
          exact hback hpath
  | @tail c d hspine hcd ih =>
      have honly := (owned.of_edge_sole hcd.edge hcd.sole).2
      intro hpath
      cases hpath with
      | refl =>
          obtain rfl := honly a hedge
          exact owned.acyclic.not_reaches hlast.edge (Spine.reaches hspine)
      | tail hpath hin =>
          obtain rfl := honly _ hin
          exact ih hpath

/-- What is found on the chain below the root is behind the root. -/
theorem Spine.behind {cursor : NodeId} (hspine : h.Spine root cursor) (owned : h.Owned holders) :
    h.Behind holders root cursor := by
  induction hspine with
  | refl => exact .inl rfl
  | tail _ hlast ih => exact ih.descend owned hlast.edge hlast.sole

/-! ## Places before the last one -/

theorem named_congr {id : NodeId} (hid : k.content? id = h.content? id) :
    k.named id = h.named id := by
  rw [named, named, hid]

theorem live_of_named {id : NodeId} {t : Tree (NodeId × α)} (ht : Unfolds h.named id t) :
    h.Live id := by
  cases ht with
  | node hnode _ =>
      rw [live_iff_content?, (named_eq_some.1 hnode).2]
      rfl

theorem live_of_descendant {t : Tree (NodeId × α)} (ht : Unfolds h.named root t) {x : NodeId × α}
    (hx : x ∈ t.descendants) : h.Live x.1 := by
  obtain ⟨s, hs, rfl⟩ := List.mem_map.1 hx
  have hs : s ∈ t.preorder := by
    rw [Tree.preorder_eq]
    exact List.mem_cons_of_mem _ hs
  obtain ⟨a, slots, hnode⟩ := ht.exists_node hs
  obtain ⟨rfl, hcontent⟩ := named_eq_some.1 hnode
  rw [live_iff_content?, hcontent]
  rfl

/-- Below a node without slots there is nothing. -/
theorem descendants_of_bare {t : Tree (NodeId × α)} (ht : Unfolds h.named root t)
    (hbare : h.slotsOf root = []) : t.descendants = [] := by
  cases ht with
  | node hnode hrow =>
      rw [slotsOf_eq_content?, (named_eq_some.1 hnode).2] at hbare
      obtain rfl := hbare
      cases hrow
      rfl

namespace Pop

variable {p : Pop α}

theorem countOf_of_shallow (shallow : p.Shallow) {id : NodeId} (hslot : p.slot ≠ some id) :
    p.result.1.countOf id = p.heap.countOf id := by
  cases shallow with
  | hole _ hresult => rw [hresult, countOf_setSlots]
  | shared other n hother hn _ hresult =>
      have hne : id ≠ other := fun heq => hslot (heq ▸ hother)
      rw [hresult, countOf_setSlots, countOf_recount hn, if_neg hne]
  | bare other n hother hn _ _ hresult =>
      have hne : id ≠ other := fun heq => hslot (heq ▸ hother)
      rw [hresult, countOf_setSlots, countOf_free, if_neg hne]

/-- A pop keeps the content of all nodes but the cursor and the node it frees. -/
theorem content?_of_shallow (shallow : p.Shallow) {id : NodeId} (hcursor : id ≠ p.cursor)
    (hslot : p.slot = some id → p.heap.countOf id ≠ 1) :
    p.result.1.content? id = p.heap.content? id := by
  cases shallow with
  | hole _ hresult => rw [hresult, content?_setSlots_other _ hcursor]
  | shared other n _ hn _ hresult =>
      rw [hresult, content?_setSlots_other _ hcursor, content?_recount hn]
  | bare other n hother hn hcount _ hresult =>
      have hne : id ≠ other := by
        rintro rfl
        exact hslot hother (by rw [countOf_eq hn, hcount])
      rw [hresult, content?_setSlots_other _ hcursor, content?_free_other hne]

/-- What does not reach the cursor is seen as before, and so is all below it. -/
theorem unfoldsRow_result (owned : p.heap.Owned holders) (shallow : p.Shallow)
    (hlast : (p.heap.slotsOf p.cursor).getLast? = some p.slot) {slots : List Slot}
    {row : Row (NodeId × α)} (hrow : UnfoldsRow p.heap.named slots row)
    (hslots : ∀ b, some b ∈ slots → ¬ p.heap.Reaches b p.cursor ∧
      p.result.1.content? b = p.heap.content? b) :
    UnfoldsRow p.result.1.named slots row := by
  refine hrow.transport (fun a ha => named_congr ha.2) (fun a b ha hedge => ?_) hslots
  rw [edge_named] at hedge
  have hb : ¬ p.heap.Reaches b p.cursor := fun hpath => ha.1 (ReflTransGen.head hedge hpath)
  refine ⟨hb, content?_of_shallow shallow ?_ fun hslot hone => ?_⟩
  · rintro rfl
    exact hb .refl
  · have hcursor : p.heap.Edge p.cursor b := List.mem_of_getLast? (hslot ▸ hlast)
    obtain rfl := (owned.of_edge_sole hcursor hone).2 a hedge
    exact ha.1 .refl

theorem content?_cursor (owned : p.heap.Owned holders) (shallow : p.Shallow)
    (hlast : (p.heap.slotsOf p.cursor).getLast? = some p.slot) :
    p.result.1.content? p.cursor = (p.heap.content? p.cursor).map fun c => (c.1, p.rest) := by
  cases shallow with
  | hole _ hresult => rw [hresult, content?_setSlots, if_pos rfl]
  | shared id n _ hn _ hresult =>
      rw [hresult, content?_setSlots, if_pos rfl, content?_recount hn]
  | bare id n hid hn _ _ hresult =>
      have hne : p.cursor ≠ id := by
        rintro rfl
        exact owned.not_mem_slotsOf_self p.cursor (List.mem_of_getLast? (hid ▸ hlast))
      rw [hresult, content?_setSlots, if_pos rfl, content?_free_other hne]

end Pop

section Result

variable {p : Pop α} (owned : p.heap.Owned holders) (shallow : p.Shallow)
  (hlast : (p.heap.slotsOf p.cursor).getLast? = some p.slot)

include owned hlast

/-- A pop at the end of the chain takes no node of the chain off. -/
theorem LastChild.above {a b : NodeId} (hab : p.heap.LastChild a b)
    (hspine : p.heap.Spine b p.cursor) :
    a ≠ p.cursor ∧ p.slot ≠ some a ∧ p.slot ≠ some b := by
  have ha : a ≠ p.cursor := by
    rintro rfl
    exact owned.acyclic.not_reaches hab.edge hspine.reaches
  have hslot : ∀ id, p.slot = some id → p.heap.Edge p.cursor id := fun id hid =>
    List.mem_of_getLast? (hid ▸ hlast)
  refine ⟨ha, fun hself => ?_, fun hnext => ?_⟩
  · exact owned.acyclic.not_reaches (hslot a hself) (ReflTransGen.head hab.edge hspine.reaches)
  · exact ha ((owned.of_edge_sole hab.edge hab.sole).2 _ (hslot b hnext)).symm

include shallow

/-- The chain down to the cursor is there after a pop. -/
theorem Spine.result (hspine : p.heap.Spine root p.cursor) :
    p.result.1.Spine root p.cursor := by
  induction hspine using ReflTransGen.head_induction_on with
  | refl => exact .refl
  | @head a b hab hrest ih =>
      obtain ⟨ha, hself, hnext⟩ := hab.above owned hlast hrest
      have hcontent := Pop.content?_of_shallow shallow ha fun h => absurd h hself
      refine ReflTransGen.head ⟨?_, ?_⟩ ih
      · rw [slotsOf_congr hcontent, hab.last]
      · rw [Pop.countOf_of_shallow shallow hnext, hab.sole]

/-- The row that is left to the cursor unfolds as before. -/
theorem Pop.unfolds_cursor {t : Tree (NodeId × α)} (ht : Unfolds p.heap.named p.cursor t) :
    ∃ l front s, t = .node l (front ++ [s]) ∧ Unfolds p.result.1.named p.cursor (.node l front) ∧
      UnfoldsRow p.heap.named [p.slot] [s] := by
  cases ht with
  | @node _ l slots row hnode hrow =>
      obtain ⟨hl, hcontent⟩ := named_eq_some.1 hnode
      have hslots : p.heap.slotsOf p.cursor = slots := by simp [slotsOf_eq_content?, hcontent]
      rw [← hslots, slotsOf_cursor hlast] at hrow
      obtain ⟨front, back, rfl, hfront, hback⟩ := hrow.of_append
      obtain ⟨s, rest, rfl, hs, hnil⟩ := hback.of_cons
      cases hnil
      have hnode' : p.result.1.named p.cursor = some (l, p.rest) := by
        rw [named_eq_some, content?_cursor owned shallow hlast, hcontent]
        exact ⟨hl, rfl⟩
      refine ⟨l, front, s, rfl, .node hnode' ?_, hs⟩
      refine unfoldsRow_result owned shallow hlast hfront fun b hb => ?_
      have hback := owned.acyclic.not_reaches (List.dropLast_subset _ hb)
      refine ⟨hback, content?_of_shallow shallow ?_ fun hslot hone => ?_⟩
      · rintro rfl
        exact hback .refl
      · obtain ⟨others, hothers, hfresh⟩ := LastChild.row ⟨hslot ▸ hlast, hone⟩ owned
        rw [rest, hothers, List.dropLast_concat] at hb
        exact hfresh hb

/-- A pop takes the last place off the tree of the root, with all that is below it. -/
theorem Spine.unfolds_result (hspine : p.heap.Spine root p.cursor) {t : Tree (NodeId × α)}
    (ht : Unfolds p.heap.named root t) :
    ∃ t' s, Unfolds p.result.1.named root t' ∧ UnfoldsRow p.heap.named [p.slot] [s] ∧
      t'.value = t.value ∧
      t.descendants = t'.descendants ++ (Tree.rowPreorder [s]).map Tree.value := by
  induction hspine using ReflTransGen.head_induction_on generalizing t with
  | refl =>
      obtain ⟨l, front, s, rfl, ht', hs⟩ := Pop.unfolds_cursor owned shallow hlast ht
      refine ⟨_, s, ht', hs, rfl, ?_⟩
      simp [Tree.descendants, Tree.rowPreorder_append]
  | @head a b hab hrest ih =>
      obtain ⟨ha, hself, -⟩ := hab.above owned hlast hrest
      obtain ⟨front, hrow_a, hfresh⟩ := hab.row owned
      cases ht with
      | @node _ l slots row hnode hrow =>
          have hnode' : p.result.1.named a = some (l, slots) := by
            rw [named_congr (Pop.content?_of_shallow shallow ha fun h => absurd h hself), hnode]
          have hslots : p.heap.slotsOf a = slots := by
            simp [slotsOf_eq_content?, (named_eq_some.1 hnode).2]
          rw [← hslots, hrow_a] at hrow
          obtain ⟨before, back, rfl, hbefore, hback⟩ := hrow.of_append
          cases hback with
          | tree htb hnil =>
              cases hnil
              obtain ⟨tb', s, htb', hs, hvalue, hdescendants⟩ := ih htb
              have hbefore' : UnfoldsRow p.result.1.named front before := by
                refine Pop.unfoldsRow_result owned shallow hlast hbefore fun y hy => ?_
                have hedge : p.heap.Edge a y := by
                  rw [Edge, hrow_a]
                  exact List.mem_append_left _ hy
                have hapart : ¬ p.heap.Reaches y p.cursor :=
                  hab.apart owned hrest hedge fun heq => hfresh (heq ▸ hy)
                refine ⟨hapart, Pop.content?_of_shallow shallow ?_ fun hslot hone => ?_⟩
                · rintro rfl
                  exact hapart .refl
                · have hcursor : p.heap.Edge p.cursor y := List.mem_of_getLast? (hslot ▸ hlast)
                  exact ha ((owned.of_edge_sole hcursor hone).2 a hedge)
              refine ⟨.node l (before ++ [some tb']), s, .node hnode' ?_, hs, rfl, ?_⟩
              · rw [← hslots, hrow_a]
                exact hbefore'.append (.tree htb' .nil)
              · simp only [Tree.descendants] at hdescendants
                simp [Tree.descendants, Tree.rowPreorder_append, Tree.rowPreorder,
                  Tree.preorder_eq, hvalue, hdescendants]

end Result

end Heap

end SlotTree
