import SlotTree.Proofs.Drain.Spine
import SlotTree.Proofs.Teardown

/-! # The order of a drain

Of the nodes below the root those die that no holder reaches past it. A pop takes the last place off
the tree of the root. The node in this place dies if it was the last handle, so if the node stands
at no other place: each node dies at its first place in pre-order, and the last of them dies first.
-/

namespace SlotTree

universe u v w

/-! ## First places -/

section FirstOfEach

variable {β : Type u} {γ : Type v} {κ : Type w} [DecidableEq κ]

/-- The elements whose key does not come before. -/
def firstOfEach (key : β → κ) : List β → List β
  | [] => []
  | b :: rest => b :: (firstOfEach key rest).filter fun c => key c ≠ key b

theorem firstOfEach_append (key : β → κ) (xs ys : List β) :
    firstOfEach key (xs ++ ys) =
      firstOfEach key xs ++ (firstOfEach key ys).filter fun c => key c ∉ xs.map key := by
  induction xs with
  | nil => simp [firstOfEach]
  | cons x xs ih =>
      simp [firstOfEach, ih, List.filter_append, List.filter_filter]

theorem firstOfEach_map (key : γ → κ) (f : β → γ) (xs : List β) :
    firstOfEach key (xs.map f) = (firstOfEach (fun b => key (f b)) xs).map f := by
  induction xs with
  | nil => rfl
  | cons x xs ih => simp [firstOfEach, ih, List.filter_map, Function.comp_def]

theorem firstOfEach_subset (key : β → κ) (xs : List β) : firstOfEach key xs ⊆ xs := by
  induction xs with
  | nil => exact List.Subset.refl _
  | cons x xs ih =>
      exact List.cons_subset_cons x (List.Subset.trans List.filter_sublist.subset ih)

theorem map_firstOfEach_cons (key : β → κ) (x : β) (xs : List β) :
    (firstOfEach key (x :: xs)).map key =
      key x :: ((firstOfEach key xs).map key).filter fun c => c ≠ key x := by
  rw [firstOfEach, List.map_cons, List.filter_map]
  rfl

theorem mem_map_firstOfEach (key : β → κ) (xs : List β) {c : κ} :
    c ∈ (firstOfEach key xs).map key ↔ c ∈ xs.map key := by
  induction xs with
  | nil => rfl
  | cons x xs ih =>
      rw [map_firstOfEach_cons, List.map_cons, List.mem_cons, List.mem_cons, List.mem_filter, ih]
      by_cases hc : c = key x <;> simp [hc]

theorem nodup_map_firstOfEach (key : β → κ) (xs : List β) :
    ((firstOfEach key xs).map key).Nodup := by
  induction xs with
  | nil => exact List.nodup_nil
  | cons x xs ih =>
      rw [map_firstOfEach_cons, List.nodup_cons]
      exact ⟨by simp, ih.filter _⟩

end FirstOfEach

namespace Heap

variable {α : Type u} {h k l : Heap α} {holders : List NodeId} {root cursor : NodeId}
  {freed later : List α} {t t' t'' : Tree (NodeId × α)}

open List Relation

/-! ## What dies -/

/-- Handles lead to a node from one of the holders, and not by way of the root. -/
def ReachedPast (h : Heap α) (holders : List NodeId) (root id : NodeId) : Prop :=
  ∃ a ∈ holders, ReflTransGen (fun x y => x ≠ root ∧ h.Edge x y) a id

theorem reachedPast_iff {id : NodeId} :
    h.ReachedPast holders root id ↔ (h.setSlots root []).Reached holders id := by
  have hedge : (h.setSlots root []).Edge = fun x y => x ≠ root ∧ h.Edge x y := by
    funext x y
    exact propext edge_setSlots_nil
  rw [ReachedPast, Reached, Reaches, hedge]

/-- What is reached is reached past the root or from it. -/
theorem Reached.past_or {id : NodeId} (hid : h.Reached holders id) :
    h.ReachedPast holders root id ∨ h.Reaches root id := by
  induction hid using Reached.rec_on with
  | held a ha => exact .inl ⟨a, ha, .refl⟩
  | edge a b _ hedge ih =>
      by_cases ha : a = root
      · exact .inr (.single (ha ▸ hedge))
      · rcases ih with ⟨c, hc, hpath⟩ | hpath
        · exact .inl ⟨c, hc, hpath.tail ⟨ha, hedge⟩⟩
        · exact .inr (hpath.tail hedge)

open Classical in
/-- The first places of the nodes that no holder reaches past the root. -/
noncomputable def dying (h : Heap α) (holders : List NodeId) (root : NodeId)
    (places : List (NodeId × α)) : List (NodeId × α) :=
  (firstOfEach Prod.fst places).filter fun x => ¬ h.ReachedPast holders root x.1

theorem dying_append (places more : List (NodeId × α)) :
    h.dying holders root (places ++ more) = h.dying holders root places ++
      (h.dying holders root more).filter fun x => x.1 ∉ places.map Prod.fst := by
  simp [dying, firstOfEach_append, List.filter_append, List.filter_filter, Bool.and_comm]

/-- Further places do not matter if their nodes live on or have a place before. -/
theorem dying_append_of_covered {places more : List (NodeId × α)}
    (hmore : ∀ x ∈ more, x.1 ∈ places.map Prod.fst ∨ h.ReachedPast holders root x.1) :
    h.dying holders root (places ++ more) = h.dying holders root places := by
  classical
  have hnone : (h.dying holders root more).filter (fun x => x.1 ∉ places.map Prod.fst) = [] := by
    rw [List.filter_eq_nil_iff]
    intro x hx
    have hx := List.mem_filter.1 hx
    have hpast : ¬ h.ReachedPast holders root x.1 := by simpa using hx.2
    simpa using (hmore x (firstOfEach_subset _ _ hx.1)).resolve_right hpast
  rw [dying_append, hnone, List.append_nil]

/-- A further place of a node that is not reached past the root, and has no place before, counts. -/
theorem dying_concat {places : List (NodeId × α)} {x : NodeId × α}
    (hfresh : x.1 ∉ places.map Prod.fst) (hpast : ¬ h.ReachedPast holders root x.1) :
    h.dying holders root (places ++ [x]) = h.dying holders root places ++ [x] := by
  classical
  have hsole : h.dying holders root [x] = [x] := by simp [dying, firstOfEach, hpast]
  rw [dying_append, hsole, List.filter_singleton]
  simp [hfresh]

theorem dying_congr {places : List (NodeId × α)}
    (hpast : ∀ id, k.ReachedPast holders root id ↔ h.ReachedPast holders root id) :
    k.dying holders root places = h.dying holders root places := by
  have hsame : k.ReachedPast holders root = h.ReachedPast holders root := by
    funext id
    exact propext (hpast id)
  rw [dying, dying, hsame]

/-- Other live nodes than the root stand below it, or are reached past it. -/
theorem Owned.descendant_or_past (owned : h.Owned holders) (ht : Unfolds h.named root t)
    {id : NodeId} (hid : h.Live id) (hne : id ≠ root) :
    id ∈ t.descendants.map Prod.fst ∨ h.ReachedPast holders root id := by
  rcases (owned.reached_of_live hid).past_or with hpast | hpath
  · exact .inr hpast
  · obtain ⟨s, hs, slots, hnode⟩ := ht.exists_preorder
      (ReflTransGen.mono (fun _ _ hedge => edge_named.2 hedge) _ _ hpath)
    have hs_id : s.value.1 = id := (named_eq_some.1 hnode).1
    rw [Tree.preorder_eq] at hs
    rcases List.mem_cons.1 hs with rfl | hs
    · cases ht with
      | node hroot _ => exact absurd (hs_id.symm.trans (named_eq_some.1 hroot).1) hne
    · exact .inl (List.mem_map.2 ⟨s.value, List.mem_map_of_mem hs, hs_id⟩)

/-! ## One pop -/

/-- What pops do to the tree of the root: its last places go, and the nodes that die are the last
ones that will. -/
structure DrainOrder (root : NodeId) (holders : List NodeId) (h : Heap α) (t : Tree (NodeId × α))
    (freed : List α) (k : Heap α) (t' : Tree (NodeId × α)) : Prop where
  unfolds : Unfolds k.named root t'
  dying_eq : (h.dying holders root t.descendants).map Prod.snd =
    (k.dying holders root t'.descendants).map Prod.snd ++ freed.reverse
  unshared_eq : (∀ x ∈ t.descendants, h.countOf x.1 ≤ 1) →
    t.descendants.map Prod.snd = t'.descendants.map Prod.snd ++ freed.reverse
  subset : t'.descendants ⊆ t.descendants
  count_le : ∀ id, k.countOf id ≤ h.countOf id

theorem DrainOrder.refl (ht : Unfolds h.named root t) : DrainOrder root holders h t [] h t :=
  ⟨ht, by simp, by simp, List.Subset.refl _, fun _ => le_refl _⟩

theorem DrainOrder.trans (first : DrainOrder root holders h t freed k t')
    (second : DrainOrder root holders k t' later l t'') :
    DrainOrder root holders h t (freed ++ later) l t'' := by
  refine ⟨second.unfolds, ?_, fun hunshared => ?_, List.Subset.trans second.subset first.subset,
    fun id => (second.count_le id).trans (first.count_le id)⟩
  · rw [first.dying_eq, second.dying_eq, List.reverse_append, List.append_assoc]
  · have hleft : ∀ x ∈ t'.descendants, k.countOf x.1 ≤ 1 := fun x hx =>
      (first.count_le x.1).trans (hunshared x (first.subset hx))
    rw [first.unshared_eq hunshared, second.unshared_eq hleft, List.reverse_append,
      List.append_assoc]

section Pop

variable {p : Pop α} (owned : p.heap.Owned holders)
  (hlast : (p.heap.slotsOf p.cursor).getLast? = some p.slot)
  (hspine : p.heap.Spine root p.cursor)

include owned hlast hspine

theorem Pop.reachedPast_iff (id : NodeId) :
    p.result.1.ReachedPast holders root id ↔ p.heap.ReachedPast holders root id := by
  rw [Heap.reachedPast_iff, Heap.reachedPast_iff]
  exact (Pop.unseen owned hlast (hspine.behind owned)).reached_iff id

/-- What had one of several handles to it taken off stands at another place, or is reached past the
root, and so does all below it. -/
theorem Pop.covered (shallow : p.Shallow) {id : NodeId} (hslot : p.slot = some id)
    (hmore : p.heap.countOf id ≠ 1) {s : Option (Tree (NodeId × α))}
    (hs : UnfoldsRow p.heap.named [p.slot] [s]) (ht' : Unfolds p.result.1.named root t') :
    ∀ x ∈ (Tree.rowPreorder [s]).map Tree.value,
      x.1 ∈ t'.descendants.map Prod.fst ∨ p.heap.ReachedPast holders root x.1 := by
  have hedge : p.heap.Edge p.cursor id := List.mem_of_getLast? (hslot ▸ hlast)
  have hback : ¬ p.heap.Reaches id p.cursor := owned.acyclic.not_reaches hedge
  have hs' : UnfoldsRow p.result.1.named [p.slot] [s] := by
    refine unfoldsRow_result owned shallow hlast hs fun b hb => ?_
    obtain rfl : id = b := by simpa [hslot, eq_comm] using hb
    refine ⟨hback, content?_of_shallow shallow ?_ fun _ => hmore⟩
    rintro rfl
    exact hback .refl
  have hroot : p.result.1.Reaches root p.cursor :=
    (hspine.result owned shallow hlast).reaches
  -- Below the node that was taken off no way leads back to the cursor, so none to the root.
  have hbelow := hs'.forall_preorder (P := fun y => ¬ p.result.1.Reaches y p.cursor)
    (fun a b ha hab hpath => ha (ReflTransGen.head (edge_named.1 hab) hpath)) fun b hb hpath => by
      obtain rfl : id = b := by simpa [hslot, eq_comm] using hb
      exact hback (ReflTransGen.mono (fun _ _ hedge => Pop.edge_of_result hedge) _ _ hpath)
  intro x hx
  obtain ⟨s', hs', rfl⟩ := List.mem_map.1 hx
  obtain ⟨a, slots, ha, hnode⟩ := hbelow s' hs'
  obtain ⟨rfl, hcontent⟩ := named_eq_some.1 hnode
  rw [← Pop.reachedPast_iff owned hlast hspine]
  refine (owned_result owned hlast).descendant_or_past ht' ?_ ?_
  · rw [live_iff_content?, hcontent]
    rfl
  · rintro heq
    exact ha (heq ▸ hroot)

/-- What had its only handle taken off stands at no other place and is not reached past the root. -/
theorem Pop.fresh {id : NodeId} {n : Node α} (hslot : p.slot = some id)
    (hn : p.heap.get? id = some n) (hcount : n.count = 1)
    (hresult : p.result = ((p.heap.free id).setSlots p.cursor p.rest, [n.value]))
    (ht' : Unfolds p.result.1.named root t') :
    id ∉ t'.descendants.map Prod.fst ∧ ¬ p.heap.ReachedPast holders root id := by
  have hedge : p.heap.Edge p.cursor id := List.mem_of_getLast? (hslot ▸ hlast)
  constructor
  · intro hmem
    obtain ⟨x, hx, rfl⟩ := List.mem_map.1 hmem
    have hlive := live_of_descendant ht' hx
    rw [hresult, live_setSlots, Live, get?_free_self] at hlive
    simp at hlive
  · rw [Heap.reachedPast_iff]
    rcases (hspine.behind owned).descend owned hedge (by rw [countOf_eq hn, hcount]) with hid | hid
    · subst hid
      exact absurd hspine.reaches (owned.acyclic.not_reaches hedge)
    · exact hid

/-- A pop takes off a hole, or places that do not count, or the last place that does. -/
theorem Pop.gone (shallow : p.Shallow) {s : Option (Tree (NodeId × α))}
    (hs : UnfoldsRow p.heap.named [p.slot] [s]) (ht' : Unfolds p.result.1.named root t') :
    ∃ gone : List (NodeId × α), gone.map Prod.snd = p.result.2.reverse ∧
      (∀ x ∈ gone, p.heap.slotsOf x.1 = []) ∧
      p.heap.dying holders root (t'.descendants ++ (Tree.rowPreorder [s]).map Tree.value) =
        p.heap.dying holders root t'.descendants ++ gone ∧
      ((∀ x ∈ (Tree.rowPreorder [s]).map Tree.value, p.heap.countOf x.1 ≤ 1) →
        (Tree.rowPreorder [s]).map Tree.value = gone) := by
  cases hshallow : shallow with
  | hole hslot hresult =>
      rw [hslot] at hs
      cases hs with
      | hole => exact ⟨[], by simp [hresult], by simp, by simp [Tree.rowPreorder], fun _ => rfl⟩
  | shared id n hslot hn hmore hresult =>
      have hmore : 1 < p.heap.countOf id := by rwa [countOf_eq hn]
      have hcovered := Pop.covered owned hlast hspine shallow hslot (by omega) hs ht'
      refine ⟨[], by simp [hresult], by simp, ?_, fun hunshared => ?_⟩
      · rw [dying_append_of_covered hcovered, List.append_nil]
      · rw [hslot] at hs
        cases hs with
        | @tree _ t _ _ ht hnil =>
            cases ht with
            | node hnode _ =>
                have hle := hunshared _ (List.mem_map_of_mem List.mem_cons_self)
                rw [Tree.value_node, (named_eq_some.1 hnode).1] at hle
                omega
  | bare id n hslot hn hone hbare hresult =>
      obtain ⟨hfresh, hlost⟩ := Pop.fresh owned hlast hspine hslot hn hone hresult ht'
      have hplaces : (Tree.rowPreorder [s]).map Tree.value = [(id, n.value)] := by
        have ht : Unfolds p.heap.named id (.node (id, n.value) []) :=
          .node (named_eq_some.2 ⟨rfl, by rw [content?, hn, ← hbare]; rfl⟩) .nil
        rw [hslot] at hs
        obtain rfl : s = some (.node (id, n.value) []) := by
          simpa using hs.unique (.tree ht .nil)
        rfl
      rw [hplaces]
      refine ⟨[(id, n.value)], by simp [hresult], ?_, dying_concat hfresh hlost, fun _ => rfl⟩
      simpa [slotsOf_eq hn] using hbare

theorem Pop.order (hcan : ¬ p.heap.canDescend (p.heap.slotsOf p.cursor))
    (ht : Unfolds p.heap.named root t) :
    ∃ t', DrainOrder root holders p.heap t p.result.2 p.result.1 t' := by
  have shallow := Pop.shallow owned hlast hcan
  obtain ⟨t', s, ht', hs, -, hplaces⟩ := hspine.unfolds_result owned shallow hlast ht
  obtain ⟨gone, hfreed, -, hdying, hunshared⟩ := Pop.gone owned hlast hspine shallow hs ht'
  refine ⟨t', ht', ?_, fun hcount => ?_, ?_, fun id => ?_⟩
  · rw [hplaces, hdying, dying_congr (Pop.reachedPast_iff owned hlast hspine), List.map_append,
      hfreed]
  · rw [hplaces] at hcount ⊢
    rw [hunshared fun x hx => hcount x (List.mem_append_right _ hx), List.map_append, hfreed]
  · rw [hplaces]
    exact List.subset_append_left _ _
  · simpa using (Pop.unseen owned hlast (hspine.behind owned)).count_le id

end Pop

/-! ## Passes -/

theorem PassDerivation.order {pops : List (Pop α)} (hpass : PassDerivation h cursor pops k)
    (owned : h.Owned holders) (hspine : h.Spine root cursor) (ht : Unfolds h.named root t) :
    ∃ t', DrainOrder root holders h t (freedIn pops) k t' := by
  induction hpass generalizing t with
  | done => exact ⟨t, .refl ht⟩
  | descend hcan hback _ ih =>
      obtain ⟨hlast, hexclusive, -⟩ := enter?_eq_some.1 (enter?_of_backNode? hcan hback)
      refine ih owned (hspine.tail ⟨?_, owned.isExclusive_iff.1 hexclusive⟩) ht
      exact Option.join_eq_some_iff.1 hlast
  | @pop h k cursor s pops hlast hcan _ ih =>
      obtain ⟨t', hfirst⟩ := Pop.order (p := ⟨h, cursor, s⟩) owned hlast hspine hcan ht
      have hspine' := Spine.result (p := ⟨h, cursor, s⟩) owned
        (Pop.shallow owned hlast hcan) hlast hspine
      obtain ⟨t'', hrest⟩ := ih (Pop.owned_result owned hlast) hspine' hfirst.unfolds
      exact ⟨t'', hfirst.trans hrest⟩

theorem DrainDerivation.order {passes : List (List (Pop α))}
    (hdrain : DrainDerivation root h passes k) (owned : h.Owned holders)
    (ht : Unfolds h.named root t) :
    ∃ t', DrainOrder root holders h t (passes.flatMap freedIn) k t' := by
  induction hdrain generalizing t with
  | done => exact ⟨t, .refl ht⟩
  | pass _ hpass _ ih =>
      obtain ⟨t', hfirst⟩ := hpass.order owned .refl ht
      obtain ⟨t'', hrest⟩ := ih (hpass.spec owned (.inl rfl)).owned hfirst.unfolds
      exact ⟨t'', hfirst.trans hrest⟩

/-! ## A drain -/

open Event

theorem drain_order (owned : h.Owned holders) (ht : Unfolds h.named root t) :
    releasedIn (h.drain root).2 =
        ((h.dying holders root t.descendants).map Prod.snd).reverse ∧
      ((∀ x ∈ t.descendants, h.countOf x.1 ≤ 1) →
        releasedIn (h.drain root).2 = (t.descendants.map Prod.snd).reverse) := by
  obtain ⟨passes, hdrain, hreport⟩ := drain_derivation owned (live_of_named ht)
  obtain ⟨t', horder⟩ := hdrain.order owned ht
  have hnone : t'.descendants = [] :=
    descendants_of_bare horder.unfolds (hdrain.spec owned).empty
  have hdying := horder.dying_eq
  have hunshared := horder.unshared_eq
  rw [hreport, releasedIn_reportPasses]
  rw [hnone] at hdying hunshared
  have hend : (h.drain root).1.dying holders root [] = [] := by simp [dying, firstOfEach]
  refine ⟨?_, fun hcount => ?_⟩
  · simp [hdying, hend]
  · simp [hunshared hcount]

open Classical in
/-- A drain reports the nodes below the root in reverse pre-order: each at its first place, and only
those that no holder reaches past the root. If none is shared, these are all places. -/
theorem drain_reverse_depthFirst (owned : h.Owned holders) (hroot : h.Live root) :
    ∃ t, h.view root = some t ∧
      releasedIn (h.drain root).2 =
        (((firstOfEach (fun s => s.value.id) (t.walk .depthFirst).tail).filter
          fun s => ¬ h.ReachedPast holders root s.value.id).map fun s => s.value.value).reverse ∧
      ((∀ s ∈ (t.walk .depthFirst).tail, s.value.count = 1) →
        releasedIn (h.drain root).2 =
          ((t.walk .depthFirst).tail.map fun s => s.value.value).reverse) := by
  obtain ⟨t, hview, ht⟩ := owned.view_eq hroot
  have hnamed : Unfolds h.named root (t.map fun l => (l.id, l.value)) := by
    rw [← map_located]
    exact ht.map _
  have htail : (t.walk .depthFirst).tail = Tree.rowPreorder t.slots := by
    rw [Tree.walk_depthFirst, Tree.preorder_eq, List.tail_cons]
  have hplaces : (t.map fun l => (l.id, l.value)).descendants =
      (t.walk .depthFirst).tail.map fun s => (s.value.id, s.value.value) := by
    rw [htail, Tree.descendants, Tree.slots_map, Tree.rowPreorder_map, List.map_map]
    exact List.map_congr_left fun s _ => Tree.value_map _ s
  obtain ⟨hdrain, hunshared⟩ := drain_order owned hnamed
  refine ⟨t, hview, ?_, fun hcount => ?_⟩
  · rw [hdrain, hplaces, dying, firstOfEach_map, List.filter_map, List.map_map]
    rfl
  · rw [hunshared ?_, hplaces, List.map_map]
    · rfl
    · rw [hplaces]
      intro x hx
      obtain ⟨s, hs, rfl⟩ := List.mem_map.1 hx
      have hs' : s ∈ t.preorder := by
        rw [Tree.preorder_eq, ← htail]
        exact List.mem_cons_of_mem _ hs
      obtain ⟨a, slots, hnode⟩ := ht.exists_node hs'
      exact (countOf_of_located hnode).trans_le (hcount s hs).le

/-- Both places of the shared leaf go before its only other holder. -/
theorem drain_reverse_depthFirst_diamond : diamond.Owned [2] ∧ diamond.Live 2 ∧
    (∀ id, diamond.ReachedPast [2] 2 id → id = 2) ∧
    releasedIn (diamond.drain 2).2 = [4, 2] := by
  have hroot : diamond.Live 2 := by decide
  have hpast : ∀ id, diamond.ReachedPast [2] 2 id → id = 2 := by
    rintro id ⟨a, ha, hpath⟩
    obtain rfl := List.mem_singleton.1 ha
    rcases hpath.cases_head with rfl | ⟨b, ⟨hne, -⟩, -⟩
    · rfl
    · exact absurd rfl hne
  obtain ⟨t, hview, horder, -⟩ := drain_reverse_depthFirst owned_diamond hroot
  obtain rfl := Option.some.inj (hview.symm.trans rfl)
  rw [Tree.walk_depthFirst, List.filter_eq_self.2] at horder
  · exact ⟨owned_diamond, hroot, hpast, horder⟩
  · intro s hs
    have hbelow : s.value.id ≠ 2 := by
      revert s
      decide
    simp only [decide_eq_true_eq]
    exact fun hreach => hbelow (hpast _ hreach)

end Heap

end SlotTree
