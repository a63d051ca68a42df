import SlotTree.Proofs.Drain.Order

/-! # The work of a drain

The nodes that a drain spends are its root and those that die. A pop takes one slot off one of them,
and the node that dies with it has no slots any more. When the last slot of a node goes, the node is
the last one that is left to be spent; so each pass empties one node, the last one with slots.
-/

namespace SlotTree

universe u

namespace Heap

variable {α : Type u} {h k l : Heap α} {holders : List NodeId} {root cursor : NodeId}
  {t t' t'' : Tree (NodeId × α)}

open List Relation

/-- The number of slots, holes included, of some nodes. -/
def slotCount (h : Heap α) (ids : List NodeId) : Nat :=
  ids.foldr (fun id n => (h.slotsOf id).length + n) 0

@[simp] theorem slotCount_nil : h.slotCount [] = 0 := rfl

@[simp] theorem slotCount_cons (id : NodeId) (ids : List NodeId) :
    h.slotCount (id :: ids) = (h.slotsOf id).length + h.slotCount ids := rfl

theorem slotCount_append (ids more : List NodeId) :
    h.slotCount (ids ++ more) = h.slotCount ids + h.slotCount more := by
  induction ids with
  | nil => simp
  | cons id ids ih => simp [ih, Nat.add_assoc]

theorem slotCount_of_bare {ids : List NodeId} (hbare : ∀ id ∈ ids, h.slotsOf id = []) :
    h.slotCount ids = 0 := by
  induction ids with
  | nil => rfl
  | cons id ids ih =>
      obtain ⟨hid, hrest⟩ := List.forall_mem_cons.1 hbare
      simp [hid, ih hrest]

theorem slotCount_congr {ids : List NodeId} (hids : ∀ id ∈ ids, k.slotsOf id = h.slotsOf id) :
    k.slotCount ids = h.slotCount ids := by
  induction ids with
  | nil => rfl
  | cons id ids ih =>
      obtain ⟨hid, hrest⟩ := List.forall_mem_cons.1 hids
      simp [hid, ih hrest]

/-- One slot less at one of some nodes is one slot less altogether. -/
theorem slotCount_of_mem {ids : List NodeId} (hnodup : ids.Nodup) (hmem : cursor ∈ ids)
    (hcursor : (h.slotsOf cursor).length = (k.slotsOf cursor).length + 1)
    (hother : ∀ id, id ≠ cursor → k.slotsOf id = h.slotsOf id) :
    h.slotCount ids = k.slotCount ids + 1 := by
  obtain ⟨before, after, rfl⟩ := List.append_of_mem hmem
  have hsplit := List.nodup_append.1 hnodup
  have hbefore : k.slotCount before = h.slotCount before :=
    slotCount_congr fun id hid => hother id (hsplit.2.2 id hid cursor List.mem_cons_self)
  have hafter : k.slotCount after = h.slotCount after :=
    slotCount_congr fun id hid => hother id fun heq =>
      (List.nodup_cons.1 hsplit.2.1).1 (heq ▸ hid)
  rw [slotCount_append, slotCount_append, slotCount_cons, slotCount_cons, hbefore, hafter]
  omega

/-! ## What is spent -/

/-- The nodes that a drain spends: the root, and those below it that no holder reaches past it, at
their first places. -/
noncomputable def spending (h : Heap α) (holders : List NodeId) (root : NodeId)
    (t : Tree (NodeId × α)) : List NodeId :=
  root :: (h.dying holders root t.descendants).map Prod.fst

/-- Those of them that have slots. -/
noncomputable def emptying (h : Heap α) (holders : List NodeId) (root : NodeId)
    (t : Tree (NodeId × α)) : List NodeId :=
  (h.spending holders root t).filter fun id => h.slotsOf id ≠ []

theorem mem_dying {places : List (NodeId × α)} {id : NodeId} :
    id ∈ (h.dying holders root places).map Prod.fst ↔
      id ∈ places.map Prod.fst ∧ ¬ h.ReachedPast holders root id := by
  rw [← mem_map_firstOfEach Prod.fst places]
  simp only [dying, List.mem_map, List.mem_filter, decide_eq_true_eq]
  constructor
  · rintro ⟨x, ⟨hx, hpast⟩, rfl⟩
    exact ⟨⟨x, hx, rfl⟩, hpast⟩
  · rintro ⟨⟨x, hx, rfl⟩, hpast⟩
    exact ⟨x, ⟨hx, hpast⟩, rfl⟩

theorem Owned.reachedPast_root (owned : h.Owned holders) (hroot : h.Live root) :
    h.ReachedPast holders root root :=
  reachedPast_iff.2 (owned.reached_of_live hroot).setSlots_nil_self

theorem nodup_spending (owned : h.Owned holders) (hroot : h.Live root) :
    (h.spending holders root t).Nodup := by
  rw [spending, List.nodup_cons]
  refine ⟨fun hmem => (mem_dying.1 hmem).2 (owned.reachedPast_root hroot), ?_⟩
  exact (nodup_map_firstOfEach _ _).sublist (List.filter_sublist.map _)

/-- Besides the root, those live nodes are spent that no holder reaches past it. -/
theorem mem_spending_iff (owned : h.Owned holders) (ht : Unfolds h.named root t) {id : NodeId} :
    id ∈ h.spending holders root t ↔ id = root ∨ h.Live id ∧ ¬ h.ReachedPast holders root id := by
  rw [spending, List.mem_cons, mem_dying]
  by_cases hroot : id = root
  · simp [hroot]
  · rw [or_iff_right hroot, or_iff_right hroot]
    refine and_congr_left fun hpast => ⟨fun hplace => ?_, fun hid => ?_⟩
    · obtain ⟨x, hx, rfl⟩ := List.mem_map.1 hplace
      exact live_of_descendant ht hx
    · exact (owned.descendant_or_past ht hid hroot).resolve_right hpast

/-- The cursor of a drain is spent. -/
theorem mem_spending (owned : h.Owned holders) (ht : Unfolds h.named root t)
    (hspine : h.Spine root cursor) : cursor ∈ h.spending holders root t := by
  rw [mem_spending_iff owned ht, reachedPast_iff]
  rcases hspine.cases_tail with rfl | ⟨a, -, hlast⟩
  · exact .inl rfl
  · exact (hspine.behind owned).imp_right fun hpast => ⟨owned.live_of_edge hlast.edge, hpast⟩

theorem spending_of_bare (ht : Unfolds h.named root t) (hbare : h.slotsOf root = []) :
    h.spending holders root t = [root] := by
  rw [spending, descendants_of_bare ht hbare]
  rfl

/-- A node without slots at the end of the chain of last slots is the last one that is spent. -/
theorem spending_of_spine (owned : h.Owned holders) (ht : Unfolds h.named root t)
    (hspine : h.Spine root cursor) (hbare : h.slotsOf cursor = []) :
    ∃ front, h.spending holders root t = front ++ [cursor] := by
  cases hspine with
  | refl => exact ⟨[], spending_of_bare ht hbare⟩
  | @tail a _ hspine hlast =>
      -- A pop of the slot above it would take it off as the last one that dies.
      have hcan : ¬ h.canDescend (h.slotsOf a) := by
        rw [canDescend_iff, hlast.last]
        simp [enter?, hbare]
      have shallow := Pop.shallow (p := ⟨h, a, some cursor⟩) owned hlast.last hcan
      obtain ⟨t', s, ht', hs, -, hplaces⟩ :=
        Spine.unfolds_result (p := ⟨h, a, some cursor⟩) owned shallow hlast.last hspine ht
      obtain ⟨gone, -, -, hdying, hunshared⟩ :=
        Pop.gone (p := ⟨h, a, some cursor⟩) owned hlast.last hspine shallow hs ht'
      obtain ⟨n, hn⟩ := live_iff.1 (owned.live_of_edge hlast.edge)
      have ht : Unfolds h.named cursor (.node (cursor, n.value) []) := by
        refine .node (named_eq_some.2 ⟨rfl, ?_⟩) .nil
        rw [slotsOf_eq hn] at hbare
        rw [content?, hn, ← hbare]
        rfl
      obtain rfl : s = some (.node (cursor, n.value) []) := by
        simpa using hs.unique (.tree ht .nil)
      have hgone := hunshared (by simp [Tree.rowPreorder, Tree.preorder, hlast.sole])
      refine ⟨root :: (h.dying holders root t'.descendants).map Prod.fst, ?_⟩
      rw [spending, hplaces, hdying, ← hgone]
      simp [Tree.rowPreorder, Tree.preorder]

/-! ## One pop -/

/-- The work of some pops: of the nodes that are spent, the last ones with slots are emptied, one
after another, and each pop takes one slot off them. -/
structure DrainWork (root : NodeId) (holders : List NodeId) (h : Heap α) (t : Tree (NodeId × α))
    (emptied : List NodeId) (pops : Nat) (k : Heap α) (t' : Tree (NodeId × α)) : Prop where
  unfolds : Unfolds k.named root t'
  emptying_eq : h.emptying holders root t = k.emptying holders root t' ++ emptied.reverse
  slotCount_eq : h.slotCount (h.spending holders root t) =
    pops + k.slotCount (k.spending holders root t')
  bare : ∀ id, h.slotsOf id = [] → k.slotsOf id = []
  mem_emptied : ∀ id, id ∈ emptied ↔ h.slotsOf id ≠ [] ∧ k.slotsOf id = []

theorem DrainWork.trans {emptied later : List NodeId} {pops more : Nat}
    (first : DrainWork root holders h t emptied pops k t')
    (second : DrainWork root holders k t' later more l t'') :
    DrainWork root holders h t (emptied ++ later) (pops + more) l t'' := by
  refine ⟨second.unfolds, ?_, ?_, fun id hid => second.bare id (first.bare id hid), fun id => ?_⟩
  · rw [first.emptying_eq, second.emptying_eq, List.reverse_append, List.append_assoc]
  · rw [first.slotCount_eq, second.slotCount_eq, Nat.add_assoc]
  · rw [List.mem_append, first.mem_emptied, second.mem_emptied]
    constructor
    · rintro (⟨hid, hbare⟩ | ⟨hid, hbare⟩)
      · exact ⟨hid, second.bare id hbare⟩
      · exact ⟨fun hnone => hid (first.bare id hnone), hbare⟩
    · rintro ⟨hid, hbare⟩
      by_cases hk : k.slotsOf id = []
      · exact .inl ⟨hid, hk⟩
      · exact .inr ⟨hk, hbare⟩

namespace Pop

variable {p : Pop α}

/-- A pop changes the row of the cursor alone. -/
theorem slotsOf_other (shallow : p.Shallow) {id : NodeId} (hid : id ≠ p.cursor) :
    p.result.1.slotsOf id = p.heap.slotsOf id := by
  cases shallow with
  | hole _ hresult => rw [hresult, slotsOf_setSlots_other _ hid]
  | shared other n _ hn _ hresult =>
      rw [hresult, slotsOf_setSlots_other _ hid, slotsOf_congr (content?_recount hn _ id)]
  | bare other n _ hn _ hbare hresult =>
      rw [hresult, slotsOf_setSlots_other _ hid]
      by_cases hother : id = other
      · subst hother
        rw [slotsOf_of_not_live (by simp [Live, get?_free_self]), slotsOf_eq hn, hbare]
      · exact slotsOf_congr (content?_free_other hother)

variable (owned : p.heap.Owned holders) (hlast : (p.heap.slotsOf p.cursor).getLast? = some p.slot)
  (hcan : ¬ p.heap.canDescend (p.heap.slotsOf p.cursor)) (hspine : p.heap.Spine root p.cursor)

include owned hlast hcan hspine

/-- What a pop takes off the nodes that are spent has no slots. -/
theorem spending_eq (ht : Unfolds p.heap.named root t) :
    ∃ t', Unfolds p.result.1.named root t' ∧ ∃ gone, (∀ id ∈ gone, p.heap.slotsOf id = []) ∧
      p.heap.spending holders root t = p.result.1.spending holders root t' ++ gone := by
  have shallow := Pop.shallow owned hlast hcan
  obtain ⟨t', s, ht', hs, -, hplaces⟩ := hspine.unfolds_result owned shallow hlast ht
  obtain ⟨gone, -, hbare, hdying, -⟩ := Pop.gone owned hlast hspine shallow hs ht'
  refine ⟨t', ht', gone.map Prod.fst, List.forall_mem_map.2 hbare, ?_⟩
  rw [spending, spending, hplaces, hdying, List.map_append, List.cons_append,
    dying_congr (Pop.reachedPast_iff owned hlast hspine)]

/-- A pop that leaves slots to the cursor empties no node, and one that leaves none empties the last
node with slots that is spent. -/
theorem emptying_eq (ht' : Unfolds p.result.1.named root t') :
    (p.result.1.spending holders root t').filter (fun id => p.heap.slotsOf id ≠ []) =
      p.result.1.emptying holders root t' ++ if p.rest = [] then [p.cursor] else [] := by
  have shallow := Pop.shallow owned hlast hcan
  have hrow : p.heap.slotsOf p.cursor ≠ [] := by simp [slotsOf_cursor hlast]
  have hleft := slotsOf_result owned hlast hcan
  have hsame : ∀ id, id ≠ p.cursor →
      decide (p.heap.slotsOf id ≠ []) = decide (p.result.1.slotsOf id ≠ []) := fun id hid => by
    rw [slotsOf_other shallow hid]
  rw [emptying]
  by_cases hrest : p.rest = []
  · have howned := owned_result owned hlast
    have hspine' := hspine.result owned shallow hlast
    obtain ⟨front, hfront⟩ := spending_of_spine howned ht' hspine' (hleft.trans hrest)
    have hnodup := nodup_spending (t := t') howned (live_of_named ht')
    rw [hfront] at hnodup ⊢
    -- The cursor stands last and nowhere else, so the rows of those before it are as they were.
    have hnone : ∀ id ∈ front, id ≠ p.cursor := fun id hid =>
      (List.nodup_append.1 hnodup).2.2 id hid p.cursor List.mem_cons_self
    have hfront := List.filter_congr fun id hid => hsame id (hnone id hid)
    rw [List.filter_append, List.filter_append, hfront]
    simp [hrow, hleft, hrest]
  · rw [if_neg hrest, List.append_nil]
    refine List.filter_congr fun id _ => ?_
    by_cases hid : id = p.cursor
    · simp [hid, hrow, hleft, hrest]
    · exact hsame id hid

theorem work (ht : Unfolds p.heap.named root t) :
    ∃ t', DrainWork root holders p.heap t (if p.rest = [] then [p.cursor] else []) 1
      p.result.1 t' := by
  have shallow := Pop.shallow owned hlast hcan
  have hrow := slotsOf_cursor hlast
  have hleft := slotsOf_result owned hlast hcan
  obtain ⟨t', ht', gone, hbare, hspending⟩ := spending_eq owned hlast hcan hspine ht
  refine ⟨t', ht', ?_, ?_, fun id hid => ?_, fun id => ?_⟩
  · have hgone : gone.filter (fun id => p.heap.slotsOf id ≠ []) = [] :=
      List.filter_eq_nil_iff.2 fun id hid => by simp [hbare id hid]
    rw [emptying, hspending, List.filter_append, hgone, List.append_nil,
      emptying_eq owned hlast hcan hspine ht']
    split <;> rfl
  · have howned := owned_result owned hlast
    have hmem := mem_spending howned ht' (hspine.result owned shallow hlast)
    have hcount := slotCount_of_mem (h := p.heap) (nodup_spending howned (live_of_named ht')) hmem
      (by simp [hrow, hleft]) fun id hid => slotsOf_other shallow hid
    rw [hspending, slotCount_append, slotCount_of_bare hbare, hcount, Nat.add_zero, Nat.add_comm]
  · have hne : id ≠ p.cursor := by
      rintro rfl
      simp [hrow] at hid
    rw [slotsOf_other shallow hne, hid]
  · by_cases hid : id = p.cursor
    · subst hid
      rw [hleft, hrow]
      split <;> simp [*]
    · rw [slotsOf_other shallow hid]
      split <;> simp [hid]

end Pop

/-! ## Passes -/

/-- A pass from a node with slots empties one node, and takes off a slot at least. -/
theorem PassDerivation.work {pops : List (Pop α)} (hpass : PassDerivation h cursor pops k)
    (owned : h.Owned holders) (hspine : h.Spine root cursor) (ht : Unfolds h.named root t)
    (hrow : h.slotsOf cursor ≠ []) :
    0 < pops.length ∧ ∃ t' id, DrainWork root holders h t [id] pops.length k t' := by
  induction hpass generalizing t with
  | done hbare => exact absurd hbare hrow
  | descend hcan hback _ ih =>
      obtain ⟨hlast, hexclusive, hslots⟩ := enter?_eq_some.1 (enter?_of_backNode? hcan hback)
      refine ih owned (hspine.tail ⟨?_, owned.isExclusive_iff.1 hexclusive⟩) ht hslots
      exact Option.join_eq_some_iff.1 hlast
  | @pop h k cursor s pops hlast hcan hrest ih =>
      have shallow := Pop.shallow (p := ⟨h, cursor, s⟩) owned hlast hcan
      have hleft := Pop.slotsOf_result (p := ⟨h, cursor, s⟩) owned hlast hcan
      obtain ⟨t', hfirst⟩ := Pop.work (p := ⟨h, cursor, s⟩) owned hlast hcan hspine ht
      refine ⟨Nat.succ_pos _, ?_⟩
      -- The pop that clears the cursor is the last one of the pass.
      by_cases hempty : Pop.rest ⟨h, cursor, s⟩ = []
      · rw [if_pos hempty] at hfirst
        obtain ⟨rfl, rfl⟩ := hrest.deterministic (.done (hleft.trans hempty))
        exact ⟨t', cursor, hfirst⟩
      · rw [if_neg hempty] at hfirst
        have hspine' := Spine.result (p := ⟨h, cursor, s⟩) owned shallow hlast hspine
        obtain ⟨-, t'', id, hmore⟩ := ih (Pop.owned_result owned hlast) hspine' hfirst.unfolds
          (by rwa [hleft])
        refine ⟨t'', id, ?_⟩
        rw [List.length_cons, Nat.add_comm]
        exact hfirst.trans hmore

/-- A pass of a drain. -/
def onePass (root : NodeId) (h : Heap α) : Pass α := drainPass h.cells.size h root

/-- The heap after some passes. -/
def afterPasses (root : NodeId) : Nat → Heap α → Heap α
  | 0, h => h
  | n + 1, h => afterPasses root n (onePass root h).heap

/-- The number of slots that some passes take off. -/
def popsOf (root : NodeId) : Nat → Heap α → Nat
  | 0, _ => 0
  | n + 1, h => (onePass root h).pops + popsOf root n (onePass root h).heap

theorem popsOf_succ (n : Nat) (h : Heap α) :
    popsOf root (n + 1) h = popsOf root n h + (onePass root (afterPasses root n h)).pops := by
  induction n generalizing h with
  | zero => exact Nat.add_comm _ _
  | succ n ih => rw [popsOf, ih, popsOf, afterPasses, Nat.add_assoc]

/-- What one pass does to a root that has slots. -/
structure PassWork (root : NodeId) (holders : List NodeId) (h : Heap α) (t : Tree (NodeId × α))
    (id : NodeId) (o : Pass α) (t' : Tree (NodeId × α)) : Prop where
  owned : o.heap.Owned holders
  policy_eq : o.heap.policy = h.policy
  laden_lt : o.heap.laden < h.laden
  pops_pos : 0 < o.pops
  work : DrainWork root holders h t [id] o.pops o.heap t'

theorem onePass_work (owned : h.Owned holders) (ht : Unfolds h.named root t)
    (hrow : h.slotsOf root ≠ []) : ∃ t' id, PassWork root holders h t id (onePass root h) t' := by
  obtain ⟨pops, hpass, -, hcount⟩ :=
    drainPass_derivation owned (live_of_named ht) (height_le_size h root)
  have hspec := hpass.spec owned (.inl rfl)
  obtain ⟨hpos, t', id, hwork⟩ := hpass.work owned .refl ht hrow
  rw [← hcount] at hpos hwork
  have hpolicy := hspec.unseen.policy_eq
  rw [policy_setSlots, policy_setSlots] at hpolicy
  exact ⟨t', id, hspec.owned, hpolicy, hpass.laden_lt owned hrow, hpos, hwork⟩

/-- The root has slots as long as there are nodes to be emptied. -/
theorem emptying_eq_nil (ht : Unfolds h.named root t) :
    h.emptying holders root t = [] ↔ h.slotsOf root = [] := by
  constructor
  · intro hnone
    have hroot := List.filter_eq_nil_iff.1 hnone root List.mem_cons_self
    simpa using hroot
  · intro hbare
    rw [emptying, spending_of_bare ht hbare, List.filter_singleton, hbare]
    rfl

/-- What passes do until the root has no slots left: each empties the last node with slots that is
spent, and together they take all slots off these nodes. -/
structure PassesWork (root : NodeId) (holders : List NodeId) (h : Heap α) (t : Tree (NodeId × α))
    (n : Nat) : Prop where
  going : ∀ i < n, (afterPasses root i h).slotsOf root ≠ []
  ended : (afterPasses root n h).slotsOf root = []
  policy_eq : (afterPasses root n h).policy = h.policy
  le_laden : n ≤ h.laden
  pops_pos : ∀ i < n, 0 < (onePass root (afterPasses root i h)).pops
  popsOf_eq : popsOf root n h = h.slotCount (h.spending holders root t)
  emptied : ∀ i < n, ∀ id, (afterPasses root i h).slotsOf id ≠ [] ∧
    (afterPasses root (i + 1) h).slotsOf id = [] ↔
      (h.emptying holders root t).reverse[i]? = some id

theorem passes_work (owned : h.Owned holders) (ht : Unfolds h.named root t) :
    PassesWork root holders h t (h.emptying holders root t).length := by
  generalize hn : (h.emptying holders root t).length = n
  -- Induction on the number of nodes that are still to be emptied: a pass takes off the last one.
  induction n generalizing h t with
  | zero =>
      have hbare := (emptying_eq_nil ht).1 (List.length_eq_zero_iff.1 hn)
      refine ⟨by simp, hbare, rfl, Nat.zero_le _, by simp, ?_, by simp⟩
      rw [spending_of_bare ht hbare, slotCount_cons, hbare]
      rfl
  | succ n ih =>
      have hrow : h.slotsOf root ≠ [] := fun hbare => by
        simp [(emptying_eq_nil ht).2 hbare] at hn
      obtain ⟨t', id, hpass⟩ := onePass_work owned ht hrow
      have hsplit := hpass.work.emptying_eq
      rw [List.reverse_singleton] at hsplit
      have hrest := ih hpass.owned hpass.work.unfolds (by simpa [hsplit] using hn)
      refine ⟨fun i hi => ?_, hrest.ended, hrest.policy_eq.trans hpass.policy_eq, ?_,
        fun i hi => ?_, ?_, fun i hi other => ?_⟩
      · cases i with
        | zero => exact hrow
        | succ i => exact hrest.going i (Nat.lt_of_succ_lt_succ hi)
      · have := hrest.le_laden
        have := hpass.laden_lt
        omega
      · cases i with
        | zero => exact hpass.pops_pos
        | succ i => exact hrest.pops_pos i (Nat.lt_of_succ_lt_succ hi)
      · rw [popsOf, hrest.popsOf_eq, hpass.work.slotCount_eq]
      · rw [hsplit, List.reverse_append]
        cases i with
        | zero =>
            refine (hpass.work.mem_emptied other).symm.trans ?_
            rw [List.mem_singleton, eq_comm]
            exact Option.some_inj.symm
        | succ i => exact hrest.emptied i (Nat.lt_of_succ_lt_succ hi) other

/-! ## A drain -/

open Event

/-- With enough budget a drain makes passes until the root has no slots, and reports each. -/
theorem drainFrom_eq {n budget : Nat} (hn : n ≤ budget)
    (hgoing : ∀ i < n, (afterPasses root i h).slotsOf root ≠ [])
    (hended : (afterPasses root n h).slotsOf root = []) (passes pops : Nat) :
    drainFrom budget h root passes pops = (afterPasses root n h,
      ((List.range n).flatMap fun i => ofReleased (onePass root (afterPasses root i h)).values ++
        [.drained (passes + (i + 1)) (pops + popsOf root (i + 1) h)]) ++
      [.cleared (afterPasses root n h).policy (passes + n) (pops + popsOf root n h)]) := by
  induction n generalizing budget h passes pops with
  | zero => exact drainFrom_of_empty hended budget passes pops
  | succ n ih =>
      obtain ⟨budget, rfl⟩ := Nat.exists_eq_add_of_lt (Nat.lt_of_succ_le hn)
      have hrow : h.slotsOf root ≠ [] := hgoing 0 (Nat.succ_pos n)
      rw [drainFrom_succ hrow, ← onePass]
      dsimp only
      rw [ih (Nat.le_add_right n budget) (fun i hi => hgoing (i + 1) (Nat.succ_lt_succ hi)) hended]
      simp only [List.range_succ_eq_map, List.flatMap_cons, List.flatMap_map, afterPasses, popsOf,
        Nat.add_assoc, Nat.add_comm 1, Nat.add_zero, Nat.zero_add, List.append_assoc,
        List.cons_append, List.nil_append]

/-- The root of a drain and the nodes that it frees, at their first places in pre-order. -/
def spent (h : Heap α) (root : NodeId) (t : Tree (Located α)) : List NodeId :=
  ((firstOfEach (fun s => s.value.id) (t.walk .depthFirst)).map fun s => s.value.id).filter
    fun id => id = root ∨ ¬ (h.drain root).1.Live id

theorem live_drain_iff (owned : h.Owned holders) (hroot : h.Live root) {id : NodeId} :
    (h.drain root).1.Live id ↔ h.ReachedPast holders root id := by
  rw [(drain_eq_replaceSlots owned hroot).1, reachedPast_iff]
  exact (owned.takeSlots root).live_release_iff id

theorem spent_eq (owned : h.Owned holders) {t : Tree (Located α)}
    (ht : Unfolds h.located root t) :
    h.spent root t = h.spending holders root (t.map fun l => (l.id, l.value)) := by
  obtain ⟨n, row, hn, -, rfl⟩ := unfolds_located_iff.1 ht
  have hroot : h.Live root := live_iff.2 ⟨n, hn⟩
  have hpast := owned.reachedPast_root hroot
  have hplaces : (Tree.map (fun l => (l.id, l.value))
      (.node ⟨root, n.count, n.value⟩ row)).descendants =
        (Tree.rowPreorder row).map fun s => (s.value.id, s.value.value) := by
    rw [Tree.descendants, Tree.slots_map, Tree.rowPreorder_map, List.map_map]
    exact List.map_congr_left fun s _ => Tree.value_map _ s
  rw [spent, spending, hplaces, dying, firstOfEach_map, Tree.walk_depthFirst, Tree.preorder_eq,
    firstOfEach]
  simp only [List.map_cons, Tree.value_node, Tree.slots_node, List.filter_cons, true_or,
    decide_true, if_true, List.filter_map, List.filter_filter, List.map_map, Function.comp_def]
  refine congrArg (root :: List.map _ ·) (List.filter_congr fun s _ => ?_)
  by_cases hid : s.value.id = root
  · simp [hid, hpast]
  · simp [hid, live_drain_iff owned hroot]

/-- A drain spends its root and the nodes that it frees. It makes one pass for each of them that has
slots, and no pass empties another node than the last of them in pre-order that is left. The pops,
at least one in each pass, are added up, in the end to as many as all these nodes had slots. -/
theorem drain_work (owned : h.Owned holders) (hroot : h.Live root) :
    ∃ t, h.view root = some t ∧ (h.spent root t).Nodup ∧
      (∀ id, id ∈ h.spent root t ↔ id = root ∨ h.Live id ∧ ¬ (h.drain root).1.Live id) ∧
      let laden := (h.spent root t).filter fun id => h.slotsOf id ≠ []
      let n := laden.length
      h.drain root = (afterPasses root n h,
        ((List.range n).flatMap fun i => ofReleased (onePass root (afterPasses root i h)).values ++
          [.drained (i + 1) (popsOf root (i + 1) h)]) ++
        [.cleared h.policy n (popsOf root n h)]) ∧
      (∀ i < n, (afterPasses root i h).slotsOf root ≠ []) ∧
      (afterPasses root n h).slotsOf root = [] ∧
      popsOf root n h = h.slotCount (h.spent root t) ∧
      (∀ i < n, popsOf root i h < popsOf root (i + 1) h) ∧
      (∀ i < n, ∀ id, (afterPasses root i h).slotsOf id ≠ [] ∧
        (afterPasses root (i + 1) h).slotsOf id = [] ↔ laden.reverse[i]? = some id) ∧
      (h.slotsOf root = [] → (h.drain root).2 = [.cleared h.policy 0 0]) := by
  obtain ⟨t, hview, ht⟩ := owned.view_eq hroot
  have hnamed : Unfolds h.named root (t.map fun l => (l.id, l.value)) := by
    rw [← map_located]
    exact ht.map _
  have hspent := spent_eq owned ht
  have hemptying : h.emptying holders root (t.map fun l => (l.id, l.value)) =
      (h.spent root t).filter fun id => h.slotsOf id ≠ [] := by rw [emptying, hspent]
  have hwork := passes_work owned hnamed
  have hdrain : h.drain root = _ :=
    drainFrom_eq (hwork.le_laden.trans (laden_le_size h)) hwork.going hwork.ended 0 0
  have hemptied := hwork.emptied
  rw [hemptying] at hwork hdrain hemptied
  rw [hwork.policy_eq] at hdrain
  simp only [Nat.zero_add] at hdrain
  refine ⟨t, hview, ?_, fun id => ?_, hdrain, hwork.going, hwork.ended, ?_, fun i hi => ?_,
    hemptied, fun hbare => ?_⟩
  · rw [hspent]
    exact nodup_spending owned hroot
  · rw [hspent, mem_spending_iff owned hnamed, live_drain_iff owned hroot]
  · rw [hwork.popsOf_eq, hspent]
  · rw [popsOf_succ]
    exact Nat.lt_add_of_pos_right (hwork.pops_pos i hi)
  · rw [← hemptying, (emptying_eq_nil hnamed).2 hbare] at hdrain
    rw [hdrain]
    rfl

/-- The first pass takes the last two slots off the root and empties the node in the first one, the
second pass empties the root. -/
theorem drain_work_diamond : diamond.Owned [2] ∧ diamond.Live 2 ∧
    ∃ t, diamond.view 2 = some t ∧ diamond.spent 2 t = [2, 1, 0] ∧
      (diamond.drain 2).2.getLast? = some (.cleared .shared 2 5) ∧
      (∀ i < 2, popsOf 2 i diamond < popsOf 2 (i + 1) diamond) ∧
      ∀ i < 2, ∀ id, (afterPasses 2 i diamond).slotsOf id ≠ [] ∧
        (afterPasses 2 (i + 1) diamond).slotsOf id = [] ↔ [1, 2][i]? = some id := by
  have hroot : diamond.Live 2 := by decide
  obtain ⟨t, hview, -, -, hdrain, -, -, hpops, hlt, hemptied, -⟩ := drain_work owned_diamond hroot
  have hspent : diamond.spent 2 t = [2, 1, 0] := by
    obtain rfl := Option.some.inj (hview.symm.trans rfl)
    rw [spent, Tree.walk_depthFirst]
    decide +kernel
  rw [hspent] at hdrain hpops hlt hemptied
  refine ⟨owned_diamond, hroot, t, hview, hspent, ?_, hlt, hemptied⟩
  rw [hdrain, List.getLast?_concat, hpops]
  rfl

end Heap

end SlotTree
