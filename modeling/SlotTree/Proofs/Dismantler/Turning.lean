import SlotTree.Proofs.Heap.Unfolding
import SlotTree.Proofs.Teardown

/-! # Dismantling as turns of a tree

A waiting parent is read as standing above the current node again. Then a machine has a tree left,
and on a binary tree without shared nodes each part of a step turns it in one of a few ways: the
machine on the heap follows a machine on trees, as long as no parent has to wait beside an empty
second slot for a child that is entered.
-/

namespace SlotTree

universe u

variable {α : Type u}

namespace Tree

/-- A node has two slots at most, and where its first child has slots, a second child beside it. -/
def Propped (t : Tree α) : Prop :=
  t.slots.length ≤ 2 ∧
    (t.slots[0]?.join.any (fun first => !first.slots.isEmpty) → t.slots[1]?.join.isSome)

instance (t : Tree α) : Decidable t.Propped := inferInstanceAs (Decidable (_ ∧ (_ → _)))

theorem forall_rowPreorder_cons {P : Tree α → Prop} {s : Option (Tree α)} {row : Row α} :
    (∀ t ∈ rowPreorder (s :: row), P t) ↔
      (∀ t ∈ rowPreorder [s], P t) ∧ ∀ t ∈ rowPreorder row, P t := by
  rw [← List.singleton_append, rowPreorder_append]
  exact List.forall_mem_append

theorem forall_rowPreorder_node {P : Tree α → Prop} {v : α} {row : Row α} :
    (∀ t ∈ rowPreorder [some (.node v row)], P t) ↔
      P (.node v row) ∧ ∀ t ∈ rowPreorder row, P t := by
  simp [rowPreorder, preorder]

end Tree

namespace Dismantler

open Heap

/-! ## What is left to take apart -/

/-- The tree that is left to a machine: that of its current node, with a waiting parent above it in
whose vacated slot it stands. -/
inductive Standing (m : Dismantler) (h : Heap α) : Option (Tree (Located α)) → Prop where
  | done (hcurrent : m.current = none) : Standing m h none
  | alone {current : NodeId} {t : Tree (Located α)} (hcurrent : m.current = some current)
      (hparent : m.parent = none) (ht : Unfolds h.located current t) : Standing m h (some t)
  | below {current p : NodeId} {t : Tree (Located α)} {l : Located α} {slots : List Slot}
      {above : Row (Located α)} (hcurrent : m.current = some current) (hparent : m.parent = some p)
      (ht : Unfolds h.located current t) (hp : h.located p = some (l, none :: slots))
      (habove : UnfoldsRow h.located slots above) :
      Standing m h (some (.node l (some t :: above)))

/-- No node is shared, and each is propped. -/
def Fit (row : Row (Located α)) : Prop :=
  ∀ t ∈ Tree.rowPreorder row, t.value.count = 1 ∧ t.Propped

/-- What is left to a machine: its tree, and whether the root of the tree waits as a parent. -/
structure Remains (α : Type u) where
  waiting : Bool
  tree : Option (Tree (Located α))

/-- A part of a step turns what is left into something else. It drops some values, and is counted as
a step and as a rotation or not. -/
inductive Turn : Remains α → List α → Nat → Nat → Remains α → Prop where
  | idle (s : Option (Tree (Located α))) : Turn ⟨false, s⟩ [] 0 0 ⟨false, s⟩
  | rotate (p l : Located α) {row : Row (Located α)} {f g : Option (Tree (Located α))}
      (r : Tree (Located α)) (hrow : row = [f, g] ∨ row = [f] ∧ g = none) :
      Turn ⟨true, some (.node p [some (.node l row), some r])⟩ [] 0 1
        ⟨false, some (.node l [f, some (.node p [g, some r])])⟩
  | leaf (l : Located α) : Turn ⟨false, some (.node l [])⟩ [l.value] 1 0 ⟨false, none⟩
  | leafBelow (p l : Located α) (above : Row (Located α)) :
      Turn ⟨true, some (.node p (some (.node l []) :: above))⟩ [l.value] 1 0
        ⟨false, some (.node p (none :: above))⟩
  | down (l : Located α) (f : Tree (Located α)) (rest : Row (Located α)) :
      Turn ⟨false, some (.node l (some f :: rest))⟩ [] 1 0 ⟨true, some (.node l (some f :: rest))⟩
  | right (l : Located α) (s : Option (Tree (Located α))) :
      Turn ⟨false, some (.node l [none, s])⟩ [l.value] 1 0 ⟨false, s⟩
  | close (l : Located α) :
      Turn ⟨false, some (.node l [none])⟩ [] 1 0 ⟨false, some (.node l [])⟩

/-- Turns in a row, with all that they drop and count. -/
inductive Turns : Remains α → List α → Nat → Nat → Remains α → Prop where
  | refl (a : Remains α) : Turns a [] 0 0 a
  | head {a b c : Remains α} {values later : List α} {n r k q : Nat} (hturn : Turn a values n r b)
      (hturns : Turns b later k q c) : Turns a (values ++ later) (n + k) (r + q) c

/-- A part of a step on the heap is a turn of the tree that is left. The count of the step itself
is taken before. -/
structure TurnSpec (m : Dismantler) (s : Option (Tree (Located α))) (o : Outcome α)
    (left : Option (Tree (Located α))) (n r : Nat) : Prop where
  standing : o.machine.Standing o.heap left
  turn : Turn ⟨m.parent.isSome, s⟩ o.values n r ⟨o.machine.parent.isSome, left⟩
  steps_eq : o.machine.steps = m.steps
  rotations_eq : o.machine.rotations = m.rotations + r

/-- Steps on the heap are turns of the tree that is left, and are counted as such. -/
structure TurnsSpec (m : Dismantler) (s : Option (Tree (Located α))) (o : Outcome α)
    (left : Option (Tree (Located α))) (n r : Nat) : Prop where
  standing : o.machine.Standing o.heap left
  turns : Turns ⟨m.parent.isSome, s⟩ o.values n r ⟨o.machine.parent.isSome, left⟩
  steps_eq : o.machine.steps = m.steps + n
  rotations_eq : o.machine.rotations = m.rotations + r

theorem Turns.single {a b : Remains α} {values : List α} {n r : Nat} (hturn : Turn a values n r b) :
    Turns a values n r b := by
  have hturns := Turns.head hturn (.refl b)
  rwa [List.append_nil, Nat.add_zero, Nat.add_zero] at hturns

theorem Turns.trans {a b c : Remains α} {values later : List α} {n r k q : Nat}
    (first : Turns a values n r b) (second : Turns b later k q c) :
    Turns a (values ++ later) (n + k) (r + q) c := by
  induction first with
  | refl => rwa [List.nil_append, Nat.zero_add, Nat.zero_add]
  | head hturn _ ih =>
      rw [List.append_assoc, Nat.add_assoc, Nat.add_assoc]
      exact .head hturn (ih second)

variable {l : Located α} {row rest : Row (Located α)} {s left : Option (Tree (Located α))}

@[simp] theorem fit_nil : Fit ([] : Row (Located α)) := by
  simp [Fit, Tree.rowPreorder]

@[simp] theorem fit_hole : Fit (none :: rest) ↔ Fit rest := Iff.rfl

theorem fit_cons : Fit (s :: row) ↔ Fit [s] ∧ Fit row := Tree.forall_rowPreorder_cons

theorem fit_node : Fit [some (.node l row)] ↔
    (l.count = 1 ∧ (Tree.node l row).Propped) ∧ Fit row := Tree.forall_rowPreorder_node

theorem propped_pair (l : Located α) (s : Option (Tree (Located α))) (t : Tree (Located α)) :
    (Tree.node l [s, some t]).Propped :=
  ⟨Nat.le_refl 2, fun _ => rfl⟩

/-- A turn leaves a fit tree. -/
theorem Turn.fit {a b : Remains α} {values : List α} {n r : Nat} (hturn : Turn a values n r b)
    (hfit : Fit [a.tree]) : Fit [b.tree] := by
  cases hturn with
  | idle => exact hfit
  | @rotate p l row f g r hrow =>
      obtain ⟨⟨hcount_p, -⟩, hbelow⟩ := fit_node.1 hfit
      obtain ⟨hnode, hbeside⟩ := fit_cons.1 hbelow
      obtain ⟨⟨hcount, -⟩, hfit_row⟩ := fit_node.1 hnode
      have hpair : Fit [f] ∧ Fit [g] := by
        rcases hrow with rfl | ⟨rfl, rfl⟩
        · exact fit_cons.1 hfit_row
        · exact ⟨hfit_row, fit_nil⟩
      have hfit_p : Fit [some (.node p [g, some r])] :=
        fit_node.2 ⟨⟨hcount_p, propped_pair p g r⟩, fit_cons.2 ⟨hpair.2, hbeside⟩⟩
      exact fit_node.2 ⟨⟨hcount, propped_pair l f _⟩, fit_cons.2 ⟨hpair.1, hfit_p⟩⟩
  | leaf => exact fit_nil
  | leafBelow p l above =>
      obtain ⟨⟨hcount, hpropped⟩, hrow⟩ := fit_node.1 hfit
      have hvacated : (Tree.node p (none :: above)).Propped := ⟨by simpa using hpropped.1, by simp⟩
      exact fit_node.2 ⟨⟨hcount, hvacated⟩, fit_hole.2 (fit_cons.1 hrow).2⟩
  | down => exact hfit
  | right l s => exact (fit_node.1 hfit).2
  | close l => exact fit_node.2 ⟨⟨(fit_node.1 hfit).1.1, by simp [Tree.Propped]⟩, fit_nil⟩

theorem Turns.fit {a b : Remains α} {values : List α} {n r : Nat} (hturns : Turns a values n r b)
    (hfit : Fit [a.tree]) : Fit [b.tree] := by
  induction hturns with
  | refl => exact hfit
  | head hturn _ ih => exact ih (hturn.fit hfit)

variable {m : Dismantler} {h : Heap α} {others : List NodeId} {current : NodeId}
  {t : Tree (Located α)} {o : Outcome α} {n r : Nat}

/-- The counters of a machine have no part in what is left. -/
theorem Standing.recount (hstanding : m.Standing h s) (steps : Nat) :
    Standing { m with steps := steps } h s := by
  cases hstanding with
  | done hcurrent => exact .done hcurrent
  | alone hcurrent hparent ht => exact .alone hcurrent hparent ht
  | below hcurrent hparent ht hp habove => exact .below hcurrent hparent ht hp habove

/-- The root of a fit tree has one handle. -/
theorem countOf_of_fit {id : NodeId} (ht : Unfolds h.located id t) (hfit : Fit [some t]) :
    h.countOf id = 1 := by
  obtain ⟨n, row, hn, -, rfl⟩ := unfolds_located_iff.1 ht
  rw [countOf_eq hn]
  exact (fit_node.1 hfit).1.1

/-- What is below any node stays as it is when a node is changed that is held alone. -/
theorem unfoldsRow_of_sole (owned : h.Owned (current :: others)) (hone : h.countOf current = 1)
    {k : Heap α} (hother : ∀ id, id ≠ current → k.get? id = h.get? id) {a : NodeId}
    {slots : List Slot} (hslots : ∀ b, some b ∈ slots → h.Edge a b)
    (hrow : UnfoldsRow h.located slots row) : UnfoldsRow k.located slots row := by
  have hunled : ∀ id ∈ [current], ∀ a, ¬ h.Edge a id := by
    simpa using (owned.of_held_sole hone).2
  refine unfoldsRow_of_unled (fun id hid => ?_) hunled hrow fun b hb hchanged => ?_
  · exact hother id (by simpa using hid)
  · exact hunled b hchanged a (hslots b hb)

/-! ## A leaf -/

/-- A node of a fit tree that is not entered is a leaf, and its release frees nothing else. -/
theorem leaf_of_refused (owned : h.Owned (current :: others))
    (refused : h.enter? (some current) = none) (ht : Unfolds h.located current t)
    (hfit : Fit [some t]) : ∃ l, t = .node l [] ∧
      h.release [current] = (h.free current, [l.value]) := by
  have hone := countOf_of_fit ht hfit
  obtain ⟨n, row, hn, hrow, rfl⟩ := unfolds_located_iff.1 ht
  have hslots : n.slots = [] := by
    rw [← slotsOf_eq hn]
    exact enter?_eq_none.1 refused (owned.isExclusive_iff.2 hone)
  rw [hslots] at hrow
  cases hrow
  rw [countOf_eq hn] at hone
  refine ⟨_, rfl, release_bare hn (by omega) ?_⟩
  rw [Node.handles, hslots, List.filterMap_nil]

/-- The current node is a leaf, and is dropped. -/
theorem turn_refused (owned : h.Owned (m.held ++ others)) (hcurrent : m.current = some current)
    (refused : h.enter? (some current) = none) (hstanding : m.Standing h s) (hfit : Fit [s]) :
    ∃ left, TurnSpec { m with steps := m.steps + 1 } s (advance m h current) left 1 0 := by
  have owned : h.Owned (current :: (m.parent.toList ++ others)) := by
    simpa [held, hcurrent] using owned
  rw [advance_refused refused]
  cases hstanding with
  | done hnone => simp [hcurrent] at hnone
  | alone hsome hparent ht =>
      obtain rfl := Option.some.inj (hcurrent.symm.trans hsome)
      obtain ⟨l, rfl, hrelease⟩ := leaf_of_refused owned refused ht hfit
      rw [hrelease]
      refine ⟨none, .done hparent, ?_, rfl, rfl⟩
      simpa [hparent] using Turn.leaf l
  | @below _ p _ l slots above hsome hparent ht hp habove =>
      obtain rfl := Option.some.inj (hcurrent.symm.trans hsome)
      rw [hparent] at owned
      have hleaf := (fit_cons.1 (fit_node.1 hfit).2).1
      have hsole := countOf_of_fit ht hleaf
      have hclear := owned.of_held_sole hsole
      obtain ⟨leaf, rfl, hrelease⟩ := leaf_of_refused owned refused ht hleaf
      have hother : ∀ id, id ≠ current → (h.free current).get? id = h.get? id :=
        fun id hid => get?_free_other hid
      have habove' : UnfoldsRow (h.free current).located slots above :=
        unfoldsRow_of_sole owned hsole hother
          (fun b hb => edge_located.1 ⟨_, _, hp, List.mem_cons_of_mem _ hb⟩) habove
      have hp' : (h.free current).located p = some (l, none :: slots) := by
        rw [located, hother p fun heq => hclear.1 (by simp [heq])]
        exact hp
      rw [hrelease]
      refine ⟨some (.node l (none :: above)), .alone hparent rfl (.node hp' (.hole habove')), ?_,
        rfl, rfl⟩
      simpa [hparent] using Turn.leafBelow l leaf above

/-! ## Settling -/

/-- A row of one or two slots shows two when it is padded. -/
theorem padSole_pair {slots : List Slot} (hslots : slots ≠ []) (hlength : row.length ≤ 2)
    (hrow : UnfoldsRow h.located slots row) :
    ∃ first second f g, padSole slots = [first, second] ∧
      UnfoldsRow h.located [first] [f] ∧ UnfoldsRow h.located [second] [g] ∧
      (row = [f, g] ∨ row = [f] ∧ g = none) := by
  rw [hrow.length_eq] at hlength
  match slots, hslots with
  | [first], _ =>
      obtain ⟨f, rest, rfl, hfirst, hnil⟩ := hrow.of_cons
      cases hnil
      exact ⟨first, none, f, none, rfl, hfirst, .hole .nil, .inr ⟨rfl, rfl⟩⟩
  | [first, second], _ =>
      obtain ⟨f, rest, rfl, hfirst, hrest⟩ := hrow.of_cons
      obtain ⟨g, rest, rfl, hsecond, hnil⟩ := hrest.of_cons
      cases hnil
      exact ⟨first, second, f, g, rfl, hfirst, hsecond, .inl rfl⟩
  | _ :: _ :: _ :: _, _ => simp at hlength

/-- The node that is entered below a waiting parent has a node beside it. -/
theorem loaded_of_fit {l : Located α} {slots : List Slot} {above : Row (Located α)}
    (hfit : Fit [some (.node l (some t :: above))]) (ht : t.slots ≠ [])
    (habove : UnfoldsRow h.located slots above) :
    ∃ id r, slots = [some id] ∧ above = [some r] := by
  obtain ⟨hlength, hbeside⟩ := (fit_node.1 hfit).1.2
  cases habove with
  | nil => simp [ht] at hbeside
  | hole => simp [ht] at hbeside
  | tree hr hrest =>
      cases hrest with
      | nil => exact ⟨_, _, rfl, rfl⟩
      | hole => simp at hlength
      | tree => simp at hlength

/-- No slot leads to either of the two nodes, so nothing below them sees a rotation. -/
theorem unfoldsRow_rotate (entered : Entered m h others current) {p a : NodeId}
    (hparent : m.parent = some p) {slot : Slot} (hslot : slot ∈ padSole (h.slotsOf a))
    (hrow : UnfoldsRow h.located [slot] [s]) :
    UnfoldsRow (rotate h current p).located [slot] [s] := by
  obtain ⟨first, second, extra, hpad⟩ := padSole_cases entered.slotsOf_current
  obtain ⟨above, habove⟩ := entered.ready.vacated p hparent
  have hunled : ∀ id ∈ [current, p], ∀ a, ¬ h.Edge a id := by
    simp only [List.forall_mem_cons, List.not_mem_nil, false_imp_iff, implies_true, and_true]
    exact ⟨(entered.owned_current.of_held_sole entered.countOf_current).2,
      ((entered.owned_parent hparent).of_held_sole (entered.ready.sole p hparent)).2⟩
  refine unfoldsRow_of_unled (fun id hid => ?_) hunled hrow fun b hb hchanged => ?_
  · simp only [List.mem_cons, List.not_mem_nil, or_false, not_or] at hid
    rw [rotate_eq hpad habove]
    simp [get?_setSlots, hid.1, hid.2]
  · refine hunled b hchanged a ?_
    rw [← List.mem_singleton.1 hb] at hslot
    rwa [Edge, ← List.count_pos_iff, ← count_padSole, List.count_pos_iff]

/-- The parent hangs below the second slot of the current node, with what that slot held in its
first. -/
theorem unfolds_rotate (entered : Entered m h others current) {p id : NodeId}
    (hparent : m.parent = some p) {above l : Located α} {slots : List Slot} {first second : Slot}
    {f g : Option (Tree (Located α))} {r : Tree (Located α)}
    (hcurrent : h.located current = some (l, slots)) (hpad : padSole slots = [first, second])
    (hp : h.located p = some (above, [none, some id])) (hfirst : UnfoldsRow h.located [first] [f])
    (hsecond : UnfoldsRow h.located [second] [g])
    (hbeside : UnfoldsRow h.located [some id] [some r]) :
    Unfolds (rotate h current p).located current
      (.node l [f, some (.node above [g, some r])]) := by
  have hne := entered.ne_parent hparent
  have hrow_p := slotsOf_of_located hp
  have hrow_current : padSole (h.slotsOf current) = [first, second] := by
    rwa [slotsOf_of_located hcurrent]
  have hfirst' := unfoldsRow_rotate entered hparent (a := current) (by simp [hrow_current]) hfirst
  have hsecond' := unfoldsRow_rotate entered hparent (a := current) (by simp [hrow_current]) hsecond
  have hbeside' := unfoldsRow_rotate entered hparent (a := p) (by simp [hrow_p, padSole]) hbeside
  rw [rotate_eq hrow_current hrow_p, List.map_nil, List.append_nil] at hfirst' hsecond' hbeside' ⊢
  refine .node (?_ : _ = some (_, [first, some p])) (hfirst'.append (.tree ?_ .nil))
  · rw [located_setSlots_other hne]
    exact located_setSlots_self hcurrent _
  · refine .node (?_ : _ = some (_, [second, some id])) (hsecond'.append hbeside')
    apply located_setSlots_self
    rwa [located_setSlots_other hne.symm]

/-- The node that is entered below a waiting parent comes to stand above it. -/
theorem turn_rotate (entered : Entered m h others current) {p : NodeId}
    (hparent : m.parent = some p) {l : Located α} {slots : List Slot} {above : Row (Located α)}
    (ht : Unfolds h.located current t) (hp : h.located p = some (l, none :: slots))
    (habove : UnfoldsRow h.located slots above)
    (hfit : Fit [some (.node l (some t :: above))]) :
    ∃ left, TurnSpec m (some (.node l (some t :: above))) (settleParent m h current) left 0 1 := by
  obtain ⟨n, row, hn, hrow, rfl⟩ := unfolds_located_iff.1 ht
  have hslots : n.slots ≠ [] := by
    rw [← slotsOf_eq hn]
    exact entered.slotsOf_current
  have hchildren : row ≠ [] := by
    rw [← List.length_pos_iff, hrow.length_eq, List.length_pos_iff]
    exact hslots
  obtain ⟨id, r, rfl, rfl⟩ := loaded_of_fit hfit hchildren habove
  have hpropped := (fit_node.1 (fit_cons.1 (fit_node.1 hfit).2).1).1.2
  obtain ⟨first, second, f, g, hpad, hfirst, hsecond, hpair⟩ :=
    padSole_pair hslots hpropped.1 hrow
  have hloaded : isLoaded h p := by
    have hexclusive := (entered.owned_parent hparent).isExclusive_iff.2
      (entered.ready.sole p hparent)
    simp [isLoaded, hexclusive, slotsOf_of_located hp]
  rw [settleParent_loaded hparent hloaded]
  refine ⟨_, .alone entered.current_eq rfl
    (unfolds_rotate entered hparent (located_eq hn) hpad hp hfirst hsecond habove), ?_, rfl, rfl⟩
  simpa [hparent] using Turn.rotate l _ r hpair

theorem turn_settle (entered : Entered m h others current) (hstanding : m.Standing h s)
    (hfit : Fit [s]) : ∃ left r, TurnSpec m s (settleParent m h current) left 0 r := by
  cases hstanding with
  | done hnone => simp [entered.current_eq] at hnone
  | alone hcurrent hparent ht =>
      rw [settleParent_idle hparent]
      refine ⟨_, 0, .alone hcurrent hparent ht, ?_, rfl, rfl⟩
      simpa [hparent] using Turn.idle _
  | below hcurrent hparent ht hp habove =>
      obtain rfl := Option.some.inj (entered.current_eq.symm.trans hcurrent)
      obtain ⟨left, spec⟩ := turn_rotate entered hparent ht hp habove hfit
      exact ⟨left, 1, spec⟩

/-! ## Going on -/

/-- The other nodes below a node that is the machine's alone do not see a change of it. -/
theorem unfoldsRow_of_settled (settled : Settled m h others current) {k : Heap α}
    (hother : ∀ id, id ≠ current → k.get? id = h.get? id)
    (hrow : UnfoldsRow h.located (h.slotsOf current) row) :
    UnfoldsRow k.located (h.slotsOf current) row :=
  unfoldsRow_of_sole settled.owned settled.sole hother (fun _ hb => hb) hrow

/-- A descent leaves the tree as it is. -/
theorem turn_down (settled : Settled m h others current) (ht : Unfolds h.located current t)
    {left : NodeId} {rest : List Slot} (hcur : h.slotsOf current = some left :: rest) :
    TurnSpec m (some t) (proceed m h current) (some t) 1 0 := by
  obtain ⟨n, row, hn, hrow, rfl⟩ := unfolds_located_iff.1 ht
  have hlocated := located_eq hn
  rw [← slotsOf_eq hn] at hrow hlocated
  have hother : ∀ id, id ≠ current → (h.setSlots current (none :: rest)).get? id = h.get? id :=
    fun id hid => by simp [get?_setSlots, hid]
  have hrow' := unfoldsRow_of_settled settled hother hrow
  rw [proceed_down hcur]
  rw [hcur] at hrow'
  cases hrow' with
  | tree ht' hrest' =>
      refine ⟨.below rfl rfl ht' (located_setSlots_self hlocated _) hrest', ?_, rfl, rfl⟩
      simpa [settled.parent_eq] using Turn.down _ _ _

/-- A node with nothing in the first of two slots is dropped. -/
theorem turn_right (settled : Settled m h others current) (ht : Unfolds h.located current t)
    (hfit : Fit [some t]) {right : Slot} (hcur : h.slotsOf current = [none, right]) :
    ∃ left, TurnSpec m (some t) (proceed m h current) left 1 0 := by
  obtain ⟨n, row, hn, hrow, rfl⟩ := unfolds_located_iff.1 ht
  obtain ⟨⟨hcount, -⟩, -⟩ := fit_node.1 hfit
  have hvacated : (h.setSlots current [none, none]).get? current =
      some { n with slots := [none, none] } := by
    simp [get?_setSlots, hn]
  have hrelease := release_bare hvacated (by simp [hcount.le]) rfl
  have hother : ∀ id, id ≠ current →
      ((h.setSlots current [none, none]).free current).get? id = h.get? id :=
    fun id hid => by simp [get?_free_other hid, get?_setSlots, hid]
  rw [← slotsOf_eq hn] at hrow
  have hrow' := unfoldsRow_of_settled settled hother hrow
  rw [proceed_right hcur, hrelease]
  rw [hcur] at hrow'
  have hturn := fun s => Turn.right (⟨current, n.count, n.value⟩ : Located α) s
  cases hrow' with
  | hole hrest' =>
      cases hrest' with
      | hole hnil =>
          cases hnil
          refine ⟨none, .done rfl, ?_, rfl, rfl⟩
          simpa [settled.parent_eq] using hturn none
      | tree ht' hnil =>
          cases hnil
          refine ⟨some _, .alone rfl settled.parent_eq ht', ?_, rfl, rfl⟩
          simpa [settled.parent_eq] using hturn (some _)

/-- In a row of at most two slots the only gap to close is a sole hole. -/
theorem turn_close (settled : Settled m h others current) (ht : Unfolds h.located current t)
    (hfit : Fit [some t]) (hslots : h.slotsOf current ≠ [])
    (hleft : ∀ left rest, h.slotsOf current ≠ some left :: rest)
    (hright : ∀ right, h.slotsOf current ≠ [none, right]) :
    ∃ left, TurnSpec m (some t) (proceed m h current) left 1 0 := by
  obtain ⟨n, row, hn, hrow, rfl⟩ := unfolds_located_iff.1 ht
  have hpropped := (fit_node.1 hfit).1.2
  rw [← slotsOf_eq hn] at hrow
  have hlength : (h.slotsOf current).length ≤ 2 := hrow.length_eq ▸ hpropped.1
  have hhole : h.slotsOf current = [none] := by
    match hcur : h.slotsOf current with
    | [] => exact absurd hcur hslots
    | some left :: rest => exact absurd hcur (hleft left rest)
    | [none] => rfl
    | [none, right] => exact absurd hcur (hright right)
    | none :: _ :: _ :: _ => simp [hcur] at hlength
  rw [hhole] at hrow
  cases hrow with
  | hole hnil =>
      cases hnil
      rw [proceed_close hleft hright, hhole]
      have hlocated := located_setSlots_self (located_eq hn) []
      refine ⟨some (.node _ []), .alone settled.current_eq settled.parent_eq (.node hlocated .nil),
        ?_, rfl, rfl⟩
      simpa [settled.parent_eq] using Turn.close _

theorem turn_proceed (settled : Settled m h others current) (ht : Unfolds h.located current t)
    (hfit : Fit [some t]) (hslots : h.slotsOf current ≠ []) :
    ∃ left, TurnSpec m (some t) (proceed m h current) left 1 0 := by
  rcases row_cases (h.slotsOf current) with ⟨left, rest, hcur⟩ | ⟨right, hcur⟩ | ⟨hleft, hright⟩
  · exact ⟨some t, turn_down settled ht hcur⟩
  · exact turn_right settled ht hfit hcur
  · exact turn_close settled ht hfit hslots hleft hright

/-! ## Steps -/

theorem TurnsSpec.refl (hstanding : m.Standing h s) : TurnsSpec m s ⟨m, h, []⟩ s 0 0 :=
  ⟨hstanding, .refl _, rfl, rfl⟩

/-- A step on the heap is one on the tree that is left. -/
theorem advance_turns (owned : h.Owned (m.held ++ others)) (ready : m.Ready h)
    (hcurrent : m.current = some current) (hstanding : m.Standing h s) (hfit : Fit [s]) :
    ∃ left r, TurnsSpec m s (advance m h current) left 1 r := by
  rcases h.enter?_cases current with hrefused | hentered
  · obtain ⟨left, spec⟩ := turn_refused owned hcurrent hrefused hstanding hfit
    exact ⟨left, 0, spec.standing, .single spec.turn, spec.steps_eq, spec.rotations_eq⟩
  · have entered := entered_of_enter? owned ready hcurrent hentered
    have hsettle := settleParent_spec entered
    -- Two turns: a waiting parent is settled, then the machine goes on.
    obtain ⟨left, r, hfirst⟩ := turn_settle entered (hstanding.recount _) hfit
    rw [advance_entered hentered rfl]
    cases hfirst.standing with
    | done hnone => simp [hsettle.current_eq] at hnone
    | below _ hparent => simp [hsettle.parent_eq] at hparent
    | alone hsome hparent ht =>
        obtain rfl := Option.some.inj (hsettle.current_eq.symm.trans hsome)
        obtain ⟨rest, hsecond⟩ := turn_proceed hsettle.settled ht (hfirst.turn.fit hfit)
          (hsettle.slotsOf_ne_nil entered)
        refine ⟨rest, r, hsecond.standing, ?_, ?_, ?_⟩
        · exact .head hfirst.turn (.single hsecond.turn)
        · rw [hsecond.steps_eq, hfirst.steps_eq]
        · rw [hsecond.rotations_eq, hfirst.rotations_eq, Nat.add_zero]

theorem runFor_turns (budget : Nat) (owned : h.Owned (m.held ++ others)) (ready : m.Ready h)
    (hstanding : m.Standing h s) (hfit : Fit [s]) :
    ∃ left n r, TurnsSpec m s (runFor budget m h) left n r := by
  induction budget generalizing m h s with
  | zero => exact ⟨s, 0, 0, .refl hstanding⟩
  | succ budget ih =>
      cases hcurrent : m.current with
      | none =>
          rw [runFor_of_done hcurrent]
          exact ⟨s, 0, 0, .refl hstanding⟩
      | some current =>
          have hkept := advance_kept owned ready hcurrent
          obtain ⟨left, r, hfirst⟩ := advance_turns owned ready hcurrent hstanding hfit
          obtain ⟨rest, k, q, hrest⟩ :=
            ih hkept.owned hkept.ready hfirst.standing (hfirst.turns.fit hfit)
          rw [runFor_succ hcurrent]
          refine ⟨rest, 1 + k, r + q, hrest.standing, hfirst.turns.trans hrest.turns, ?_, ?_⟩
          · rw [hrest.steps_eq, hfirst.steps_eq, Nat.add_assoc]
          · rw [hrest.rotations_eq, hfirst.rotations_eq, Nat.add_assoc]

/-- A run takes the tree apart until nothing is left. -/
theorem run_turns (owned : h.Owned (m.held ++ others)) (ready : m.Ready h)
    (hstanding : m.Standing h s) (hfit : Fit [s]) :
    ∃ n r, Turns ⟨m.parent.isSome, s⟩ (Event.releasedIn (m.run h).2.2) n r ⟨false, none⟩ ∧
      (m.run h).1.steps = m.steps + n ∧ (m.run h).1.rotations = m.rotations + r := by
  obtain ⟨left, n, r, hrun⟩ := runFor_turns (budget h) owned ready hstanding hfit
  have hdone := runFor_done owned ready (workload_le_budget m h)
  have hheld := (runFor_kept (budget h) owned ready).ready.held_eq_nil hdone
  have hparent : (runFor (budget h) m h).machine.parent = none := by
    simpa [held, hdone] using hheld
  have hturns := hrun.turns
  rw [hparent] at hturns
  rw [(run_eq m h).1, (run_eq m h).2.2]
  cases hrun.standing with
  | done => exact ⟨n, r, hturns, hrun.steps_eq, hrun.rotations_eq⟩
  | alone hcurrent => simp [hdone] at hcurrent
  | below hcurrent => simp [hdone] at hcurrent

end Dismantler

end SlotTree
