import SlotTree.Proofs.Heap.Update
import Mathlib.Data.Finset.Card
import Mathlib.Logic.Relation

/-! # The graph of handles

Handles lead from the live nodes that hold them in slots to other nodes. Where no path comes back,
the number of nodes below a node falls along every handle, which serves as a measure both downwards
and upwards.
-/

namespace SlotTree.Heap

universe u

variable {α : Type u}

open Relation

/-- A live node holds a handle to another in one of its slots. -/
def Edge (h : Heap α) (a b : NodeId) : Prop := some b ∈ h.slotsOf a

/-- Handles lead from one node to another. -/
def Reaches (h : Heap α) : NodeId → NodeId → Prop := ReflTransGen h.Edge

/-- Handles lead to a node from one of the holders. -/
def Reached (h : Heap α) (holders : List NodeId) (id : NodeId) : Prop :=
  ∃ a ∈ holders, h.Reaches a id

/-- No path along handles comes back to its start. -/
def Acyclic (h : Heap α) : Prop := ∀ id, ¬ TransGen h.Edge id id

theorem Reaches.refl {h : Heap α} {id : NodeId} : h.Reaches id id := ReflTransGen.refl

theorem Edge.live {h : Heap α} {a b : NodeId} (hedge : h.Edge a b) : h.Live a := by
  by_contra hdead
  simp [Edge, slotsOf_of_not_live hdead] at hedge

theorem edge_of_get? {h : Heap α} {a b : NodeId} {n : Node α} (hn : h.get? a = some n) :
    h.Edge a b ↔ some b ∈ n.slots := by
  rw [Edge, slotsOf_eq hn]

/-- A node has handles to it in slots exactly if some node leads to it. -/
theorem handlesTo_pos_iff {h : Heap α} {b : NodeId} : 0 < h.handlesTo b ↔ ∃ a, h.Edge a b := by
  constructor
  · intro hpos
    obtain ⟨a, n, hn, hcount⟩ := exists_of_weigh_pos hpos
    exact ⟨a, (edge_of_get? hn).2 (List.count_pos_iff.1 hcount)⟩
  · rintro ⟨a, hedge⟩
    exact (List.count_pos_iff.2 hedge).trans_le (count_le_handlesTo h a b)

/-- A single handle in slots has a single node that holds it. -/
theorem Edge.eq_of_handlesTo_le_one {h : Heap α} {a c b : NodeId} (ha : h.Edge a b)
    (hc : h.Edge c b) (hone : h.handlesTo b ≤ 1) : c = a := by
  by_contra hne
  obtain ⟨m, hm⟩ := live_iff.1 ha.live
  obtain ⟨n, hn⟩ := live_iff.1 hc.live
  have hcount := add_le_weigh (Ne.symm hne) hm hn fun n => n.slots.count (some b)
  have hma := List.count_pos_iff.2 ((edge_of_get? hm).1 ha)
  have hnc := List.count_pos_iff.2 ((edge_of_get? hn).1 hc)
  change _ ≤ h.handlesTo b at hcount
  omega

theorem Reached.mono {h : Heap α} {holders more : List NodeId} {id : NodeId}
    (hreach : h.Reached holders id) (hsub : holders ⊆ more) : h.Reached more id := by
  obtain ⟨a, ha, hpath⟩ := hreach
  exact ⟨a, hsub ha, hpath⟩

theorem Reached.edge {h : Heap α} {holders : List NodeId} {a b : NodeId}
    (hreach : h.Reached holders a) (hedge : h.Edge a b) : h.Reached holders b := by
  obtain ⟨c, hc, hpath⟩ := hreach
  exact ⟨c, hc, hpath.tail hedge⟩

theorem reached_of_mem (h : Heap α) {holders : List NodeId} {id : NodeId} (hid : id ∈ holders) :
    h.Reached holders id :=
  ⟨id, hid, .refl⟩

/-- What is reached is held directly, or below a reached node. -/
theorem Reached.mem_or_edge {h : Heap α} {holders : List NodeId} {id : NodeId}
    (hreach : h.Reached holders id) : id ∈ holders ∨ ∃ a, h.Reached holders a ∧ h.Edge a id := by
  obtain ⟨c, hc, hpath⟩ := hreach
  cases hpath with
  | refl => exact .inl hc
  | tail hpath hedge => exact .inr ⟨_, ⟨c, hc, hpath⟩, hedge⟩

/-- Induction from the holders along handles. -/
@[elab_as_elim]
theorem Reached.rec_on {h : Heap α} {holders : List NodeId}
    {motive : (id : NodeId) → h.Reached holders id → Prop} {id : NodeId}
    (hreach : h.Reached holders id)
    (held : ∀ a (ha : a ∈ holders), motive a (reached_of_mem h ha))
    (edge : ∀ a b (ha : h.Reached holders a) (hab : h.Edge a b),
      motive a ha → motive b (ha.edge hab)) : motive id hreach := by
  obtain ⟨c, hc, hpath⟩ := hreach
  induction hpath with
  | refl => exact held c hc
  | tail hpath hab ih => exact edge _ _ ⟨c, hc, hpath⟩ hab ih

/-! ## Paths after an exchange of slots -/

theorem edge_setSlots_nil {h : Heap α} {id a b : NodeId} :
    (h.setSlots id []).Edge a b ↔ a ≠ id ∧ h.Edge a b := by
  by_cases ha : a = id <;> simp [Edge, slotsOf_setSlots_nil, ha]

theorem edge_setSlots {h : Heap α} {id a b : NodeId} {slots : List Slot}
    (hedge : (h.setSlots id slots).Edge a b) :
    (a = id ∧ some b ∈ slots) ∨ (a ≠ id ∧ h.Edge a b) := by
  by_cases ha : a = id
  · subst ha
    have hlive : h.Live a := (live_setSlots h a slots a).1 hedge.live
    rw [Edge, slotsOf_setSlots_self slots hlive] at hedge
    exact .inl ⟨rfl, hedge⟩
  · rw [Edge, slotsOf_setSlots_other slots ha] at hedge
    exact .inr ⟨ha, hedge⟩

theorem Reaches.of_setSlots_nil {h : Heap α} {id a b : NodeId}
    (hpath : (h.setSlots id []).Reaches a b) : h.Reaches a b :=
  ReflTransGen.mono (fun _ _ hedge => (edge_setSlots_nil.1 hedge).2) _ _ hpath

/-- A path either keeps clear of a node or comes to it. -/
theorem Reached.setSlots_nil_or {h : Heap α} {holders : List NodeId} {id other : NodeId}
    (hreach : h.Reached holders other) :
    (h.setSlots id []).Reached holders other ∨ (h.setSlots id []).Reached holders id := by
  induction hreach using Reached.rec_on with
  | held a ha => exact .inl (reached_of_mem _ ha)
  | edge a b _ hedge ih =>
      rcases ih with hclear | hid
      · by_cases ha : a = id
        · exact .inr (ha ▸ hclear)
        · exact .inl (hclear.edge (edge_setSlots_nil.2 ⟨ha, hedge⟩))
      · exact .inr hid

theorem Reached.setSlots_nil_self {h : Heap α} {holders : List NodeId} {id : NodeId}
    (hreach : h.Reached holders id) : (h.setSlots id []).Reached holders id :=
  hreach.setSlots_nil_or.elim (fun hself => hself) fun hself => hself

/-! ## Graphs without cycles -/

theorem Acyclic.mono {h k : Heap α} (hacyclic : h.Acyclic)
    (hedge : ∀ a b, k.Edge a b → h.Edge a b) : k.Acyclic :=
  fun id hcycle => hacyclic id (TransGen.mono hedge _ _ hcycle)

theorem Acyclic.not_reaches {h : Heap α} (hacyclic : h.Acyclic) {a b : NodeId}
    (hedge : h.Edge a b) : ¬ h.Reaches b a :=
  fun hpath => hacyclic a (TransGen.head' hedge hpath)

theorem Acyclic.setSlots_nil {h : Heap α} (hacyclic : h.Acyclic) (id : NodeId) :
    (h.setSlots id []).Acyclic :=
  hacyclic.mono fun _ _ hedge => (edge_setSlots_nil.1 hedge).2

/-- New slots close no cycle if none of the nodes that come below leads back. -/
theorem Acyclic.setSlots {h : Heap α} (hacyclic : h.Acyclic) {id : NodeId} {slots : List Slot}
    (hback : ∀ b, some b ∈ slots → some b ∉ h.slotsOf id → ¬ h.Reaches b id) :
    (h.setSlots id slots).Acyclic := by
  have hclear : ∀ b, some b ∈ slots → ¬ (h.setSlots id []).Reaches b id := by
    intro b hb hpath
    by_cases hold : some b ∈ h.slotsOf id
    · exact hacyclic.not_reaches hold hpath.of_setSlots_nil
    · exact hback b hb hold hpath.of_setSlots_nil
  -- A path keeps clear of the node, or is cut where it leaves the node for the last time.
  have hsplit : ∀ x y, TransGen (h.setSlots id slots).Edge x y →
      TransGen (h.setSlots id []).Edge x y ∨
      ∃ b, some b ∈ slots ∧ (h.setSlots id []).Reaches x id ∧
        (h.setSlots id []).Reaches b y := by
    intro x y hpath
    induction hpath with
    | single hedge =>
        rcases edge_setSlots hedge with ⟨rfl, hb⟩ | hother
        · exact .inr ⟨_, hb, .refl, .refl⟩
        · exact .inl (.single (edge_setSlots_nil.2 hother))
    | tail _ hedge ih =>
        rcases edge_setSlots hedge with ⟨rfl, hb⟩ | hother
        · rcases ih with ih | ⟨_, _, hx, _⟩
          · exact .inr ⟨_, hb, ih.to_reflTransGen, .refl⟩
          · exact .inr ⟨_, hb, hx, .refl⟩
        · rcases ih with ih | ⟨b, hb, hx, hy⟩
          · exact .inl (ih.tail (edge_setSlots_nil.2 hother))
          · exact .inr ⟨b, hb, hx, hy.tail (edge_setSlots_nil.2 hother)⟩
  intro x hcycle
  rcases hsplit x x hcycle with hcycle | ⟨b, hb, hx, hy⟩
  · exact hacyclic.setSlots_nil id x hcycle
  · exact hclear b hb (hy.trans hx)

open Classical in
/-- The number of nodes that can be reached from a node. -/
noncomputable def height (h : Heap α) (id : NodeId) : Nat :=
  ((Finset.range h.cells.size).filter (h.Reaches id)).card

theorem height_le_size (h : Heap α) (id : NodeId) : h.height id ≤ h.cells.size := by
  classical
  simpa [height] using Finset.card_filter_le (Finset.range h.cells.size) (h.Reaches id)

theorem Live.height_pos {h : Heap α} {id : NodeId} (hid : h.Live id) : 0 < h.height id := by
  classical
  exact Finset.card_pos.2 ⟨id, by simp [hid.lt_size, Reaches.refl]⟩

theorem Acyclic.height_lt {h : Heap α} (hacyclic : h.Acyclic) {a b : NodeId}
    (hedge : h.Edge a b) : h.height b < h.height a := by
  classical
  refine Finset.card_lt_card (Finset.ssubset_iff_of_subset ?_ |>.2 ⟨a, ?_, ?_⟩)
  · intro c hc
    simp only [Finset.mem_filter] at hc ⊢
    exact ⟨hc.1, ReflTransGen.head hedge hc.2⟩
  · simp [hedge.live.lt_size, Reaches.refl]
  · simpa using fun _ => hacyclic.not_reaches hedge

/-- Where no node below gains a handle, the height does not grow. -/
theorem height_le_of_edge {h k : Heap α} {id : NodeId} (hsize : k.cells.size = h.cells.size)
    (hedge : ∀ a b, h.Reaches id a → k.Edge a b → h.Edge a b) : k.height id ≤ h.height id := by
  have hpath : ∀ b, k.Reaches id b → h.Reaches id b := by
    intro b hb
    induction hb with
    | refl => exact .refl
    | tail _ hab ih => exact ih.tail (hedge _ _ ih hab)
  apply Finset.card_le_card
  intro b hb
  simp only [Finset.mem_filter, hsize] at hb ⊢
  exact ⟨hb.1, hpath b hb.2⟩

/-- Induction from above: what holds of a node if it holds of all that lead to it. -/
theorem Acyclic.induction {h : Heap α} (hacyclic : h.Acyclic) {P : NodeId → Prop}
    (hstep : ∀ b, (∀ a, h.Edge a b → P a) → P b) (id : NodeId) : P id := by
  induction hk : h.cells.size - h.height id using Nat.strong_induction_on generalizing id with
  | _ k ih =>
      refine hstep id fun a hedge => ih (h.cells.size - h.height a) ?_ a rfl
      have hlt := hacyclic.height_lt hedge
      have hle := height_le_size h a
      omega

end SlotTree.Heap
