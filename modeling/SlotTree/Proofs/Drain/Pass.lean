import SlotTree.Proofs.Drain.Shallow
import Mathlib.Algebra.Order.BigOperators.Group.List
import Mathlib.Algebra.Order.Ring.Nat

/-! # One pass of a drain

A pass keeps the heap owned, is not seen by those who reach nothing through the root, and leaves one
node more without slots. It runs by the rules as long as it may go down far enough, which is as far
as the root is high.
-/

namespace SlotTree.Heap

universe u

variable {α : Type u} {h k : Heap α} {holders : List NodeId} {root cursor : NodeId}

open List

/-! ## What a pop keeps -/

/-- A node that the holders reach through the root only, or the root itself. -/
def Behind (h : Heap α) (holders : List NodeId) (root id : NodeId) : Prop :=
  id = root ∨ ¬ (h.setSlots root []).Reached holders id

/-- Behind the root stays what an exclusive handle leads to. -/
theorem Behind.descend (hbehind : h.Behind holders root cursor) (owned : h.Owned holders)
    {next : NodeId} (hedge : h.Edge cursor next) (hone : h.countOf next = 1) :
    h.Behind holders root next := by
  obtain ⟨hheld, honly⟩ := owned.of_edge_sole hedge hone
  refine .inr fun hnext => ?_
  rcases hnext.mem_or_edge with hmem | ⟨a, ha, hedge'⟩
  · exact hheld hmem
  · obtain ⟨hroot, hedge'⟩ := edge_setSlots_nil.1 hedge'
    obtain rfl := honly a hedge'
    rcases hbehind with heq | hclear
    · exact hroot heq
    · exact hclear ha

theorem Behind.unseen {values : List α} (hbehind : h.Behind holders root cursor)
    (unseen : Unseen holders (h.setSlots root []) (k.setSlots root []) values) :
    k.Behind holders root cursor :=
  hbehind.imp_right fun hclear hreach => hclear ((unseen.reached_iff cursor).1 hreach)

namespace Pop

variable {p : Pop α}

/-- What survives a pop keeps its content, save the row of the cursor. -/
theorem content?_result {id : NodeId} (hid : p.result.1.Live id) :
    p.result.1.content? id = (p.heap.setSlots p.cursor p.rest).content? id :=
  content?_release hid

theorem edge_of_result {a b : NodeId} (hedge : p.result.1.Edge a b) : p.heap.Edge a b := by
  have hcontent := content?_result hedge.live
  rw [Edge, slotsOf_congr hcontent] at hedge
  rcases edge_setSlots hedge with ⟨rfl, hb⟩ | ⟨-, hedge⟩
  · exact List.dropLast_subset _ hb
  · exact hedge

theorem size_result : p.result.1.cells.size = p.heap.cells.size := by
  rw [result, releaseSlot, size_release, size_setSlots]

/-- Those who reach nothing through the root see nothing of a pop behind it. -/
theorem unseen (owned : p.heap.Owned holders)
    (hlast : (p.heap.slotsOf p.cursor).getLast? = some p.slot)
    (hbehind : p.heap.Behind holders root p.cursor) :
    Unseen holders (p.heap.setSlots root []) (p.result.1.setSlots root []) p.result.2 := by
  have hapart : ∀ id, (p.heap.setSlots root []).Reached holders id →
      id ≠ root → id ≠ p.cursor := by
    rintro id hid hroot rfl
    exact hbehind.elim hroot fun hclear => hclear hid
  have hlive : ∀ id, (p.heap.setSlots root []).Reached holders id → p.result.1.Live id := by
    intro id hid
    apply ((owned_taken owned hlast).live_release_iff id).2
    induction hid using Reached.rec_on with
    | held a ha => exact reached_of_mem _ ha
    | edge a b ha hedge ih =>
        obtain ⟨hroot, hedge⟩ := edge_setSlots_nil.1 hedge
        apply ih.edge
        rwa [Edge, slotsOf_setSlots_other _ (hapart a ha hroot)]
  refine ⟨?_, ?_, fun id => ?_, fun id hid => ?_, ?_⟩
  · simp [result, releaseSlot, policy_release]
  · simp [size_result]
  · have hpop := countOf_release_le (p.heap.setSlots p.cursor p.rest) p.slot.toList id
    simpa [result, releaseSlot] using hpop
  · have hcontent := content?_result (hlive id hid)
    by_cases hroot : id = root
    · subst hroot
      rw [content?_setSlots, content?_setSlots, if_pos rfl, if_pos rfl, hcontent,
        content?_setSlots]
      split <;> simp [Function.comp_def]
    · rw [content?_setSlots_other _ hroot, content?_setSlots_other _ hroot, hcontent,
        content?_setSlots_other _ (hapart id hid hroot)]
  · have hleft := (values_setSlots p.result.1 root []).append_left p.result.2
    have hpop := values_release (p.heap.setSlots p.cursor p.rest) p.slot.toList
    have htaken := values_setSlots p.heap p.cursor p.rest
    exact ((hleft.trans hpop).trans htaken).trans (values_setSlots p.heap root []).symm

end Pop

/-! ## What a pass keeps -/

/-- A pass keeps the heap owned and is not seen by those who reach nothing through the root. Each of
its pops meets an owned heap and frees one node at most. -/
structure PassSpec (root : NodeId) (holders : List NodeId) (h : Heap α) (pops : List (Pop α))
    (k : Heap α) : Prop where
  owned : k.Owned holders
  unseen : Unseen holders (h.setSlots root []) (k.setSlots root []) (freedIn pops)
  shallow : ∀ p ∈ pops, p.heap.Owned holders ∧ p.Shallow

theorem PassDerivation.spec {pops : List (Pop α)} (hpass : PassDerivation h cursor pops k)
    (owned : h.Owned holders) (hbehind : h.Behind holders root cursor) :
    PassSpec root holders h pops k := by
  induction hpass with
  | done => exact ⟨owned, .refl _ _, by simp⟩
  | descend hcan hback _ ih =>
      obtain ⟨hlast, hexclusive, -⟩ := enter?_eq_some.1 (enter?_of_backNode? hcan hback)
      refine ih owned (hbehind.descend owned ?_ (owned.isExclusive_iff.1 hexclusive))
      exact List.mem_of_getLast? (Option.join_eq_some_iff.1 hlast)
  | @pop h k cursor s pops hlast hcan _ ih =>
      have hunseen := Pop.unseen (p := ⟨h, cursor, s⟩) owned hlast hbehind
      have hrest := ih (Pop.owned_result owned hlast) (hbehind.unseen hunseen)
      refine ⟨hrest.owned, hunseen.trans hrest.unseen, fun p hp => ?_⟩
      rcases List.mem_cons.1 hp with rfl | hp
      · exact ⟨owned, Pop.shallow owned hlast hcan⟩
      · exact hrest.shallow p hp

theorem PassSpec.live_root {pops : List (Pop α)} (spec : PassSpec root holders h pops k)
    (owned : h.Owned holders) (hroot : h.Live root) : k.Live root := by
  have hreach := (owned.reached_of_live hroot).setSlots_nil_self
  have hcontent := spec.unseen.content_eq root hreach
  rw [← live_setSlots k root [] root, live_iff_content?, hcontent, ← live_iff_content?]
  simpa using hroot

/-! ## Passes by the rules -/

/-- Taking slots off a row in hand is a run of pops with the row in place. -/
structure ShedSpec (holders : List NodeId) (h : Heap α) (cursor : NodeId) (s : Shed α)
    (pops : List (Pop α)) (k : Heap α) : Prop where
  owned : k.Owned holders
  live : k.Live cursor
  row : k.slotsOf cursor = s.left
  hand : s.heap.setSlots cursor [] = s.heap
  edges : ∀ a b, k.Edge a b → h.Edge a b
  size_eq : k.cells.size = h.cells.size
  count : s.pops = pops.length
  values : s.values = freedIn pops
  enter : ∀ next rest, s.stop = some (next, rest) → k.enter? (some next) = some next
  rules : ∀ later l, PassDerivation k cursor later l → PassDerivation h cursor (pops ++ later) l

theorem enter?_setSlots {s : Slot} {row : List Slot} (hs : s ≠ some cursor) :
    (h.setSlots cursor row).enter? s = h.enter? s := by
  cases s with
  | none => rfl
  | some id =>
      have hid : id ≠ cursor := fun heq => hs (congrArg some heq)
      simp only [enter?, Option.filter_some, isExclusive_setSlots, slotsOf_setSlots_other row hid]

theorem shed_spec {slots : List Slot} (owned : h.Owned holders) (hlive : h.Live cursor)
    (hrow : h.slotsOf cursor = slots.reverse) :
    ∃ pops, ShedSpec holders h cursor ((h.setSlots cursor []).shed slots) pops
      (((h.setSlots cursor []).shed slots).heap.setSlots cursor
        ((h.setSlots cursor []).shed slots).left) := by
  induction slots generalizing h with
  | nil =>
      have hleft : (h.setSlots cursor []).setSlots cursor [] = h := by
        rw [setSlots_setSlots, ← hrow.trans List.reverse_nil, setSlots_slotsOf]
      refine ⟨[], ?_⟩
      simp only [shed_nil, Shed.left, hleft]
      exact ⟨owned, hlive, hrow, setSlots_setSlots _ _ _ _, fun _ _ hedge => hedge, rfl, rfl, rfl,
        by simp, fun _ _ hpass => hpass⟩
  | cons s rest ih =>
      rw [List.reverse_cons] at hrow
      have hself : s ≠ some cursor := by
        rintro rfl
        exact owned.not_mem_slotsOf_self cursor (by simp [hrow])
      have henter : (h.setSlots cursor []).enter? s = h.enter? s := enter?_setSlots hself
      cases hs : h.enter? s with
      | some next =>
          obtain ⟨rfl, -, -⟩ := enter?_eq_some.1 hs
          have hleft : (h.setSlots cursor []).setSlots cursor (some next :: rest).reverse = h := by
            rw [setSlots_setSlots, List.reverse_cons, ← hrow, setSlots_slotsOf]
          refine ⟨[], ?_⟩
          rw [hs] at henter
          simp only [shed_enter henter, Shed.left, hleft]
          refine ⟨owned, hlive, by simp [hrow, Shed.left], setSlots_setSlots _ _ _ _,
            fun _ _ hedge => hedge, rfl, rfl, rfl, fun next' rest' hstop => ?_,
            fun _ _ hpass => hpass⟩
          simp only [Option.some.injEq, Prod.mk.injEq] at hstop
          rw [← hstop.1, hs]
      | none =>
          have hlast : (h.slotsOf cursor).getLast? = some s := by simp [hrow]
          have hcan : ¬ h.canDescend (h.slotsOf cursor) := by
            rw [canDescend_iff, hlast, Option.join_some, hs]
            simp
          rw [hs] at henter
          have hrest : Pop.rest ⟨h, cursor, s⟩ = rest.reverse := by simp [Pop.rest, hrow]
          -- The pop happens with the row in hand; with the row in place it comes to the same.
          obtain ⟨k, hk, hany⟩ := Pop.result_any_row (p := ⟨h, cursor, s⟩) owned hlast hcan
          have hresult : (Pop.result ⟨h, cursor, s⟩).1 = k.setSlots cursor rest.reverse := by
            rw [← hrest]
            exact congrArg Prod.fst (hany _)
          have hhand : (h.setSlots cursor []).releaseSlot s =
              ((k.setSlots cursor rest.reverse).setSlots cursor [],
                (Pop.result ⟨h, cursor, s⟩).2) := by
            rw [setSlots_setSlots]
            exact hany []
          have howned := Pop.owned_result (p := ⟨h, cursor, s⟩) owned hlast
          rw [hresult] at howned
          obtain ⟨pops, spec⟩ := ih howned (by simpa using hk) (slotsOf_setSlots_self _ hk)
          have hleft : ((h.setSlots cursor []).shed (s :: rest)).left =
              (((k.setSlots cursor rest.reverse).setSlots cursor []).shed rest).left := by
            simp only [shed_refused henter, hhand, Shed.left]
          refine ⟨⟨h, cursor, s⟩ :: pops, ?_⟩
          rw [hleft]
          simp only [shed_refused henter, hhand]
          refine ⟨spec.owned, spec.live, spec.row, spec.hand, fun a b hedge => ?_, ?_, ?_, ?_,
            spec.enter, fun later l hpass => ?_⟩
          · refine Pop.edge_of_result (p := ⟨h, cursor, s⟩) ?_
            rw [hresult]
            exact spec.edges a b hedge
          · rw [spec.size_eq, ← hresult, Pop.size_result]
          · rw [spec.count, List.length_cons]
          · rw [spec.values, freedIn, freedIn, List.flatMap_cons]
          · refine .pop hlast hcan ?_
            rw [hresult]
            exact spec.rules later l hpass

/-- The cursor's row ends with the slot that stopped the popping. -/
theorem ShedSpec.enter_last {s : Shed α} {pops : List (Pop α)}
    (spec : ShedSpec holders h cursor s pops k) {next : NodeId} {rest : List Slot}
    (hstop : s.stop = some (next, rest)) :
    k.enter? (k.slotsOf cursor).getLast?.join = some next := by
  have hlast : (k.slotsOf cursor).getLast? = some (some next) := by
    rw [spec.row, Shed.left, hstop]
    simp
  rw [hlast, Option.join_some]
  exact spec.enter next rest hstop

theorem PassDerivation.of_enter {pops : List (Pop α)} {next : NodeId}
    (hnext : h.enter? (h.slotsOf cursor).getLast?.join = some next)
    (hpass : PassDerivation h next pops k) : PassDerivation h cursor pops k :=
  .descend (canDescend_iff.2 ⟨next, hnext⟩) (backNode?_of_enter? hnext) hpass

theorem edge_of_enter? {next : NodeId}
    (hnext : h.enter? (h.slotsOf cursor).getLast?.join = some next) : h.Edge cursor next :=
  List.mem_of_getLast? (Option.join_eq_some_iff.1 (enter?_eq_some.1 hnext).1)

/-- A pass that may go down as far as its cursor is high follows the rules. -/
theorem drainPass_derivation {depth : Nat} (owned : h.Owned holders) (hlive : h.Live cursor)
    (hdepth : h.height cursor ≤ depth) :
    ∃ pops, PassDerivation h cursor pops (drainPass depth h cursor).heap ∧
      (drainPass depth h cursor).values = freedIn pops ∧
      (drainPass depth h cursor).pops = pops.length := by
  -- Induction on the depth: each descent leads to a lower node, also after some pops.
  induction depth generalizing h cursor with
  | zero =>
      have := hlive.height_pos
      omega
  | succ depth ih =>
      cases hnext : h.enter? (h.slotsOf cursor).getLast?.join with
      | some next =>
          have hedge := edge_of_enter? hnext
          have hlt := owned.acyclic.height_lt hedge
          obtain ⟨pops, hpass, hvalues, hcount⟩ :=
            ih owned (owned.live_of_edge hedge) (by omega)
          rw [drainPass_enter hnext]
          exact ⟨pops, .of_enter hnext hpass, hvalues, hcount⟩
      | none =>
          have hreverse : h.slotsOf cursor = (h.slotsOf cursor).reverse.reverse :=
            (List.reverse_reverse _).symm
          obtain ⟨pops, spec⟩ := shed_spec owned hlive hreverse
          generalize hs : (h.setSlots cursor []).shed (h.slotsOf cursor).reverse = s at spec
          cases hstop : s.stop with
          | none =>
              have hleft : s.left = [] := by rw [Shed.left, hstop]
              have hpass := spec.rules [] _ (.done (spec.row.trans hleft))
              rw [List.append_nil, hleft, spec.hand] at hpass
              rw [drainPass_done hnext hs hstop]
              exact ⟨pops, hpass, spec.values, spec.count⟩
          | some stop =>
              obtain ⟨next, rest⟩ := stop
              have hlast := spec.enter_last hstop
              have hedge := edge_of_enter? hlast
              have hlt := spec.owned.acyclic.height_lt hedge
              have hle := height_le_of_edge spec.size_eq fun a b (_ : h.Reaches cursor a) =>
                spec.edges a b
              obtain ⟨later, hpass, hvalues, hcount⟩ :=
                ih spec.owned (spec.owned.live_of_edge hedge) (by omega)
              rw [drainPass_stop hnext hs hstop]
              refine ⟨pops ++ later, spec.rules later _ (.of_enter hlast hpass), ?_, ?_⟩
              · simp only [hvalues, spec.values, freedIn, List.flatMap_append]
              · simp only [hcount, spec.count, List.length_append]

/-! ## The passes come to an end -/

/-- The number of live nodes with slots. -/
def laden (h : Heap α) : Nat := h.weigh fun n => if n.slots = [] then 0 else 1

theorem laden_le_size (h : Heap α) : h.laden ≤ h.cells.size := by
  have hle : ∀ x ∈ h.cells.toList.map fun cell =>
      (cell.map fun n : Node α => if n.slots = [] then 0 else 1).getD 0, x ≤ 1 := by
    intro x hx
    obtain ⟨cell, -, rfl⟩ := List.mem_map.1 hx
    cases cell with
    | none => simp
    | some n =>
        simp only [Option.map_some, Option.getD_some]
        split <;> omega
  simpa [laden, weigh_eq_sum] using List.sum_le_card_nsmul _ 1 hle

theorem laden_pos {n : Node α} (hn : h.get? cursor = some n) (hrow : n.slots ≠ []) :
    0 < h.laden := by
  have := le_weigh hn fun n => if n.slots = [] then 0 else 1
  simp only [hrow, if_false] at this
  exact this

theorem laden_setSlots (hlive : h.Live cursor) (row : List Slot) :
    (h.setSlots cursor row).laden + (if h.slotsOf cursor = [] then 0 else 1) =
      h.laden + (if row = [] then 0 else 1) := by
  obtain ⟨n, hn⟩ := live_iff.1 hlive
  simpa [laden, setSlots, hn, slotsOf_eq hn] using
    weigh_put hn (fun n => if n.slots = [] then 0 else 1) { n with slots := row }

theorem Pop.laden_result {p : Pop α}
    (hlast : (p.heap.slotsOf p.cursor).getLast? = some p.slot) :
    p.result.1.laden + 1 ≤ p.heap.laden + (if p.rest = [] then 0 else 1) := by
  have hrow : p.heap.slotsOf p.cursor ≠ [] := by
    rw [Pop.slotsOf_cursor hlast]
    simp
  have hset := laden_setSlots (Pop.live_cursor hlast) p.rest
  rw [if_neg hrow] at hset
  have hrelease := weigh_release_le (f := fun n : Node α => if n.slots = [] then 0 else 1)
    (fun _ _ => rfl) (p.heap.setSlots p.cursor p.rest) p.slot.toList
  change p.result.1.laden ≤ _ at hrelease
  change _ ≤ Heap.laden _ at hrelease
  omega

theorem PassDerivation.laden_le {pops : List (Pop α)} (hpass : PassDerivation h cursor pops k) :
    k.laden ≤ h.laden := by
  induction hpass with
  | done => exact le_refl _
  | descend _ _ _ ih => exact ih
  | @pop h k cursor s pops hlast hcan _ ih =>
      have := Pop.laden_result (p := ⟨h, cursor, s⟩) hlast
      dsimp only at this
      split at this <;> omega

/-- A pass from a node with slots leaves one node more without slots. -/
theorem PassDerivation.laden_lt {pops : List (Pop α)} (hpass : PassDerivation h cursor pops k)
    (owned : h.Owned holders) (hrow : h.slotsOf cursor ≠ []) : k.laden < h.laden := by
  induction hpass with
  | done hrow' => exact absurd hrow' hrow
  | descend hcan hback _ ih =>
      exact ih owned (enter?_eq_some.1 (enter?_of_backNode? hcan hback)).2.2
  | @pop h k cursor s pops hlast hcan hrest ih =>
      have hpop := Pop.laden_result (p := ⟨h, cursor, s⟩) hlast
      have hle := hrest.laden_le
      have howned := Pop.owned_result (p := ⟨h, cursor, s⟩) owned hlast
      -- Either this pop clears the cursor, or the rest of the pass starts with slots again.
      by_cases hempty : Pop.rest ⟨h, cursor, s⟩ = []
      · rw [if_pos hempty] at hpop
        dsimp only at hpop
        omega
      · have hlt := ih howned (by rwa [Pop.slotsOf_result owned hlast hcan])
        rw [if_neg hempty] at hpop
        dsimp only at hpop
        omega

end SlotTree.Heap
