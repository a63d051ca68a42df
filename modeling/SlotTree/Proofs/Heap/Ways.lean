import SlotTree.Proofs.Heap.Private
import Mathlib.Data.List.NodupEquivFin

/-! # Ways to nodes

A way to a node starts with a handle in the list of all holders, and goes down by slot indices. A
node with two handles has two ways to it. So a path from a holder leads to a node that may be
changed exactly if it is the only way there.
-/

namespace SlotTree.Heap

universe u v

variable {α : Type u} {h : Heap α} {holders : List NodeId} {root id child target : NodeId}
  {index : Nat} {path : List Nat}

/-! ## Steps -/

theorem childAt_eq_ok :
    h.childAt id index = .ok child ↔ (h.slotsOf id)[index]? = some (some child) := by
  unfold childAt slotAt
  cases (h.slotsOf id)[index]? with
  | none => simp
  | some s => cases s <;> simp

theorem ownChildAt_eq_ok :
    h.ownChildAt id index = .ok child ↔
      (h.slotsOf id)[index]? = some (some child) ∧ h.isExclusive child := by
  constructor
  · intro hok
    refine ⟨?_, (ownChildAt_ok hok).2⟩
    unfold ownChildAt at hok
    cases hchild : h.childAt id index with
    | error e => simp [hchild] at hok
    | ok other =>
        by_cases hother : h.isExclusive other
        · obtain rfl : other = child := by simpa [hchild, hother] using hok
          exact childAt_eq_ok.1 hchild
        · simp [hchild, hother] at hok
  · rintro ⟨hslot, hexclusive⟩
    rw [ownChildAt, childAt_eq_ok.2 hslot]
    simp [hexclusive]

/-- Why a step that asks for the right to change is refused: the slot is not there, it is a hole, or
its node has a further handle. -/
def Refused (h : Heap α) (id : NodeId) (index : Nat) : AccessError → Prop
  | .indexOutOfRange i count =>
    i = index ∧ count = (h.slotsOf id).length ∧ (h.slotsOf id).length ≤ index
  | .emptySlot i => i = index ∧ (h.slotsOf id)[index]? = some none
  | .sharedChild i =>
    i = index ∧ ∃ child, (h.slotsOf id)[index]? = some (some child) ∧ 1 < h.countOf child

theorem Owned.ownChildAt_eq_error (owned : h.Owned holders) {cause : AccessError}
    (herror : h.ownChildAt id index = .error cause) : h.Refused id index cause := by
  unfold ownChildAt childAt slotAt at herror
  cases hslot : (h.slotsOf id)[index]? with
  | none =>
      obtain rfl : AccessError.indexOutOfRange index (h.slotsOf id).length = cause := by
        simpa [hslot] using herror
      exact ⟨rfl, rfl, List.getElem?_eq_none_iff.1 hslot⟩
  | some s =>
      cases s with
      | none =>
          obtain rfl : AccessError.emptySlot index = cause := by simpa [hslot] using herror
          exact ⟨rfl, hslot⟩
      | some child =>
          by_cases hexclusive : h.isExclusive child
          · simp [hslot, hexclusive] at herror
          · obtain rfl : AccessError.sharedChild index = cause := by
              simpa [hslot, hexclusive] using herror
            have hpos := owned.positive child (owned.live_of_edge (List.mem_of_getElem? hslot))
            have hmore : h.countOf child ≠ 1 := fun hone =>
              hexclusive (owned.isExclusive_iff.2 hone)
            exact ⟨rfl, child, hslot, by omega⟩

/-! ## Paths -/

theorem foldlM_concat_eq_ok {β ε : Type v} {γ : Type u} {f : β → γ → Except ε β} {b c : β}
    {l : List γ} {x : γ} :
    (l ++ [x]).foldlM f b = .ok c ↔ ∃ a, l.foldlM f b = .ok a ∧ f a x = .ok c := by
  rw [List.foldlM_append]
  cases l.foldlM f b with
  | error e => simp [bind, Except.bind]
  | ok a => cases hx : f a x <;> simp [bind, Except.bind, pure, Except.pure, hx]

theorem descend_concat :
    h.descend root (path ++ [index]) = .ok child ↔
      ∃ a, h.descend root path = .ok a ∧ (h.slotsOf a)[index]? = some (some child) := by
  simp only [descend, foldlM_concat_eq_ok, childAt_eq_ok]

theorem descendOwned_concat :
    h.descendOwned root (path ++ [index]) = .ok child ↔
      ∃ a, h.descendOwned root path = .ok a ∧ (h.slotsOf a)[index]? = some (some child) ∧
        h.isExclusive child := by
  simp only [descendOwned, foldlM_concat_eq_ok, ownChildAt_eq_ok]

theorem descend_of_descendOwned (hok : h.descendOwned root path = .ok target) :
    h.descend root path = .ok target := by
  induction path using List.reverseRecOn generalizing target with
  | nil => exact hok
  | append_singleton path index ih =>
      obtain ⟨a, ha, hslot, -⟩ := descendOwned_concat.1 hok
      exact descend_concat.2 ⟨a, ih ha, hslot⟩

/-- A path that is refused is refused at its first step that may not be made. -/
theorem Owned.descendOwned_eq_error (owned : h.Owned holders) {cause : AccessError}
    (herror : h.descendOwned root path = .error cause) :
    ∃ front index back node, path = front ++ index :: back ∧
      h.descendOwned root front = .ok node ∧ h.Refused node index cause := by
  induction path generalizing root with
  | nil => nomatch herror
  | cons index path ih =>
      cases hchild : h.ownChildAt root index with
      | error e =>
          obtain rfl : e = cause := by
            simpa [descendOwned, hchild, bind, Except.bind] using herror
          exact ⟨[], index, path, root, rfl, rfl, owned.ownChildAt_eq_error hchild⟩
      | ok child =>
          have hrest : h.descendOwned child path = .error cause := by
            simpa [descendOwned, hchild, bind, Except.bind] using herror
          obtain ⟨front, later, back, node, rfl, hfront, hrefused⟩ := ih hrest
          refine ⟨index :: front, later, back, node, rfl, ?_, hrefused⟩
          simpa [descendOwned, hchild, bind, Except.bind] using hfront

theorem Reaches.exists_descend (hreach : h.Reaches root target) :
    ∃ path, h.descend root path = .ok target := by
  induction hreach with
  | refl => exact ⟨[], rfl⟩
  | tail _ hedge ih =>
      obtain ⟨path, hpath⟩ := ih
      obtain ⟨index, hslot⟩ := List.mem_iff_getElem?.1 hedge
      exact ⟨path ++ [index], descend_concat.2 ⟨_, hpath, hslot⟩⟩

/-! ## Places of handles -/

section Places

variable {β : Type v} [BEq β] [LawfulBEq β] {l : List β} {b : β}

/-- What occurs twice has two places. -/
theorem two_le_count_iff :
    2 ≤ l.count b ↔ ∃ i j : Nat, i < j ∧ l[i]? = some b ∧ l[j]? = some b := by
  rw [← List.replicate_sublist_iff, List.replicate_succ, List.replicate_one,
    ← List.duplicate_iff_sublist, List.duplicate_iff_exists_distinct_get]
  constructor
  · rintro ⟨i, j, hlt, hi, hj⟩
    exact ⟨i, j, hlt, by simp [hi], by simp [hj]⟩
  · rintro ⟨i, j, hlt, hi, hj⟩
    obtain ⟨hi', hi⟩ := List.getElem?_eq_some_iff.1 hi
    obtain ⟨hj', hj⟩ := List.getElem?_eq_some_iff.1 hj
    exact ⟨⟨i, hi'⟩, ⟨j, hj'⟩, hlt, hi.symm, hj.symm⟩

theorem exists_other_index (htwo : 2 ≤ l.count b) (i : Nat) : ∃ j, j ≠ i ∧ l[j]? = some b := by
  obtain ⟨j, k, hlt, hj, hk⟩ := two_le_count_iff.1 htwo
  by_cases hji : j = i
  · exact ⟨k, by omega, hk⟩
  · exact ⟨j, hji, hj⟩

theorem index_eq_of_count_le_one {i j : Nat} (hone : l.count b ≤ 1) (hi : l[i]? = some b)
    (hj : l[j]? = some b) : i = j := by
  rcases lt_trichotomy i j with hlt | heq | hgt
  · have := two_le_count_iff.2 ⟨i, j, hlt, hi, hj⟩
    omega
  · exact heq
  · have := two_le_count_iff.2 ⟨j, i, hgt, hj, hi⟩
    omega

end Places

/-- Two handles in slots are in different slots, of one node or of two. -/
theorem exists_other_slot {a b : NodeId} {i : Nat}
    (hslot : (h.slotsOf a)[i]? = some (some b)) (htwo : 2 ≤ h.handlesTo b) :
    ∃ c j, (h.slotsOf c)[j]? = some (some b) ∧ (c = a → j ≠ i) := by
  by_cases hhere : 2 ≤ (h.slotsOf a).count (some b)
  · obtain ⟨j, hne, hj⟩ := exists_other_index hhere i
    exact ⟨a, j, hj, fun _ => hne⟩
  · have hedge : h.Edge a b := List.mem_of_getElem? hslot
    obtain ⟨n, hn⟩ := live_iff.1 hedge.live
    rw [slotsOf_eq hn] at hhere
    have hfree := handlesTo_free hn b
    obtain ⟨c, hc⟩ := handlesTo_pos_iff.1 (show 0 < (h.free a).handlesTo b by omega)
    have hca : c ≠ a := by
      rintro rfl
      simp [Edge, slotsOf, get?_free_self] at hc
    rw [Edge, slotsOf_congr (content?_free_other hca)] at hc
    obtain ⟨j, hj⟩ := List.mem_iff_getElem?.1 hc
    exact ⟨c, j, hj, fun heq => absurd heq hca⟩

/-- A single handle in slots is in one slot. -/
theorem slot_eq_of_handlesTo_le_one {a c b : NodeId} {i j : Nat} (hone : h.handlesTo b ≤ 1)
    (hi : (h.slotsOf a)[i]? = some (some b)) (hj : (h.slotsOf c)[j]? = some (some b)) :
    c = a ∧ j = i := by
  have hedge : h.Edge a b := List.mem_of_getElem? hi
  obtain rfl := hedge.eq_of_handlesTo_le_one (List.mem_of_getElem? hj) hone
  exact ⟨rfl, index_eq_of_count_le_one ((count_le_handlesTo h c b).trans hone) hj hi⟩

/-! ## Ways -/

/-- The place of a handle in the list of the holders, and a path below its node. -/
structure Way where
  holder : Nat
  path : List Nat

/-- The node at the end of a way. -/
def Leads (h : Heap α) (holders : List NodeId) (way : Way) (id : NodeId) : Prop :=
  ∃ root, holders[way.holder]? = some root ∧ h.descend root way.path = .ok id

theorem Leads.unique {way : Way} {a b : NodeId} (ha : h.Leads holders way a)
    (hb : h.Leads holders way b) : a = b := by
  obtain ⟨root, hroot, ha⟩ := ha
  obtain ⟨root', hroot', hb⟩ := hb
  obtain rfl := Option.some.inj (hroot.symm.trans hroot')
  exact Except.ok.inj (ha.symm.trans hb)

theorem Leads.slot {way : Way} (hway : h.Leads holders way id)
    (hslot : (h.slotsOf id)[index]? = some (some child)) :
    h.Leads holders ⟨way.holder, way.path ++ [index]⟩ child := by
  obtain ⟨root, hroot, hpath⟩ := hway
  exact ⟨root, hroot, descend_concat.2 ⟨id, hpath, hslot⟩⟩

/-- A way ends at a handle in hand, or in a slot of a node to which it leads before. -/
theorem Leads.cases {way : Way} (hway : h.Leads holders way id) :
    way.path = [] ∧ holders[way.holder]? = some id ∨
      ∃ path index a, way.path = path ++ [index] ∧ h.Leads holders ⟨way.holder, path⟩ a ∧
        (h.slotsOf a)[index]? = some (some id) := by
  obtain ⟨root, hroot, hpath⟩ := hway
  rcases List.eq_nil_or_concat way.path with hnil | ⟨path, index, hconcat⟩
  · rw [hnil] at hpath
    obtain rfl := Except.ok.inj hpath
    exact .inl ⟨hnil, hroot⟩
  · rw [List.concat_eq_append] at hconcat
    rw [hconcat] at hpath
    obtain ⟨a, ha, hslot⟩ := descend_concat.1 hpath
    exact .inr ⟨path, index, a, hconcat, ⟨root, hroot, ha⟩, hslot⟩

namespace Owned

variable (owned : h.Owned holders)

include owned

/-- What is alive has a way to it. -/
theorem exists_way (hid : h.Live id) : ∃ way, h.Leads holders way id := by
  obtain ⟨root, hmem, hreach⟩ := owned.reached_of_live hid
  obtain ⟨start, hstart⟩ := List.mem_iff_getElem?.1 hmem
  obtain ⟨path, hpath⟩ := hreach.exists_descend
  exact ⟨⟨start, path⟩, root, hstart, hpath⟩

theorem live_of_leads {way : Way} (hway : h.Leads holders way id) : h.Live id := by
  rcases hway.cases with ⟨-, hheld⟩ | ⟨_, _, _, -, -, hslot⟩
  · exact owned.live_of_mem (List.mem_of_getElem? hheld)
  · exact owned.live_of_edge (List.mem_of_getElem? hslot)

/-- A node with a further handle has a further way to it. -/
theorem exists_other_way {way : Way} (hway : h.Leads holders way id)
    (hshared : ¬ h.isExclusive id) : ∃ other, other ≠ way ∧ h.Leads holders other id := by
  have hcounted := owned.counted id
  have hpos := owned.positive id (owned.live_of_leads hway)
  have hmore : h.countOf id ≠ 1 := fun hone => hshared (owned.isExclusive_iff.2 hone)
  obtain ⟨start, path⟩ := way
  rcases hway.cases with ⟨rfl, hheld⟩ | ⟨front, index, a, rfl, hfront, hslot⟩
  · by_cases htwice : 2 ≤ holders.count id
    · obtain ⟨other, hne, hother⟩ := exists_other_index htwice start
      exact ⟨⟨other, []⟩, fun heq => hne (congrArg Way.holder heq), id, hother, rfl⟩
    · obtain ⟨a, hedge⟩ := handlesTo_pos_iff.1 (show 0 < h.handlesTo id by omega)
      obtain ⟨index, hslot⟩ := List.mem_iff_getElem?.1 hedge
      obtain ⟨above, habove⟩ := owned.exists_way hedge.live
      refine ⟨_, fun heq => ?_, habove.slot hslot⟩
      simpa using congrArg Way.path heq
  · by_cases hheld : id ∈ holders
    · obtain ⟨other, hother⟩ := List.mem_iff_getElem?.1 hheld
      refine ⟨⟨other, []⟩, fun heq => ?_, id, hother, rfl⟩
      simpa using congrArg Way.path heq
    · rw [List.count_eq_zero.2 hheld] at hcounted
      obtain ⟨c, j, hc, hne⟩ := exists_other_slot hslot (by omega)
      obtain ⟨above, habove⟩ := owned.exists_way (Edge.live (List.mem_of_getElem? hc))
      refine ⟨_, fun heq => ?_, habove.slot hc⟩
      obtain ⟨rfl, hpath⟩ := Way.mk.inj heq
      obtain ⟨rfl, hindex⟩ := List.append_inj' hpath rfl
      exact hne (habove.unique hfront) (List.singleton_inj.1 hindex)

/-- A path on which each node has a single handle is the only way to its end. -/
theorem way_eq_of_descendOwned {start : Nat} (hroot : holders[start]? = some root)
    (hexclusive : h.isExclusive root) (hok : h.descendOwned root path = .ok target) {way : Way}
    (hway : h.Leads holders way target) : way = ⟨start, path⟩ := by
  induction path using List.reverseRecOn generalizing target way with
  | nil =>
      obtain rfl := Except.ok.inj hok
      have hone := owned.isExclusive_iff.1 hexclusive
      have hcounted := owned.counted root
      have hheld := List.count_pos_iff.2 (List.mem_of_getElem? hroot)
      obtain ⟨other, path⟩ := way
      rcases hway.cases with ⟨rfl, hother⟩ | ⟨_, _, a, -, -, hslot⟩
      · obtain rfl : other = start := index_eq_of_count_le_one (by omega) hother hroot
        rfl
      · have := handlesTo_pos_iff.2 ⟨a, List.mem_of_getElem? hslot⟩
        omega
  | append_singleton path index ih =>
      obtain ⟨a, ha, hslot, hsole⟩ := descendOwned_concat.1 hok
      have hone := owned.isExclusive_iff.1 hsole
      have hcounted := owned.counted target
      have hpos := handlesTo_pos_iff.2 ⟨a, List.mem_of_getElem? hslot⟩
      obtain ⟨other, path'⟩ := way
      rcases hway.cases with ⟨-, hheld⟩ | ⟨front, later, c, rfl, hfront, hc⟩
      · have := List.count_pos_iff.2 (List.mem_of_getElem? hheld)
        omega
      · obtain ⟨rfl, rfl⟩ := slot_eq_of_handlesTo_le_one (by omega) hslot hc
        obtain ⟨rfl, rfl⟩ := Way.mk.inj (ih ha hfront)
        rfl

/-- If a path is the only way to its end, each node on it has a single handle. -/
theorem descendOwned_of_sole_way {start : Nat} (hroot : holders[start]? = some root)
    (hok : h.descend root path = .ok target)
    (hsole : ∀ way, h.Leads holders way target → way = ⟨start, path⟩) :
    h.isExclusive root ∧ h.descendOwned root path = .ok target := by
  have hway : h.Leads holders ⟨start, path⟩ target := ⟨root, hroot, hok⟩
  have hexclusive : h.isExclusive target := by
    by_contra hshared
    obtain ⟨other, hne, hother⟩ := owned.exists_other_way hway hshared
    exact hne (hsole other hother)
  induction path using List.reverseRecOn generalizing target with
  | nil =>
      obtain rfl := Except.ok.inj hok
      exact ⟨hexclusive, rfl⟩
  | append_singleton path index ih =>
      obtain ⟨a, ha, hslot⟩ := descend_concat.1 hok
      have habove : ∀ way, h.Leads holders way a → way = ⟨start, path⟩ := by
        intro way hway
        obtain ⟨hstart, hpath⟩ := Way.mk.inj (hsole _ (hway.slot hslot))
        obtain ⟨other, path'⟩ := way
        rw [← List.append_cancel_right hpath, ← hstart]
      have hway : h.Leads holders ⟨start, path⟩ a := ⟨root, hroot, ha⟩
      have hexclusive' : h.isExclusive a := by
        by_contra hshared
        obtain ⟨other, hne, hother⟩ := owned.exists_other_way hway hshared
        exact hne (habove other hother)
      obtain ⟨hfirst, hfront⟩ := ih ha habove hway hexclusive'
      exact ⟨hfirst, descendOwned_concat.2 ⟨a, hfront, hslot, hexclusive⟩⟩

/-- The right to change is granted along a path exactly if it is the only way to its end. -/
theorem descendOwned_iff {start : Nat} (hroot : holders[start]? = some root) :
    h.isExclusive root ∧ h.descendOwned root path = .ok target ↔
      h.descend root path = .ok target ∧ ∃! way, h.Leads holders way target := by
  constructor
  · rintro ⟨hexclusive, hok⟩
    have hread := descend_of_descendOwned hok
    refine ⟨hread, ⟨start, path⟩, ⟨root, hroot, hread⟩, fun way hway => ?_⟩
    exact owned.way_eq_of_descendOwned hroot hexclusive hok hway
  · rintro ⟨hok, sole, -, hsole⟩
    have hself := hsole ⟨start, path⟩ ⟨root, hroot, hok⟩
    exact owned.descendOwned_of_sole_way hroot hok fun way hway => (hsole way hway).trans hself.symm

end Owned

end SlotTree.Heap
