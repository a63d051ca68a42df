import SlotTree.Proofs.Workspace.Action
import SlotTree.Proofs.Workspace.Holders
import SlotTree.Workspace.Spec

/-! # Making nodes

New nodes and cloned handles come into the hand. What is made from a specification leaves the
workspace sound whether or not the specification passes its check: the check decides only if it is
made at all.
-/

namespace SlotTree

universe u

namespace Tree

mutual

/-- The values of the nodes, parents first. -/
def values {α : Type u} : Tree α → List α
  | .node v row => v :: rowValues row

/-- The values of the nodes in a row. -/
def rowValues {α : Type u} : Row α → List α
  | [] => []
  | none :: rest => rowValues rest
  | some t :: rest => values t ++ rowValues rest

end

end Tree

namespace Spec

mutual

/-- The values of the nodes to make. -/
def values : Spec → List Value
  | .node value slots => value :: allValues slots
  | _ => []

/-- The values of the nodes to make for some slots. -/
def allValues : List Spec → List Value
  | [] => []
  | spec :: rest => values spec ++ allValues rest

end

/-- The values that building brings along: none if the check fails. -/
def supplies (w : Workspace) (spec : Spec) : List Value :=
  match check w [] spec with
  | .ok _ => spec.values
  | .error _ => []

def allSupplies (w : Workspace) (specs : List Spec) : List Value :=
  match checkAll w [] specs with
  | .ok _ => allValues specs
  | .error _ => []

end Spec

namespace Workspace

open List Heap

variable {w start : Workspace} {hand : List NodeId} {supplied seen : List Value}

/-! ## New nodes -/

theorem Stage.alloc {slots : List Slot}
    (stage : Stage start (slots.reduceOption ++ hand) supplied seen w) (value : Value) :
    Stage start ((w.heap.alloc value slots).2 :: hand) (value :: supplied) seen
      { w with heap := (w.heap.alloc value slots).1 } := by
  have owned := stage.sound.owned
  rw [List.append_assoc] at owned
  have hnew : (w.heap.alloc value slots).1.Owned
      (((w.heap.alloc value slots).2 :: hand) ++ w.holders) := owned.alloc value
  have hframe : ∀ p, w.Waits p →
      (w.heap.alloc value slots).1.slotsOf p = w.heap.slotsOf p ∧
        (w.heap.alloc value slots).1.countOf p ≤ w.heap.countOf p := by
    intro p waits
    have hlive : w.heap.Live p := stage.sound.owned.live_of_mem waits.mem_holders
    have hsame : (w.heap.alloc value slots).1.get? p = w.heap.get? p := by
      rw [get?_alloc, if_neg hlive.lt_size.ne]
    rw [slotsOf, slotsOf, countOf, countOf, hsame]
    exact ⟨rfl, le_refl _⟩
  refine ⟨⟨hnew, stage.sound.ready_frame hnew hframe, stage.sound.registers,
    stage.sound.machines⟩, stage.policy_eq, ?_, fun id hold hid => ?_, ?_⟩
  · change start.heap.cells.size ≤ (w.heap.alloc value slots).1.cells.size
    rw [size_alloc]
    exact Nat.le_succ_of_le stage.size_le
  · have hid : (w.heap.alloc value slots).1.Live id := hid
    rw [Live, get?_alloc, if_neg (hold.trans_le stage.size_le).ne] at hid
    exact stage.old id hold hid
  · have hledger := stage.ledger
    rw [List.perm_iff_count] at hledger ⊢
    intro v
    have hv := hledger v
    simp only [accounted, values_alloc, List.count_append, List.count_cons, List.count_nil,
      List.cons_append] at hv ⊢
    omega

mutual

theorem Stage.plant {w start : Workspace} {hand : List NodeId} {supplied seen : List Value}
    (stage : Stage start hand supplied seen w) (t : Tree Value) :
    Stage start ((w.heap.plant t).2 :: hand) (t.values ++ supplied) seen
      { w with heap := (w.heap.plant t).1 } := by
  cases t with
  | node v row =>
      have hrow := Stage.plantRow stage row
      exact hrow.alloc v

theorem Stage.plantRow {w start : Workspace} {hand : List NodeId} {supplied seen : List Value}
    (stage : Stage start hand supplied seen w) (row : Row Value) :
    Stage start ((w.heap.plantRow row).2.reduceOption ++ hand)
      (Tree.rowValues row ++ supplied) seen { w with heap := (w.heap.plantRow row).1 } := by
  match row with
  | [] => exact stage
  | none :: rest => exact Stage.plantRow stage rest
  | some t :: rest =>
      have hrest := Stage.plantRow (Stage.plant stage t) rest
      apply hrest.perm List.perm_middle
      rw [Tree.rowValues, ← List.append_assoc]
      exact List.perm_append_comm.append_right _

end

/-! ## Cloned handles -/

theorem Stage.share (stage : Stage start hand supplied seen w) {id : NodeId}
    (hid : ¬ w.Waits id) {k : Heap Value} (hk : w.heap.share? id = some k) :
    Stage start (id :: hand) supplied seen { w with heap := k } := by
  have owned : k.Owned ((id :: hand) ++ w.holders) := stage.sound.owned.share hk
  obtain ⟨-, n, hn, rfl⟩ := share?_eq_some hk
  have hlive : ∀ x, (w.heap.put id { n with count := n.count + 1 }).Live x → w.heap.Live x :=
    fun x hx => by rwa [live_iff_content?, content?_recount hn, ← live_iff_content?] at hx
  have hframe : ∀ p, w.Waits p →
      (w.heap.put id { n with count := n.count + 1 }).slotsOf p = w.heap.slotsOf p ∧
        (w.heap.put id { n with count := n.count + 1 }).countOf p ≤ w.heap.countOf p := by
    intro p waits
    have hne : p ≠ id := fun heq => hid (heq ▸ waits)
    rw [countOf_recount hn, if_neg hne]
    exact ⟨slotsOf_congr (content?_recount hn _ p), le_refl _⟩
  refine ⟨⟨owned, stage.sound.ready_frame owned hframe, stage.sound.registers,
    stage.sound.machines⟩, stage.policy_eq, ?_, fun x hold hx => stage.old x hold (hlive x hx), ?_⟩
  · exact stage.size_le.trans_eq (size_put w.heap id _).symm
  · refine .trans (List.Perm.append_left _ (List.Perm.append_left _ ?_)) stage.ledger
    exact values_recount hn _

theorem mem_inRegisters (sound : Sound hand w) {name : String} {id : NodeId}
    (hget : (w.registers.get? name).join = some id) : id ∈ inRegisters w.registers := by
  refine (inRegisters_perm sound.registers name).mem_iff.2 (List.mem_append_left _ ?_)
  simp [hget]

/-! ## Specifications -/

theorem reduceOption_cons_perm (s : Slot) (slots : List Slot) (hand : List NodeId) :
    slots.reduceOption ++ ([s].reduceOption ++ hand) ~ (s :: slots).reduceOption ++ hand := by
  cases s with
  | none => exact .refl _
  | some id => exact List.perm_middle

mutual

theorem Stage.construct {w start : Workspace} {hand : List NodeId} {supplied seen : List Value}
    (stage : Stage start hand supplied seen w) (spec : Spec) :
    Stage start ([(spec.construct w).2].reduceOption ++ hand) (spec.values ++ supplied) seen
      (spec.construct w).1 := by
  cases spec with
  | hole => exact stage
  | node value slots => exact (Stage.constructAll stage slots).alloc value
  | take name => exact stage.pick name
  | share name =>
      unfold Spec.construct
      cases hget : (w.registers.get? name).join with
      | none => exact stage
      | some id =>
          have hclear := stage.sound.not_waits (.inl (mem_inRegisters stage.sound hget))
          cases hk : w.heap.share? id with
          | none =>
              simp only [hk]
              exact stage
          | some k =>
              simp only [hk]
              exact stage.share hclear hk
  | malformed => exact stage

theorem Stage.constructAll {w start : Workspace} {hand : List NodeId}
    {supplied seen : List Value} (stage : Stage start hand supplied seen w)
    (specs : List Spec) :
    Stage start ((Spec.constructAll w specs).2.reduceOption ++ hand)
      (Spec.allValues specs ++ supplied) seen (Spec.constructAll w specs).1 := by
  match specs with
  | [] => exact stage
  | spec :: rest =>
      have hrest := Stage.constructAll (Stage.construct stage spec) rest
      apply hrest.perm (reduceOption_cons_perm _ _ hand)
      rw [Spec.allValues, ← List.append_assoc]
      exact List.perm_append_comm.append_right _

end

theorem Sound.build (sound : Sound [] w) (spec : Spec) :
    spec.build.Ends w (fun s after => Stage w [s].reduceOption (spec.supplies w) [] after)
      (Stage w [] (spec.supplies w) []) := by
  refine Action.ends_look_bind (fun failure hcheck => ?_) fun taken hcheck => ?_
  · rw [Spec.supplies, hcheck]
    exact sound.stage
  · apply Action.ends_alter
    rw [Spec.supplies, hcheck]
    simpa using sound.stage.construct spec

theorem Sound.buildAll (sound : Sound [] w) (specs : List Spec) :
    (Spec.buildAll specs).Ends w
      (fun slots after => Stage w slots.reduceOption (Spec.allSupplies w specs) [] after)
      (Stage w [] (Spec.allSupplies w specs) []) := by
  refine Action.ends_look_bind (fun failure hcheck => ?_) fun taken hcheck => ?_
  · rw [Spec.allSupplies, hcheck]
    exact sound.stage
  · apply Action.ends_alter
    rw [Spec.allSupplies, hcheck]
    simpa using sound.stage.constructAll specs

end Workspace

end SlotTree
