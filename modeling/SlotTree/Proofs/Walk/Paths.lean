import SlotTree.Proofs.Walk.Sequence
import Mathlib.Algebra.GroupWithZero.Nat
import Mathlib.Data.List.Lex

/-! # Paths in a tree

A path leads from the root of a tree to one of its slots, by one slot index for each step; the
empty path stays at the root. Listed in pre-order, holes included, the paths of a tree are all that
lead to a slot, in lexicographic order. Those that lead to nodes visit them as a depth-first walk
does.
-/

namespace SlotTree.Tree

universe u

variable {α : Type u}

/-- What stands at the end of a path from a tree or a hole, if the path leads to a slot. -/
def slotAt? : Option (Tree α) → List Nat → Option (Option (Tree α))
  | s, [] => some s
  | none, _ :: _ => none
  | some t, i :: path => t.slots[i]?.bind fun s => slotAt? s path

/-- The node at the end of a path. -/
def nodeAt? (t : Tree α) (path : List Nat) : Option (Tree α) := (slotAt? (some t) path).join

mutual

/-- The paths to all slots, in pre-order. -/
def paths : Tree α → List (List Nat)
  | .node _ row => [] :: rowPaths 0 row

/-- The paths to all slots of a part of a row, whose first slot has the given index. -/
def rowPaths : Nat → Row α → List (List Nat)
  | _, [] => []
  | i, none :: rest => [i] :: rowPaths (i + 1) rest
  | i, some t :: rest => (paths t).map (i :: ·) ++ rowPaths (i + 1) rest

end

@[simp] theorem slotAt?_nil (s : Option (Tree α)) : slotAt? s [] = some s := by
  cases s <;> rfl

@[simp] theorem slotAt?_hole (i : Nat) (path : List Nat) :
    slotAt? (none : Option (Tree α)) (i :: path) = none := rfl

@[simp] theorem slotAt?_cons (t : Tree α) (i : Nat) (path : List Nat) :
    slotAt? (some t) (i :: path) = t.slots[i]?.bind fun s => slotAt? s path := rfl

theorem nodeAt?_cons {t s : Tree α} {index : Nat} {path : List Nat} :
    t.nodeAt? (index :: path) = some s ↔
      ∃ below, t.slots[index]? = some (some below) ∧ below.nodeAt? path = some s := by
  rw [nodeAt?, slotAt?_cons]
  cases t.slots[index]? with
  | none => simp
  | some slot =>
      cases slot with
      | none => cases path <;> simp
      | some below => simp [nodeAt?]

/-! ## The listed paths -/

/-- A path below a part of a row starts with the index of one of its slots. -/
theorem exists_of_mem_rowPaths {row : Row α} {i : Nat} {path : List Nat}
    (hpath : path ∈ rowPaths i row) : ∃ j rest, path = (i + j) :: rest := by
  induction row generalizing i with
  | nil => nomatch hpath
  | cons s row ih =>
      have hlater (hpath : path ∈ rowPaths (i + 1) row) : ∃ j rest, path = (i + j) :: rest := by
        obtain ⟨j, rest, rfl⟩ := ih hpath
        exact ⟨j + 1, rest, by rw [Nat.add_assoc, Nat.add_comm 1 j]⟩
      cases s with
      | none =>
          rcases List.mem_cons.1 hpath with rfl | hpath
          · exact ⟨0, [], rfl⟩
          · exact hlater hpath
      | some t =>
          rcases List.mem_append.1 hpath with hpath | hpath
          · obtain ⟨rest, -, rfl⟩ := List.mem_map.1 hpath
            exact ⟨0, rest, rfl⟩
          · exact hlater hpath

theorem not_mem_rowPaths_succ (row : Row α) (i : Nat) (rest : List Nat) :
    i :: rest ∉ rowPaths (i + 1) row := by
  intro hpath
  obtain ⟨j, rest', heq⟩ := exists_of_mem_rowPaths hpath
  have := (List.cons.inj heq).1
  omega

mutual

/-- Listed are the paths that lead to a slot. -/
theorem mem_paths {t : Tree α} {path : List Nat} :
    path ∈ paths t ↔ (slotAt? (some t) path).isSome := by
  cases t with
  | node v row =>
      cases path with
      | nil => simp [paths]
      | cons j rest =>
          have hrow := mem_rowPaths 0 row j rest
          rw [Nat.zero_add] at hrow
          simpa [paths] using hrow

theorem mem_rowPaths (i : Nat) (row : Row α) (j : Nat) (rest : List Nat) :
    (i + j) :: rest ∈ rowPaths i row ↔ (row[j]?.bind fun s => slotAt? s rest).isSome := by
  match row, j with
  | [], j => simp [rowPaths]
  | none :: row, 0 =>
      have hlater := not_mem_rowPaths_succ row i rest
      cases rest <;> simp [rowPaths, hlater]
  | some t :: row, 0 =>
      have hlater := not_mem_rowPaths_succ row i rest
      have hbelow : rest ∈ paths t ↔ (slotAt? (some t) rest).isSome := mem_paths
      simpa [rowPaths, hlater] using hbelow
  | none :: row, j + 1 =>
      have hlater := mem_rowPaths (i + 1) row j rest
      rw [Nat.add_right_comm, Nat.add_assoc] at hlater
      simpa [rowPaths] using hlater
  | some t :: row, j + 1 =>
      have hlater := mem_rowPaths (i + 1) row j rest
      rw [Nat.add_right_comm, Nat.add_assoc] at hlater
      simpa [rowPaths] using hlater

end

theorem mem_paths_of_nodeAt? {t s : Tree α} {path : List Nat} (hs : t.nodeAt? path = some s) :
    path ∈ t.paths := by
  rw [mem_paths, Option.join_eq_some_iff.1 hs, Option.isSome_some]

mutual

/-- Each path comes before those that go on from it, and these before what is right of them. -/
theorem pairwise_paths (t : Tree α) : (paths t).Pairwise (· < ·) := by
  cases t with
  | node v row =>
      rw [paths, List.pairwise_cons]
      refine ⟨fun path hpath => ?_, pairwise_rowPaths 0 row⟩
      obtain ⟨j, rest, rfl⟩ := exists_of_mem_rowPaths hpath
      exact List.nil_lt_cons _ _

theorem pairwise_rowPaths (i : Nat) (row : Row α) : (rowPaths i row).Pairwise (· < ·) := by
  have hbefore {row : Row α} (rest : List Nat) :
      ∀ path ∈ rowPaths (i + 1) row, i :: rest < path := by
    intro path hpath
    obtain ⟨j, rest', rfl⟩ := exists_of_mem_rowPaths hpath
    exact List.cons_lt_cons_iff.2 (.inl (by omega))
  match row with
  | [] => exact .nil
  | none :: row =>
      rw [rowPaths, List.pairwise_cons]
      exact ⟨hbefore [], pairwise_rowPaths (i + 1) row⟩
  | some t :: row =>
      rw [rowPaths, List.pairwise_append, List.pairwise_map]
      refine ⟨(pairwise_paths t).imp fun hlt => ?_, pairwise_rowPaths (i + 1) row, ?_⟩
      · exact List.cons_lt_cons_iff.2 (.inr ⟨rfl, hlt⟩)
      · rintro _ hleft path hpath
        obtain ⟨rest, -, rfl⟩ := List.mem_map.1 hleft
        exact hbefore rest path hpath

end

theorem nodup_paths (t : Tree α) : (paths t).Nodup :=
  (pairwise_paths t).imp fun hlt => ne_of_lt hlt

/-! ## Slots and nodes -/

mutual

/-- Besides the root, each slot of a node has a path. -/
theorem length_paths (t : Tree α) :
    (paths t).length = 1 + (t.preorder.map fun s => s.slots.length).sum := by
  cases t with
  | node v row =>
      rw [paths, List.length_cons, length_rowPaths 0 row, preorder, List.map_cons, List.sum_cons,
        slots_node, Nat.add_comm]

theorem length_rowPaths (i : Nat) (row : Row α) :
    (rowPaths i row).length = row.length + ((rowPreorder row).map fun s => s.slots.length).sum := by
  match row with
  | [] => rfl
  | none :: row =>
      rw [rowPaths, List.length_cons, length_rowPaths (i + 1) row, List.length_cons, rowPreorder]
      omega
  | some t :: row =>
      rw [rowPaths, List.length_append, List.length_map, length_paths t,
        length_rowPaths (i + 1) row, List.length_cons, rowPreorder, List.map_append,
        List.sum_append]
      omega

end

mutual

/-- The nodes at the ends of the paths are visited in pre-order. -/
theorem filterMap_paths (t : Tree α) : (paths t).filterMap t.nodeAt? = t.preorder := by
  cases t with
  | node v row =>
      have hroot : nodeAt? (.node v row) [] = some (.node v row) := by simp [nodeAt?]
      have hrow := filterMap_rowPaths v [] row
      rw [List.nil_append, List.length_nil] at hrow
      rw [paths, List.filterMap_cons_some hroot, hrow, preorder]

/-- The same below a part of a row, in the node with the whole row. -/
theorem filterMap_rowPaths (v : α) (front row : Row α) :
    (rowPaths front.length row).filterMap (nodeAt? (.node v (front ++ row))) =
      rowPreorder row := by
  match row with
  | [] => rfl
  | s :: row =>
      have hlater := filterMap_rowPaths v (front ++ [s]) row
      rw [List.append_assoc, List.singleton_append, List.length_append, List.length_singleton]
        at hlater
      cases s with
      | none =>
          rw [rowPaths, List.filterMap_cons_none, hlater, rowPreorder]
          simp [nodeAt?]
      | some t =>
          have hbelow : (nodeAt? (.node v (front ++ some t :: row))) ∘ (front.length :: ·) =
              t.nodeAt? := by
            funext path
            simp [nodeAt?]
          rw [rowPaths, List.filterMap_append, List.filterMap_map, hbelow, hlater,
            filterMap_paths t, rowPreorder]

end

end SlotTree.Tree
