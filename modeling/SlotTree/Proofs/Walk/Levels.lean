import SlotTree.Proofs.Walk.Calls
import Mathlib.Data.List.Sort

/-! # Level by level

The nodes at one depth of a tree are a level, and the children of a level make the next one. A walk
in breadth keeps what is left of a level and the families found for the next one, so it goes through
the levels one after another. The nodes of a level stand in the order in which a walk in depth comes
to them: the levels are the places in pre-order, stably sorted by depth.
-/

namespace SlotTree

universe u

variable {α : Type u}

/-! ## Stable sorting by a number -/

section Sorting

variable {β : Type u} {pairs : List (Nat × β)} {n : Nat}

/-- The group with the greatest number ends a sorted list. -/
theorem filter_lt_append_filter_eq (hsorted : pairs.Pairwise fun a b => a.1 ≤ b.1)
    (hbound : ∀ x ∈ pairs, x.1 < n + 1) :
    (pairs.filter fun x => x.1 < n) ++ (pairs.filter fun x => x.1 = n) = pairs := by
  induction pairs with
  | nil => rfl
  | cons x rest ih =>
      obtain ⟨hle, hrest⟩ := List.pairwise_cons.1 hsorted
      obtain ⟨hx, hbelow⟩ := List.forall_mem_cons.1 hbound
      by_cases hlt : x.1 < n
      · have hne : x.1 ≠ n := by omega
        simpa [hlt, hne] using ih hrest hbelow
      · have hsame : ∀ y ∈ rest, y.1 = n := fun y hy => by
          have := hle y hy
          have := hbelow y hy
          omega
        have hnone : rest.filter (fun y => y.1 < n) = [] :=
          List.filter_eq_nil_iff.2 fun y hy => by simp [hsame y hy]
        have hall : rest.filter (fun y => y.1 = n) = rest :=
          List.filter_eq_self.2 fun y hy => by simp [hsame y hy]
        have heq : x.1 = n := by omega
        simp [heq, hnone, hall]

/-- A sorted list falls into its groups. -/
theorem flatMap_filter_of_sorted (hsorted : pairs.Pairwise fun a b => a.1 ≤ b.1)
    (hbound : ∀ x ∈ pairs, x.1 < n) :
    (List.range n).flatMap (fun d => pairs.filter fun x => x.1 = d) = pairs := by
  induction n generalizing pairs with
  | zero =>
      cases pairs with
      | nil => rfl
      | cons x rest => simpa using hbound x List.mem_cons_self
  | succ n ih =>
      have hlow : (List.range n).flatMap (fun d => pairs.filter fun x => x.1 = d) =
          pairs.filter fun x => x.1 < n := by
        rw [← ih (hsorted.filter fun x => x.1 < n) (by simp)]
        refine List.flatMap_congr fun d hd => ?_
        have hd := List.mem_range.1 hd
        rw [List.filter_filter]
        refine List.filter_congr fun x _ => ?_
        simp only [← Bool.decide_and, decide_eq_decide]
        omega
      rw [List.range_succ, List.flatMap_append, hlow, List.flatMap_singleton]
      exact filter_lt_append_filter_eq hsorted hbound

theorem fst_le_trans (a b c : Nat × β) (hab : decide (a.1 ≤ b.1)) (hbc : decide (b.1 ≤ c.1)) :
    decide (a.1 ≤ c.1) :=
  decide_eq_true (Nat.le_trans (of_decide_eq_true hab) (of_decide_eq_true hbc))

theorem fst_le_total (a b : Nat × β) : decide (a.1 ≤ b.1) || decide (b.1 ≤ a.1) := by
  simpa using Nat.le_total a.1 b.1

/-- A stable sort leaves each group in its order. -/
theorem filter_mergeSort (pairs : List (Nat × β)) (d : Nat) :
    (pairs.mergeSort fun a b => a.1 ≤ b.1).filter (fun x => x.1 = d) =
      pairs.filter fun x => x.1 = d := by
  have hgroup : (pairs.filter fun x => x.1 = d).Pairwise fun a b => decide (a.1 ≤ b.1) := by
    rw [List.pairwise_filter]
    refine List.pairwise_of_forall fun a b ha hb => ?_
    simp only [decide_eq_true_eq] at ha hb ⊢
    omega
  have hsub := List.sublist_mergeSort fst_le_trans fst_le_total hgroup List.filter_sublist
  have hfiltered := hsub.filter fun x => x.1 = d
  rw [List.filter_filter] at hfiltered
  simp only [Bool.and_self] at hfiltered
  refine (hfiltered.eq_of_length ?_).symm
  exact ((List.mergeSort_perm pairs _).filter _).length_eq.symm

theorem mergeSort_eq_flatMap (hbound : ∀ x ∈ pairs, x.1 < n) :
    pairs.mergeSort (fun a b => a.1 ≤ b.1) =
      (List.range n).flatMap fun d => pairs.filter fun x => x.1 = d := by
  have hsorted := (List.pairwise_mergeSort fst_le_trans fst_le_total pairs).imp
    fun hab => of_decide_eq_true hab
  have hgroups := flatMap_filter_of_sorted hsorted fun x hx => hbound x (List.mem_mergeSort.1 hx)
  simpa only [filter_mergeSort] using hgroups.symm

end Sorting

namespace Tree

/-! ## Levels -/

/-- The nodes that are a number of slots below some trees, left to right. -/
def level (trees : List (Tree α)) : Nat → List (Tree α)
  | 0 => trees
  | d + 1 => (level trees d).flatMap children

/-- The number of nodes of some trees. -/
def sizes (trees : List (Tree α)) : Nat := trees.foldr (fun t n => t.size + n) 0

theorem level_succ (trees : List (Tree α)) (d : Nat) :
    level trees (d + 1) = level (trees.flatMap children) d := by
  induction d with
  | zero => rfl
  | succ d ih => rw [level, ih, level]

theorem level_append (trees more : List (Tree α)) (d : Nat) :
    level (trees ++ more) d = level trees d ++ level more d := by
  induction d with
  | zero => rfl
  | succ d ih => rw [level, ih, List.flatMap_append, level, level]

@[simp] theorem level_nil (d : Nat) : level ([] : List (Tree α)) d = [] := by
  induction d with
  | zero => rfl
  | succ d ih => rw [level, ih, List.flatMap_nil]

@[simp] theorem sizes_nil : sizes ([] : List (Tree α)) = 0 := rfl

@[simp] theorem sizes_cons (t : Tree α) (trees : List (Tree α)) :
    sizes (t :: trees) = t.size + sizes trees := rfl

@[simp] theorem sizes_append (trees more : List (Tree α)) :
    sizes (trees ++ more) = sizes trees + sizes more := by
  induction trees with
  | nil => simp
  | cons t trees ih => simp [ih, Nat.add_assoc]

theorem rowSize_eq (row : Row α) : rowSize row = sizes (row.filterMap id) := by
  induction row with
  | nil => rfl
  | cons s rest ih => cases s <;> simp [rowSize, ih]

/-- The next level has the nodes that are left without the first one. -/
theorem sizes_flatMap (trees : List (Tree α)) :
    sizes trees = trees.length + sizes (trees.flatMap children) := by
  induction trees with
  | nil => rfl
  | cons t trees ih =>
      have ht : t.size = sizes t.children + 1 := by rw [size_eq, rowSize_eq, children]
      simp only [sizes_cons, List.length_cons, List.flatMap_cons, sizes_append]
      omega

/-- The first levels, one after another. -/
theorem flatMap_level_succ (trees : List (Tree α)) (n : Nat) :
    (List.range (n + 1)).flatMap (level trees) =
      trees ++ (List.range n).flatMap (level (trees.flatMap children)) := by
  rw [List.range_succ_eq_map, List.flatMap_cons, List.flatMap_map]
  simp only [Nat.succ_eq_add_one, level_succ]
  rfl

/-- No node is deeper than there are nodes. -/
theorem level_eq_nil {trees : List (Tree α)} {d : Nat} (hd : sizes trees ≤ d) :
    level trees d = [] := by
  induction d generalizing trees with
  | zero =>
      have hsizes := sizes_flatMap trees
      have hlength : trees.length = 0 := by omega
      exact List.length_eq_zero_iff.1 hlength
  | succ d ih =>
      cases trees with
      | nil => exact level_nil _
      | cons t rest =>
          have := sizes_flatMap (t :: rest)
          rw [List.length_cons] at this
          rw [level_succ, ih (by omega)]

theorem length_flatMap_level {trees : List (Tree α)} {n : Nat} (hn : sizes trees ≤ n) :
    ((List.range n).flatMap (level trees)).length = sizes trees := by
  induction n generalizing trees with
  | zero =>
      rw [List.range_zero, List.flatMap_nil, List.length_nil]
      omega
  | succ n ih =>
      have hsizes := sizes_flatMap trees
      cases trees with
      | nil => simp
      | cons t rest =>
          rw [List.length_cons] at hsizes
          rw [flatMap_level_succ, List.length_append, ih (by omega), List.length_cons]
          omega

/-! ## Places by depth -/

mutual

/-- The nodes with their depths, in pre-order; the root has the given one. -/
def places : Nat → Tree α → List (Nat × Tree α)
  | d, .node v row => (d, .node v row) :: rowPlaces (d + 1) row

/-- The nodes in a row with their depths, in pre-order. -/
def rowPlaces : Nat → Row α → List (Nat × Tree α)
  | _, [] => []
  | d, none :: rest => rowPlaces d rest
  | d, some t :: rest => places d t ++ rowPlaces d rest

end

mutual

theorem map_snd_places (d : Nat) (t : Tree α) : (places d t).map Prod.snd = t.preorder := by
  cases t with
  | node v row => rw [places, List.map_cons, map_snd_rowPlaces (d + 1) row, preorder]

theorem map_snd_rowPlaces (d : Nat) (row : Row α) :
    (rowPlaces d row).map Prod.snd = rowPreorder row := by
  match row with
  | [] => rfl
  | none :: rest => exact map_snd_rowPlaces d rest
  | some t :: rest =>
      rw [rowPlaces, List.map_append, map_snd_places d t, map_snd_rowPlaces d rest, rowPreorder]

end

mutual

theorem depth_of_mem_places {d : Nat} {t : Tree α} :
    ∀ x ∈ places d t, d ≤ x.1 ∧ x.1 < d + t.size := by
  cases t with
  | node v row =>
      intro x hx
      rw [size]
      rcases List.mem_cons.1 hx with rfl | hx
      · exact ⟨Nat.le_refl d, by omega⟩
      · have := depth_of_mem_rowPlaces x hx
        omega

theorem depth_of_mem_rowPlaces {d : Nat} {row : Row α} :
    ∀ x ∈ rowPlaces d row, d ≤ x.1 ∧ x.1 < d + rowSize row := by
  match row with
  | [] => simp [rowPlaces]
  | none :: rest =>
      have hrest : ∀ x ∈ rowPlaces d rest, d ≤ x.1 ∧ x.1 < d + rowSize rest :=
        depth_of_mem_rowPlaces
      exact hrest
  | some t :: rest =>
      intro x hx
      rw [rowSize]
      rcases List.mem_append.1 hx with hx | hx
      · have := depth_of_mem_places x hx
        omega
      · have := depth_of_mem_rowPlaces x hx
        omega

end

mutual

/-- The places at one depth are a level. -/
theorem filter_places (d k : Nat) (t : Tree α) :
    ((places d t).filter fun x => x.1 = d + k).map Prod.snd = level [t] k := by
  cases t with
  | node v row =>
      cases k with
      | zero =>
          have hnone : (rowPlaces (d + 1) row).filter (fun x => x.1 = d) = [] := by
            rw [List.filter_eq_nil_iff]
            intro x hx
            have := depth_of_mem_rowPlaces x hx
            simp only [decide_eq_true_eq]
            omega
          simp [places, hnone, level]
      | succ k =>
          have hrow := filter_rowPlaces (d + 1) k row
          have hdepth : d + 1 + k = d + (k + 1) := by omega
          rw [hdepth] at hrow
          rw [level_succ, List.flatMap_singleton, children, slots_node, ← hrow, places,
            List.filter_cons_of_neg]
          simp

theorem filter_rowPlaces (d k : Nat) (row : Row α) :
    ((rowPlaces d row).filter fun x => x.1 = d + k).map Prod.snd =
      level (row.filterMap id) k := by
  match row with
  | [] => simp [rowPlaces]
  | none :: rest => exact filter_rowPlaces d k rest
  | some t :: rest =>
      rw [rowPlaces, List.filter_append, List.map_append, filter_places d k t,
        filter_rowPlaces d k rest, ← level_append]
      rfl

end

/-- Sorted by depth, the places come level by level. -/
theorem sort_places (t : Tree α) :
    ((places 0 t).mergeSort fun a b => a.1 ≤ b.1).map Prod.snd =
      (List.range t.size).flatMap (level [t]) := by
  have hbound : ∀ x ∈ places 0 t, x.1 < t.size := fun x hx => by
    have := depth_of_mem_places x hx
    omega
  rw [mergeSort_eq_flatMap hbound, List.map_flatMap]
  refine List.flatMap_congr fun d _ => ?_
  simpa using filter_places 0 d t

end Tree

open SlotTree.Tree

namespace BreadthFirst

/-! ## The walk -/

/-- The rest of a level comes before the children of its nodes, which follow those already found. -/
theorem yields_level {thisLevel : List (Tree α)} {families : List (List (Tree α))}
    {rest : List (Tree α)} (hlevel : thisLevel ≠ [])
    (hrest : (Cursor.breadthFirst
      ⟨families.reverse.flatten ++ thisLevel.flatMap children, []⟩).Yields rest) :
    (Cursor.breadthFirst ⟨thisLevel, families⟩).Yields (thisLevel ++ rest) := by
  induction thisLevel generalizing families with
  | nil => exact absurd rfl hlevel
  | cons t later ih =>
      cases later with
      | nil =>
          refine .step (t := t) rfl ?_
          simpa [nextLevel] using hrest
      | cons s later =>
          refine .step (t := t) rfl (ih (List.cons_ne_nil _ _) ?_)
          simpa using hrest

/-- From the start of a level on, a walk goes through all the levels to come. -/
theorem yields_levels {trees : List (Tree α)} {n : Nat} (hn : sizes trees ≤ n) :
    (Cursor.breadthFirst ⟨trees, []⟩).Yields ((List.range n).flatMap (level trees)) := by
  -- Induction on a bound of what is left; a level that is not empty leaves less to the next one.
  induction n generalizing trees with
  | zero =>
      have := sizes_flatMap trees
      obtain rfl : trees = [] := List.length_eq_zero_iff.1 (by omega)
      exact .done rfl
  | succ n ih =>
      have hsizes := sizes_flatMap trees
      cases trees with
      | nil =>
          have hnone : (List.range (n + 1)).flatMap (level ([] : List (Tree α))) = [] := by simp
          rw [hnone]
          exact .done rfl
      | cons t later =>
          rw [List.length_cons] at hsizes
          have hlater : sizes ((t :: later).flatMap children) ≤ n := by omega
          rw [flatMap_level_succ]
          exact yields_level (List.cons_ne_nil _ _) (ih hlater)

end BreadthFirst

theorem BreadthFirst.yields_start (t : Tree α) :
    (Cursor.start .breadthFirst t).Yields ((List.range t.size).flatMap (level [t])) :=
  BreadthFirst.yields_levels (Nat.le_refl _)

theorem Tree.walk_breadthFirst (t : Tree α) :
    t.walk .breadthFirst = (List.range t.size).flatMap (level [t]) := by
  apply (BreadthFirst.yields_start t).takeAll_eq
  have hlength : ((List.range t.size).flatMap (level [t])).length = sizes [t] :=
    length_flatMap_level (Nat.le_refl t.size)
  rw [hlength]
  rfl

/-- A walk in breadth goes through the levels of a tree, of which there are no more than nodes. Its
nodes are the places of a walk in depth, stably sorted by depth. -/
theorem Cursor.breadthFirst_lists (t : Tree α) :
    t.walk .breadthFirst = (List.range t.size).flatMap (level [t]) ∧
      (∀ d, level [t] (t.size + d) = []) ∧
      (places 0 t).map Prod.snd = t.walk .depthFirst ∧
      ((places 0 t).mergeSort fun a b => a.1 ≤ b.1).map Prod.snd = t.walk .breadthFirst ∧
      (start .breadthFirst t).Lists (t.walk .breadthFirst) := by
  refine ⟨t.walk_breadthFirst, fun d => level_eq_nil (Nat.le_add_right _ _), ?_, ?_, ?_⟩
  · rw [map_snd_places, walk_depthFirst]
  · rw [sort_places, walk_breadthFirst]
  · rw [walk_breadthFirst]
    exact (BreadthFirst.yields_start t).lists

end SlotTree
