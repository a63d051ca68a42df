import SlotTree.Workspace.Registry
import Mathlib.Data.List.Perm.Basic
import Mathlib.Data.String.Basic

/-! # Registries in order

In a registry in ascending order a name stands once at most. What stands under a name and what does
not are the parts of the registry: storing and forgetting exchange the first and keep the second.
-/

namespace SlotTree.Registry

universe u

variable {β : Type u}

open List

/-- The names ascend. -/
def Sorted (r : Registry β) : Prop := r.entries.Pairwise fun a b => a.1 < b.1

/-- The entry of a name, if there is one. -/
def entryOf (r : Registry β) (name : String) : List (String × β) :=
  (r.get? name).toList.map fun b => (name, b)

theorem sorted_empty : (empty : Registry β).Sorted := List.Pairwise.nil

theorem Sorted.erase {r : Registry β} (sorted : r.Sorted) (name : String) :
    (r.erase name).Sorted :=
  List.Pairwise.filter _ sorted

theorem mem_insertEntry {name : String} {b : β} {entries : List (String × β)}
    {entry : String × β} (hentry : entry ∈ insertEntry name b entries) :
    entry = (name, b) ∨ entry ∈ entries := by
  induction entries with
  | nil => simpa [insertEntry] using hentry
  | cons head rest ih =>
      unfold insertEntry at hentry
      split at hentry
      · simpa using hentry
      · split at hentry
        · rcases List.mem_cons.1 hentry with hhead | hrest
          · exact .inl hhead
          · exact .inr (List.mem_cons_of_mem _ hrest)
        · rcases List.mem_cons.1 hentry with hhead | hrest
          · exact .inr (hhead ▸ List.mem_cons_self)
          · exact (ih hrest).imp_right fun hold => List.mem_cons_of_mem _ hold

theorem Sorted.insert {r : Registry β} (sorted : r.Sorted) (name : String) (b : β) :
    (r.insert name b).Sorted := by
  obtain ⟨entries⟩ := r
  change (insertEntry name b entries).Pairwise fun a b => a.1 < b.1
  replace sorted : entries.Pairwise fun a b => a.1 < b.1 := sorted
  induction entries with
  | nil => exact List.pairwise_singleton _ _
  | cons head rest ih =>
      obtain ⟨hhead, hrest⟩ := List.pairwise_cons.1 sorted
      unfold insertEntry
      split
      · next hlt =>
          refine List.pairwise_cons.2 ⟨fun entry hentry => ?_, sorted⟩
          rcases List.mem_cons.1 hentry with rfl | hentry
          · exact hlt
          · exact hlt.trans (hhead entry hentry)
      · next hlt =>
          split
          · next heq =>
              subst heq
              exact List.pairwise_cons.2 ⟨hhead, hrest⟩
          · next hne =>
              have hgt : head.1 < name := lt_of_le_of_ne (not_lt.1 hlt) (Ne.symm hne)
              refine List.pairwise_cons.2 ⟨fun entry hentry => ?_, ih hrest⟩
              rcases mem_insertEntry hentry with rfl | hentry
              · exact hgt
              · exact hhead entry hentry

/-! ## Other names -/

theorem get?_insert_of_ne {name other : String} (hne : other ≠ name) (r : Registry β) (b : β) :
    (r.insert name b).get? other = r.get? other := by
  obtain ⟨entries⟩ := r
  change (insertEntry name b entries).lookup other = entries.lookup other
  have hother : (other == name) = false := by simpa using hne
  induction entries with
  | nil => simp [insertEntry, List.lookup_cons, hother]
  | cons head rest ih =>
      obtain ⟨key, c⟩ := head
      unfold insertEntry
      split
      · rw [List.lookup_cons, hother]
      · split
        · next heq =>
            obtain rfl : name = key := heq
            rw [List.lookup_cons, List.lookup_cons, hother]
        · rw [List.lookup_cons, List.lookup_cons, ih]

theorem get?_erase_of_ne {name other : String} (hne : other ≠ name) (r : Registry β) :
    (r.erase name).get? other = r.get? other := by
  obtain ⟨entries⟩ := r
  change (entries.filter fun entry => entry.1 != name).lookup other = entries.lookup other
  induction entries with
  | nil => rfl
  | cons head rest ih =>
      obtain ⟨key, c⟩ := head
      by_cases hkey : key = name
      · have hskip : (other == key) = false := by simpa [hkey] using hne
        rw [List.filter_cons_of_neg (by simpa using hkey), ih, List.lookup_cons, hskip]
      · rw [List.filter_cons_of_pos (by simpa using hkey), List.lookup_cons, List.lookup_cons, ih]

/-- Past a greater name, the name does not stand any more. -/
theorem filter_ne_of_lt {name : String} {entries : List (String × β)}
    (hlt : ∀ entry ∈ entries, name < entry.1) :
    entries.filter (fun entry => entry.1 != name) = entries := by
  apply List.filter_eq_self.2
  intro entry hentry
  simpa using (hlt entry hentry).ne'

/-- The entry that is stored, and those of other names. -/
theorem Sorted.insert_perm {r : Registry β} (sorted : r.Sorted) (name : String) (b : β) :
    (r.insert name b).entries ~ (name, b) :: (r.erase name).entries := by
  obtain ⟨entries⟩ := r
  change insertEntry name b entries ~ (name, b) :: entries.filter fun entry => entry.1 != name
  replace sorted : entries.Pairwise fun a b => a.1 < b.1 := sorted
  induction entries with
  | nil => exact .refl _
  | cons head rest ih =>
      obtain ⟨hhead, hrest⟩ := List.pairwise_cons.1 sorted
      unfold insertEntry
      split
      · next hlt =>
          have hall : ∀ entry ∈ head :: rest, name < entry.1 := by
            intro entry hentry
            rcases List.mem_cons.1 hentry with rfl | hentry
            · exact hlt
            · exact hlt.trans (hhead entry hentry)
          rw [filter_ne_of_lt hall]
      · split
        · next heq =>
            subst heq
            rw [List.filter_cons_of_neg (by simp), filter_ne_of_lt hhead]
        · next hne =>
            rw [List.filter_cons_of_pos (by simpa using Ne.symm hne)]
            exact ((ih hrest).cons head).trans (List.Perm.swap _ _ _)

/-- The entry of a name, and those of other names. -/
theorem Sorted.entries_perm {r : Registry β} (sorted : r.Sorted) (name : String) :
    r.entries ~ r.entryOf name ++ (r.erase name).entries := by
  obtain ⟨entries⟩ := r
  change entries ~ ((entries.lookup name).toList.map fun b => (name, b)) ++
    entries.filter fun entry => entry.1 != name
  replace sorted : entries.Pairwise fun a b => a.1 < b.1 := sorted
  induction entries with
  | nil => exact .refl _
  | cons head rest ih =>
      obtain ⟨hhead, hrest⟩ := List.pairwise_cons.1 sorted
      obtain ⟨other, b⟩ := head
      by_cases heq : name = other
      · subst heq
        rw [List.lookup_cons_self, List.filter_cons_of_neg (by simp), filter_ne_of_lt hhead]
        exact .refl _
      · have hne : (name == other) = false := by simpa using heq
        rw [List.lookup_cons, hne, List.filter_cons_of_pos (by simpa using Ne.symm heq)]
        exact ((ih hrest).cons _).trans List.perm_middle.symm

theorem Sorted.mem_of_get? {r : Registry β} (sorted : r.Sorted) {name : String} {b : β}
    (hget : r.get? name = some b) : (name, b) ∈ r.entries := by
  refine (sorted.entries_perm name).mem_iff.2 (List.mem_append_left _ ?_)
  simp [entryOf, hget]

theorem mem_of_mem_erase {r : Registry β} {name : String} {entry : String × β}
    (hentry : entry ∈ (r.erase name).entries) : entry ∈ r.entries :=
  (List.mem_filter.1 hentry).1

end SlotTree.Registry
