import SlotTree.Proofs.Drain.Pass

/-! # The drain runs by its rules

Each pass leaves one node more without slots, and no pass goes deeper than the heap is large, so the
bounds of the drain are never reached: what it does and reports is what the rules say.
-/

namespace SlotTree.Heap

universe u

variable {α : Type u} {h k : Heap α} {holders : List NodeId} {root : NodeId}

/-- A drain keeps the heap owned, empties the root, and is not seen by those who reach nothing
through the root. Each of its pops meets an owned heap and frees one node at most. -/
structure DrainSpec (root : NodeId) (holders : List NodeId) (h : Heap α)
    (passes : List (List (Pop α))) (k : Heap α) : Prop where
  owned : k.Owned holders
  empty : k.slotsOf root = []
  unseen : Unseen holders (h.setSlots root []) k (passes.flatMap freedIn)
  shallow : ∀ pops ∈ passes, ∀ p ∈ pops, p.heap.Owned holders ∧ p.Shallow

theorem DrainDerivation.spec {passes : List (List (Pop α))}
    (hdrain : DrainDerivation root h passes k) (owned : h.Owned holders) :
    DrainSpec root holders h passes k := by
  induction hdrain with
  | @done h hrow =>
      have hsame : h.setSlots root [] = h := by rw [← hrow, setSlots_slotsOf]
      refine ⟨owned, hrow, ?_, by simp⟩
      rw [hsame]
      exact .refl holders h
  | pass _ hpass _ ih =>
      have hfirst := hpass.spec owned (.inl rfl)
      have hrest := ih hfirst.owned
      refine ⟨hrest.owned, hrest.empty, hfirst.unseen.trans hrest.unseen, ?_⟩
      intro pops hpops
      rcases List.mem_cons.1 hpops with rfl | hpops
      · exact hfirst.shallow
      · exact hrest.shallow pops hpops

theorem drainFrom_derivation {budget : Nat} (owned : h.Owned holders) (hroot : h.Live root)
    (hbudget : h.laden ≤ budget) (passes pops : Nat) :
    ∃ done, DrainDerivation root h done (drainFrom budget h root passes pops).1 ∧
      (drainFrom budget h root passes pops).2 = reportPasses h.policy passes pops done := by
  induction budget generalizing h passes pops with
  | zero =>
      obtain ⟨n, hn⟩ := live_iff.1 hroot
      have hrow : h.slotsOf root = [] := by
        rw [slotsOf_eq hn]
        by_contra hrow
        have := laden_pos hn hrow
        omega
      exact ⟨[], .done hrow, rfl⟩
  | succ budget ih =>
      by_cases hrow : h.slotsOf root = []
      · rw [drainFrom_of_empty hrow]
        exact ⟨[], .done hrow, rfl⟩
      · rw [drainFrom_succ hrow]
        obtain ⟨now, hpass, hvalues, hcount⟩ :=
          drainPass_derivation owned hroot (height_le_size h root)
        have hspec := hpass.spec owned (.inl rfl)
        have hlt := hpass.laden_lt owned hrow
        have hpolicy : (drainPass h.cells.size h root).heap.policy = h.policy := by
          simpa using hspec.unseen.policy_eq
        obtain ⟨later, hrest, hreport⟩ := ih hspec.owned (hspec.live_root owned hroot)
          (by omega) (passes + 1) (pops + (drainPass h.cells.size h root).pops)
        refine ⟨now :: later, .pass hrow hpass hrest, ?_⟩
        rw [hpolicy, hcount] at hreport
        simp only [reportPasses, hvalues, hcount, hreport]

theorem drain_derivation (owned : h.Owned holders) (hroot : h.Live root) :
    ∃ passes, DrainDerivation root h passes (h.drain root).1 ∧
      (h.drain root).2 = reportPasses h.policy 0 0 passes :=
  drainFrom_derivation owned hroot (laden_le_size h) 0 0

/-- The drain ends by the rules, in one way only: so each descent finds the node it goes to, which
may be changed. Each pop takes off a hole, or one of several handles to a node, whose count falls by
one, or the only handle to a node without slots, which alone is freed. -/
theorem drain_pops_shallow (owned : h.Owned holders) (hroot : h.isExclusive root) :
    ∃ passes,
      (∀ others k, DrainDerivation root h others k ↔ others = passes ∧ k = (h.drain root).1) ∧
      (h.drain root).2 = reportPasses h.policy 0 0 passes ∧
      (∀ (g : Heap α) row, g.canDescend row → (g.backNode? row).isSome) ∧
      ∀ pops ∈ passes, ∀ p ∈ pops, p.heap.Owned holders ∧ p.Shallow := by
  obtain ⟨passes, hdrain, hreport⟩ := drain_derivation owned (isExclusive_iff.1 hroot).1
  refine ⟨passes, fun others k => ⟨fun hother => ?_, ?_⟩, hreport, fun g row hcan => ?_,
    (hdrain.spec owned).shallow⟩
  · exact hother.deterministic hdrain
  · rintro ⟨rfl, rfl⟩
    exact hdrain
  · obtain ⟨next, hnext⟩ := canDescend_iff.1 hcan
    rw [backNode?_of_enter? hnext, Option.isSome_some]

theorem drain_pops_shallow_diamond :
    diamond.isExclusive 2 ∧ ∃ passes,
      (∀ others k, DrainDerivation 2 diamond others k ↔
        others = passes ∧ k = (diamond.drain 2).1) ∧
      (diamond.drain 2).2 = reportPasses .shared 0 0 passes ∧
      (∀ (g : Heap Nat) row, g.canDescend row → (g.backNode? row).isSome) ∧
      ∀ pops ∈ passes, ∀ p ∈ pops, p.heap.Owned [2] ∧ p.Shallow :=
  ⟨rfl, drain_pops_shallow owned_diamond rfl⟩

end SlotTree.Heap
