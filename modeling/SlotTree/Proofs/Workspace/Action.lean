import SlotTree.Workspace.Basic

/-! # How actions end

An action ends in one of two ways. The rules follow the steps of an action from the workspace it
starts in, with a condition for the answer and one for the failure.
-/

namespace SlotTree

/-! ## Answers of several parts -/

section Except

variable {ε ε' α β : Type}

theorem ok_of_bind {x : Except ε α} {next : α → Except ε β} {b : β}
    (hok : (x >>= next) = .ok b) : ∃ a, x = .ok a ∧ next a = .ok b := by
  cases x with
  | error e => nomatch hok
  | ok a => exact ⟨a, rfl, hok⟩

theorem ok_of_mapError {x : Except ε α} {f : ε → ε'} {a : α} (hok : x.mapError f = .ok a) :
    x = .ok a := by
  cases x with
  | error e => nomatch hok
  | ok b => exact congrArg Except.ok (Except.ok.inj hok)

end Except

namespace Action

/-! ## Rules -/

variable {α β : Type} {w : Workspace} {Q : α → Workspace → Prop} {R : β → Workspace → Prop}
  {E F : Workspace → Prop}

/-- From a workspace, an action ends with an answer and a workspace that fit together, or it fails
in a workspace that is fit for that. -/
def Ends (act : Action α) (w : Workspace) (Q : α → Workspace → Prop) (E : Workspace → Prop) :
    Prop :=
  match act.run.run w with
  | (.ok a, after) => Q a after
  | (.error _, after) => E after

theorem ends_pure {a : α} (ha : Q a w) : (pure a : Action α).Ends w Q E := ha

theorem ends_throw {failure : Failure} (he : E w) : (throw failure : Action α).Ends w Q E := he

theorem run_bind (act : Action β) (next : β → Action α) (w : Workspace) :
    (act >>= next).run.run w =
      match act.run.run w with
      | (.ok b, after) => (next b).run.run after
      | (.error failure, after) => (.error failure, after) := by
  change ExceptT.bindCont next (act.run.run w).1 (act.run.run w).2 = _
  rcases act.run.run w with ⟨result, after⟩
  cases result <;> rfl

theorem run_tryCatch (act : Action α) (handle : Failure → Action α) (w : Workspace) :
    (tryCatch act handle : Action α).run.run w =
      match act.run.run w with
      | (.ok a, after) => (.ok a, after)
      | (.error failure, after) => (handle failure).run.run after := by
  simp only [tryCatch, tryCatchThe, MonadExceptOf.tryCatch, ExceptT.tryCatch, ExceptT.mk,
    ExceptT.run, StateT.run, bind, StateT.bind]
  rcases act w with ⟨result, after⟩
  cases result <;> rfl

theorem run_look (f : Workspace → Except Failure α) (w : Workspace) :
    (look f).run.run w = (f w, w) := by
  unfold look
  rw [run_bind]
  change (MonadExcept.ofExcept (f w) : Action α).run.run w = _
  cases f w <;> rfl

theorem Ends.bind {act : Action β} {next : β → Action α} (hact : act.Ends w R E)
    (hnext : ∀ b after, R b after → (next b).Ends after Q E) : (act >>= next).Ends w Q E := by
  unfold Ends at hact ⊢
  rw [run_bind]
  rcases hrun : act.run.run w with ⟨result, after⟩
  rw [hrun] at hact
  cases result with
  | ok b => exact hnext b after hact
  | error failure => exact hact

/-- Looking changes nothing, and may fail. -/
theorem ends_look {f : Workspace → Except Failure α}
    (he : ∀ failure, f w = .error failure → E w) (hq : ∀ a, f w = .ok a → Q a w) :
    (look f).Ends w Q E := by
  unfold Ends
  rw [run_look]
  cases hf : f w with
  | ok a => exact hq a hf
  | error failure => exact he failure hf

theorem ends_look_bind {f : Workspace → Except Failure β} {next : β → Action α}
    (he : ∀ failure, f w = .error failure → E w)
    (hnext : ∀ b, f w = .ok b → (next b).Ends w Q E) : (look f >>= next).Ends w Q E := by
  refine (ends_look he fun b hf => ⟨hf, rfl⟩ :
    (look f).Ends w (fun b after => f w = .ok b ∧ after = w) E).bind fun b after hb => ?_
  obtain ⟨hf, rfl⟩ := hb
  exact hnext b hf

/-- A part that is needed is there, or the action fails. -/
theorem ends_need_bind {field : Field β} {next : β → Action α} (he : field = none → E w)
    (hnext : ∀ b, field = some b → (next b).Ends w Q E) :
    ((look fun _ => field.need) >>= next).Ends w Q E := by
  cases field with
  | none => exact ends_look_bind (fun _ _ => he rfl) fun _ hneed => nomatch hneed
  | some b =>
      apply ends_look_bind
      · intro failure hneed
        nomatch hneed
      · intro other hneed
        rw [← Except.ok.inj hneed]
        exact hnext b rfl

theorem ends_modify {f : Workspace → Workspace} {Q : PUnit → Workspace → Prop}
    (hq : Q ⟨⟩ (f w)) : (modify f : Action PUnit).Ends w Q E := hq

theorem ends_modify_bind {f : Workspace → Workspace} {next : PUnit → Action α}
    (hnext : (next ⟨⟩).Ends (f w) Q E) : (modify f >>= next).Ends w Q E := by
  unfold Ends
  rw [run_bind]
  exact hnext

theorem ends_set_bind {other : Workspace} {next : PUnit → Action α}
    (hnext : (next ⟨⟩).Ends other Q E) : (set other >>= next).Ends w Q E := by
  unfold Ends
  rw [run_bind]
  exact hnext

theorem ends_alter_bind {f : Workspace → β × Workspace} {next : β → Action α}
    (hnext : (next (f w).1).Ends (f w).2 Q E) : (alter f >>= next).Ends w Q E := by
  unfold Ends
  rw [run_bind]
  exact hnext

theorem ends_alter {f : Workspace → α × Workspace} (hq : Q (f w).1 (f w).2) :
    (alter f).Ends w Q E := hq

theorem ends_get_bind {next : Workspace → Action α} (hnext : (next w).Ends w Q E) :
    (get >>= next).Ends w Q E := by
  unfold Ends
  rw [run_bind]
  exact hnext

/-- Slots in hand are given up when the action fails. -/
theorem ends_holding {slots : List Slot} {act : Action α} (hact : act.Ends w Q F)
    (hgive : ∀ after, F after → E (after.giveUp slots)) : (holding slots act).Ends w Q E := by
  unfold Ends holding at *
  rw [run_tryCatch]
  rcases hrun : act.run.run w with ⟨result, after⟩
  rw [hrun] at hact
  cases result with
  | ok a => exact hact
  | error failure => exact hgive after hact

end Action

end SlotTree
