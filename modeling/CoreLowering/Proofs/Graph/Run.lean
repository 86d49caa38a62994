import CoreLowering.Graph.LowerExpr

/-!
# Running steps of a lowering

A step of a lowering changes the state and gives a result or fails.  These
are the equations of `LowerM.run`, one for each way in which steps are put
together.
-/

namespace CoreLowering.Graph

variable {α β : Type} {s s' : State} {m : LowerM α} {f : α → LowerM β}

@[simp]
theorem run_pure (a : α) : (pure a : LowerM α).run s = (.ok a, s) := rfl

theorem run_bind (m : LowerM α) (f : α → LowerM β) :
    (m >>= f).run s =
      match m.run s with
      | (.ok a, s') => (f a).run s'
      | (.error e, s') => (.error e, s') := by
  simp only [LowerM.run, ExceptT.run_bind, StateT.run_bind]
  cases h : StateT.run (ExceptT.run m) s with
  | mk r s' => cases r <;> rfl

/-- A step that succeeds, followed by another. -/
theorem run_bind_of_ok {a : α} (h : m.run s = (.ok a, s')) : (m >>= f).run s = (f a).run s' := by
  rw [run_bind, h]

/-- A step that fails ends what follows it. -/
theorem run_bind_of_error {e : Failure} (h : m.run s = (.error e, s')) :
    (m >>= f).run s = (.error e, s') := by
  rw [run_bind, h]

/-- Two steps succeed if the first one does and then the second. -/
theorem run_bind_ok {b : β} :
    (m >>= f).run s = (.ok b, s') ↔
      ∃ a s₁, m.run s = (.ok a, s₁) ∧ (f a).run s₁ = (.ok b, s') := by
  rw [run_bind]
  constructor
  · intro h
    rcases hm : m.run s with ⟨_ | a, s₁⟩ <;> rw [hm] at h
    · simp at h
    · exact ⟨a, s₁, rfl, h⟩
  · rintro ⟨a, s₁, hm, hf⟩
    rw [hm]
    exact hf

@[simp]
theorem run_get : (get : LowerM State).run s = (.ok s, s) := rfl

@[simp]
theorem run_modify (f : State → State) : (modify f : LowerM Unit).run s = (.ok (), f s) := rfl

@[simp]
theorem run_modifyGet (f : State → α × State) :
    (modifyGet f : LowerM α).run s = (.ok (f s).1, (f s).2) := rfl

@[simp]
theorem run_throw (e : Failure) : (throw e : LowerM α).run s = (.error e, s) := rfl

theorem run_tryCatch (m : LowerM α) (f : Failure → LowerM α) :
    (tryCatch m f).run s =
      match m.run s with
      | (.ok a, s') => (.ok a, s')
      | (.error e, s') => (f e).run s' := by
  have h : (tryCatch m f : LowerM α) = ExceptT.tryCatch m f := rfl
  simp only [h, LowerM.run, ExceptT.tryCatch, ExceptT.mk, ExceptT.run, bind, StateT.bind,
    StateT.run]
  rcases m s with ⟨_ | a, s1⟩ <;> rfl

end CoreLowering.Graph
