import CoreLowering.Proofs.Machine.Evaluation

/-!
# Invariants of the machine

An invariant says what holds of the control and of every frame on the stack.
Once entering a term and giving a value back to a frame keep it, it holds of
the way every evaluation ends.

Main statements: `Invariant.runFor` and `Invariant.evaluate`.
-/

namespace CoreLowering.Machine

variable {s : State} {t : Term}

/-- What a computation gives has the one property, and the reason why it gives
nothing the other. -/
def Gives {ε α : Type} (E : ε → Prop) (P : α → Prop) : Except ε α → Prop
  | .ok a => P a
  | .error why => E why

namespace Gives

variable {ε α β : Type} {E : ε → Prop} {P : α → Prop} {Q : β → Prop} {x : Except ε α}
  {f : α → Except ε β}

theorem bind (hx : Gives E P x) (hf : ∀ a, P a → Gives E Q (f a)) : Gives E Q (x >>= f) := by
  cases x with
  | ok a => exact hf a hx
  | error why => exact hx

theorem ite {p : Prop} [Decidable p] {y : Except ε α} (hx : p → Gives E P x)
    (hy : ¬p → Gives E P y) : Gives E P (if p then x else y) := by
  split
  · exact hx ‹_›
  · exact hy ‹_›

end Gives

/-- Properties of the control, of frames and of failures that the machine
keeps, whatever the rest of the stack is. -/
structure Invariant (w : Version) where
  control : Control → Prop
  frame : Frame → Prop
  failure : Failure → Prop
  enter {t : Term} {env : Env} : control (.enter t env) →
    Gives failure (fun r => control r.1 ∧ ∀ f ∈ r.2, frame f) (enter w t env)
  resume {f : Frame} {v : Value} : frame f → control (.back v) →
    Gives failure (fun r => control r.1 ∧ ∀ g ∈ r.2.1, frame g) (resume w f v)

namespace Invariant

variable {m : Settings} (I : Invariant m.version)

/-- The invariant of a state. -/
structure OfState (s : State) : Prop where
  control : I.control s.control
  stack : ∀ f ∈ s.stack, I.frame f

/-- The invariant of the end of a run, which the budget may always bring. -/
def OfRun (r : Run) : Prop :=
  match r.result with
  | .ok v => I.control (.back v)
  | .error (.failure why) => I.failure why
  | .error .budget => True

/-- One move leads to a state with the invariant or to such an end. -/
theorem step (h : I.OfState s) : (step m s).elim I.OfState I.OfRun := by
  obtain ⟨control, stack, steps, logs⟩ := s
  obtain ⟨hcontrol, hstack⟩ := h
  have hpush : ∀ frames rest : List Frame, (∀ f ∈ frames, I.frame f) → (∀ f ∈ rest, I.frame f) →
      ∀ f ∈ frames ++ rest, I.frame f := fun frames rest hframes hrest f hf =>
    (List.mem_append.1 hf).elim (hframes f) (hrest f)
  cases control with
  | enter t env =>
    have hnext := I.enter hcontrol
    simp only [Machine.step]
    split
    · trivial
    · cases hr : Machine.enter m.version t env with
      | ok r =>
        rw [hr] at hnext
        exact ⟨hnext.1, hpush _ _ hnext.2 hstack⟩
      | error why =>
        rw [hr] at hnext
        exact hnext
  | back v =>
    cases stack with
    | nil => exact hcontrol
    | cons frame rest =>
      rw [List.forall_mem_cons] at hstack
      have hnext := I.resume hstack.1 hcontrol
      simp only [Machine.step]
      cases hr : Machine.resume m.version frame v with
      | ok r =>
        rw [hr] at hnext
        exact ⟨hnext.1, hpush _ _ hnext.2 hstack.2⟩
      | error why =>
        rw [hr] at hnext
        exact hnext

/-- Every run ends with the invariant. -/
theorem runFor {fuel : Nat} {r : Run} (h : I.OfState s) (hrun : runFor m fuel s = some r) :
    I.OfRun r := by
  induction fuel, s, hrun using runFor_induction with
  | last hs =>
    have hstep := I.step h
    rw [hs] at hstep
    exact hstep
  | next hs _ ih =>
    have hstep := I.step h
    rw [hs] at hstep
    exact ih hstep

theorem start (h : I.control (.enter t [])) : I.OfState (State.start t) :=
  ⟨h, by simp [State.start]⟩

theorem evaluate (h : I.control (.enter t [])) : I.OfRun (evaluate m t) := by
  rw [Machine.evaluate]
  cases hr : Machine.runFor m unreachable (State.start t) with
  | none => trivial
  | some r => exact I.runFor (I.start h) hr

end Invariant

end CoreLowering.Machine
