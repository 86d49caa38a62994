import CoreLowering.Proofs.Machine.Evaluation

/-!
# Later versions go on where earlier ones do

A later version of the language has all that an earlier one has.  A machine of
the later version therefore makes every move of a machine of the earlier one,
and can differ only where the earlier one fails for the lack of something.

Main statements: `step_later` for one move, `runFor_later` for runs,
`later_version_conservative`.
-/

namespace CoreLowering

variable {w w' : Version} {s : State} {budget : Int}

theorem Version.hasConstr_later (h : w.rank ≤ w'.rank) (hw : w.hasConstr = true) :
    w'.hasConstr = true := by
  simp only [Version.hasConstr, decide_eq_true_eq] at hw ⊢
  omega

theorem Version.hasBuiltinCase_later (h : w.rank ≤ w'.rank) (hw : w.hasBuiltinCase = true) :
    w'.hasBuiltinCase = true := by
  simp only [Version.hasBuiltinCase, decide_eq_true_eq] at hw ⊢
  omega

theorem Builtin.availableIn_later {f : Builtin} (h : w.rank ≤ w'.rank)
    (hf : f.availableIn w = true) : f.availableIn w' = true := by
  simp only [Builtin.availableIn, Bool.and_eq_true, decide_eq_true_eq] at hf ⊢
  exact ⟨hf.1, by omega⟩

namespace Machine

/-- Whether a failure is about something that a version does not have. -/
def Failure.isLack : Failure → Bool
  | .noBuiltin _ _ | .noConstr _ | .noCase _ | .caseValue _ _ => true
  | _ => false

/-- Whether a run ended for the lack of something. -/
def Run.isLack (r : Run) : Bool :=
  match r.result with
  | .error (.failure why) => why.isLack
  | _ => false

/-! ## One move -/

theorem enter_later (h : w.rank ≤ w'.rank) {t : Term} {env : Env}
    (hlack : ∀ why, enter w t env = .error why → why.isLack = false) :
    enter w' t env = enter w t env := by
  cases t with
  | builtin f =>
    by_cases hf : f.availableIn w = true
    · simp only [enter, hf, Builtin.availableIn_later h hf, if_true]
    · simp only [enter, if_neg hf] at hlack
      cases hlack _ rfl
  | constr tag fields =>
    by_cases hw : w.hasConstr = true
    · simp only [enter, hw, Version.hasConstr_later h hw, if_true]
    · simp only [enter, if_neg hw] at hlack
      cases hlack _ rfl
  | case s branches =>
    by_cases hw : w.hasConstr = true
    · simp only [enter, hw, Version.hasConstr_later h hw, if_true]
    · simp only [enter, if_neg hw] at hlack
      cases hlack _ rfl
  | var | lam | delay | con | error | apply | force | unknown | missing => rfl

theorem selectBranch_later (h : w.rank ≤ w'.rank) {s : Value} {branches : List Term}
    (hlack : ∀ why, selectBranch w s branches = .error why → why.isLack = false) :
    selectBranch w' s branches = selectBranch w s branches := by
  cases s with
  | constr tag fields => rfl
  | con c =>
    by_cases hw : w.hasBuiltinCase = true
    · simp only [selectBranch, hw, Version.hasBuiltinCase_later h hw, Bool.not_true,
        Bool.false_eq_true, if_false]
    · simp only [selectBranch, hw, Bool.not_false, if_true] at hlack
      cases hlack _ rfl
  | delay | lam | builtin => cases hlack _ rfl

theorem resume_later (h : w.rank ≤ w'.rank) {frame : Frame} {v : Value}
    (hlack : ∀ why, resume w frame v = .error why → why.isLack = false) :
    resume w' frame v = resume w frame v := by
  cases frame with
  | scrutinee branches env =>
    have hselect : selectBranch w' v branches = selectBranch w v branches := by
      refine selectBranch_later h fun why hwhy => hlack why ?_
      simp only [resume, hwhy]
      rfl
    simp only [resume, hselect]
  | argument | function | force | field | branch => rfl

/-- **A later version makes every move** that does not end the run for the
lack of something. -/
theorem step_later (h : w.rank ≤ w'.rank)
    (hlack : ∀ r, step ⟨w, budget⟩ s = .inr r → r.isLack = false) :
    step ⟨w', budget⟩ s = step ⟨w, budget⟩ s := by
  obtain ⟨control, stack, steps, logs⟩ := s
  cases control with
  | enter t env =>
    by_cases hbudget : 0 < budget ∧ budget < ((steps + 1 : Nat) : Int)
    · simp only [step, if_pos hbudget]
    · simp only [step, if_neg hbudget] at hlack ⊢
      rw [enter_later h]
      intro why hwhy
      rw [hwhy] at hlack
      exact hlack _ rfl
  | back v =>
    cases stack with
    | nil => rfl
    | cons frame rest =>
      simp only [step] at hlack ⊢
      rw [resume_later h]
      intro why hwhy
      rw [hwhy] at hlack
      exact hlack _ rfl

/-! ## Runs -/

theorem runFor_later (h : w.rank ≤ w'.rank) {fuel : Nat} {r : Run}
    (hrun : runFor ⟨w, budget⟩ fuel s = some r) (hr : r.isLack = false) :
    runFor ⟨w', budget⟩ fuel s = some r := by
  induction fuel, s, hrun using runFor_induction with
  | last hs =>
    refine runFor_last ((step_later h fun r' hs' => ?_).trans hs)
    cases hs.symm.trans hs'
    exact hr
  | next hs _ ih =>
    have hstep := (step_later h fun r' hs' => nomatch hs.symm.trans hs').trans hs
    rw [runFor_next hstep]
    exact ih

/-- **Later versions are conservative.**  A term that has a value in one
version has the same value in every later one, with any budget, after as many
steps and with the same messages. -/
theorem later_version_conservative (h : w.rank ≤ w'.rank) (budget : Int) (t : Term) :
    (∀ fuel r v, runFor ⟨w, budget⟩ fuel (State.start t) = some r → r.result = .ok v →
      runFor ⟨w', budget⟩ fuel (State.start t) = some r) ∧
    ∀ v, (evaluate ⟨w, budget⟩ t).result = .ok v →
      evaluate ⟨w', budget⟩ t = evaluate ⟨w, budget⟩ t := by
  have hruns : ∀ fuel r v, runFor ⟨w, budget⟩ fuel (State.start t) = some r →
      r.result = .ok v → runFor ⟨w', budget⟩ fuel (State.start t) = some r := by
    intro fuel r v hrun hv
    refine runFor_later h hrun ?_
    simp only [Run.isLack, hv]
  refine ⟨hruns, fun v hv => ?_⟩
  rw [evaluate] at hv
  cases hrun : runFor ⟨w, budget⟩ unreachable (State.start t) with
  | none =>
    rw [hrun] at hv
    cases hv
  | some r =>
    rw [hrun] at hv
    rw [evaluate, evaluate, hrun, hruns unreachable r v hrun hv]

/-- A case on a constructor, of which the branch writes a message. -/
def tracedField : Term :=
  .case (.constr 1 [.con (.integer 7), .con .unit])
    [.error, .lam "x" (.lam "y" (.applyAll (.force (.builtin .trace))
      [.con (.string "m"), .var "x"]))]

/-- The case needs the third version and does the same in the fourth. -/
theorem later_version_conservative_case :
    evaluate ⟨.v3, 100⟩ tracedField = ⟨.ok (.con (.integer 7)), 12, ["m"]⟩ ∧
      evaluate ⟨.v4, 100⟩ tracedField = ⟨.ok (.con (.integer 7)), 12, ["m"]⟩ := by
  have hrun : runFor ⟨.v3, 100⟩ 40 (State.start tracedField) =
      some ⟨.ok (.con (.integer 7)), 12, ["m"]⟩ := rfl
  have heval := evaluate_of_runFor hrun (by decide)
  have hlater := (@later_version_conservative .v3 .v4 (by decide) 100 tracedField).2
    (.con (.integer 7)) (by rw [heval])
  exact ⟨heval, hlater.trans heval⟩

end Machine

end CoreLowering
