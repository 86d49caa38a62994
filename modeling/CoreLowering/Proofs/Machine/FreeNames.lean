import CoreLowering.Proofs.Machine.Trim

/-!
# Evaluation sees free names only

A state with trimmed values makes the same moves as the state itself, and the
two stay the same but for what is trimmed.  What a term does in an environment
therefore depends on the values of its free names there.

Main statements: `step_trim` for one move, `runFor_trim` for runs,
`evaluation_by_free_names`.
-/

namespace CoreLowering.Machine

/-! ## Moves -/

/-- The frame with trimmed values, for the names that its terms use. -/
def Frame.trim : Frame → Frame
  | .argument arg env => .argument arg (env.keep arg.free)
  | .function f => .function f.trim
  | .force => .force
  | .field tag done rest env =>
    .field tag (done.map Value.trim) rest (env.keep (Term.freeAll rest))
  | .scrutinee branches env => .scrutinee branches (env.keep (Term.freeAll branches))
  | .branch args => .branch (args.map Value.trim)

theorem Frame.trim_trim (frame : Frame) : frame.trim.trim = frame.trim := by
  cases frame <;> simp only [Frame.trim, Env.keep_self, Value.trim_trim, Value.map_trim_trim]

/-- What is entered or given back, trimmed. -/
def Control.trim : Control → Control
  | .enter t env => .enter t (env.keep t.free)
  | .back v => .back v.trim

/-- What the move on entering a term leads to, trimmed. -/
def trimEntered (r : Control × List Frame) : Control × List Frame :=
  (r.1.trim, r.2.map Frame.trim)

theorem enter_trim (w : Version) (t : Term) (env : Env) :
    carry Failure.trim trimEntered (enter w t (env.keep t.free)) =
      carry Failure.trim trimEntered (enter w t env) := by
  have hkeep : ∀ names : List String, (∀ x ∈ names, x ∈ t.free) →
      Env.keep names (env.keep t.free) = env.keep names := fun _ => Env.keep_keep
  cases t with
  | var x =>
    have hx : x ∈ (Term.var x).free := by simp [Term.free, Term.freeFrom]
    rw [enter, enter, Env.find?_keep hx]
    cases env.find? x with
    | none => rfl
    | some v => simp [carry_ok, trimEntered, Control.trim, Value.trim_trim]
  | lam x body =>
    simp only [enter, carry_ok, trimEntered, Control.trim, Value.trim_lam, Env.keep_self]
  | delay body =>
    have hbody := hkeep body.free fun y hy => hy
    simp only [enter, carry_ok, trimEntered, Control.trim, Value.trim_delay, hbody]
  | force body =>
    have hbody := hkeep body.free fun y hy => hy
    simp only [enter, carry_ok, trimEntered, Control.trim, hbody]
  | apply f a =>
    have hf := hkeep f.free fun y hy => Term.mem_free_apply.2 (.inl hy)
    have ha := hkeep a.free fun y hy => Term.mem_free_apply.2 (.inr hy)
    simp only [enter, carry_ok, trimEntered, Control.trim, Frame.trim, List.map_cons,
      List.map_nil, hf, ha]
  | constr tag fields =>
    simp only [enter, carry_ite]
    refine ite_congr rfl (fun _ => ?_) fun _ => rfl
    cases fields with
    | nil => rfl
    | cons t rest =>
      have ht := hkeep t.free fun y hy => Term.mem_freeAll_cons.2 (.inl hy)
      have hrest := hkeep (Term.freeAll rest) fun y hy => Term.mem_freeAll_cons.2 (.inr hy)
      simp only [carry_ok, trimEntered, Control.trim, Frame.trim, List.map_cons, List.map_nil,
        ht, hrest]
  | case s branches =>
    have hs := hkeep s.free fun y hy => Term.mem_free_case.2 (.inl hy)
    have hbranches := hkeep (Term.freeAll branches) fun y hy => Term.mem_free_case.2 (.inr hy)
    simp only [enter, carry_ite, carry_ok, trimEntered, Control.trim, Frame.trim, List.map_cons,
      List.map_nil, hs, hbranches]
  | con | builtin | error | unknown | missing => rfl

/-- What the move on applying a value leads to, trimmed. -/
def trimApplied (r : Control × List String) : Control × List String :=
  (r.1.trim, r.2)

theorem applyValue_trim (f a : Value) :
    carry Failure.trim trimApplied (applyValue f.trim a.trim) =
      carry Failure.trim trimApplied (applyValue f a) := by
  have hrefuse : carry Failure.trim trimApplied (.error (.cannotApply f.trim)) =
      carry Failure.trim trimApplied (.error (.cannotApply f)) := by
    simp only [carry_error, Failure.trim, Failure.map, Value.trim_trim]
  cases f with
  | lam x body env =>
    simp only [Value.trim_lam, applyValue, carry_ok, trimApplied, Control.trim, Env.keep_cons]
  | builtin f forces args =>
    have hargs : Value.trimAll args ++ [a.trim] = (args ++ [a]).map Value.trim := by
      rw [Value.trimAll_eq, List.map_append, List.map_singleton]
    simp only [Value.trim, applyValue, hargs, List.length_map, carry_ite]
    refine ite_congr rfl (fun _ => rfl) fun _ => ite_congr rfl (fun harity => ?_) fun _ => ?_
    · rw [call_trim harity]
      cases call f (args ++ [a]) with
      | ok v => simp only [carry_ok, trimApplied, Control.trim, Value.trim_trim, logOf_trim]
      | error why => exact congrArg (Except.error <| Failure.refused f ·) why.trim_trim
    · have htrim := Value.trim_trim (.builtin f forces (args ++ [a]))
      simp only [Value.trim, Value.trimAll_eq] at htrim
      simp only [carry_ok, trimApplied, Control.trim, Value.trim, Value.trimAll_eq, htrim]
  | con | delay | constr => exact hrefuse

theorem forceValue_trim (v : Value) :
    carry Failure.trim Control.trim (forceValue v.trim) =
      carry Failure.trim Control.trim (forceValue v) := by
  have hrefuse : carry Failure.trim Control.trim (.error (.cannotForce v.trim)) =
      carry Failure.trim Control.trim (.error (.cannotForce v)) := by
    simp only [carry_error, Failure.trim, Failure.map, Value.trim_trim]
  cases v with
  | delay body env =>
    simp only [Value.trim_delay, forceValue, carry_ok, Control.trim, Env.keep_self]
  | builtin f forces args =>
    have hnil : Value.trimAll args ≠ [] ↔ args ≠ [] := by simp [Value.trimAll_eq]
    simp only [Value.trim, forceValue, hnil]
  | con | lam | constr => exact hrefuse

/-- A branch and the trimmed values that it is applied to. -/
def trimSelected (r : Term × List Value) : Term × List Value :=
  (r.1, r.2.map Value.trim)

theorem branchAt_trim {branches : List Term} {i : Nat} {args args' : List Value}
    (h : args' = args.map Value.trim) :
    branchAt branches i args' = carry Failure.trim trimSelected (branchAt branches i args) := by
  subst h
  rw [branchAt, branchAt]
  cases branches[i]? <;> rfl

theorem selectBranch_trim (w : Version) (s : Value) (branches : List Term) :
    selectBranch w s.trim branches =
      carry Failure.trim trimSelected (selectBranch w s branches) := by
  cases s with
  | constr tag fields => exact branchAt_trim (Value.trimAll_eq fields)
  | con c =>
    -- The parts of a constant are constants, which stay as they are.
    simp only [Value.trim, selectBranch]
    repeat' split
    all_goals first
      | rfl
      | exact branchAt_trim rfl
  | delay | lam | builtin => rfl

/-- What giving a value back to a frame leads to, trimmed. -/
def trimResumed (r : Control × List Frame × List String) : Control × List Frame × List String :=
  (r.1.trim, r.2.1.map Frame.trim, r.2.2)

theorem resume_trim (w : Version) (frame : Frame) (v : Value) :
    carry Failure.trim trimResumed (resume w frame.trim v.trim) =
      carry Failure.trim trimResumed (resume w frame v) := by
  cases frame with
  | argument arg env =>
    simp only [Frame.trim, resume, carry_ok, trimResumed, Control.trim, List.map_cons,
      List.map_nil, Env.keep_self, Value.trim_trim]
  | function f =>
    refine carry_bind_congr (applyValue_trim f v) fun r r' hr => ?_
    obtain ⟨hcontrol, hlogs⟩ := Prod.mk.inj hr
    simp only [carry_pure, trimResumed, hcontrol, hlogs]
  | force =>
    refine carry_bind_congr (forceValue_trim v) fun r r' hr => ?_
    simp only [carry_pure, trimResumed, hr]
  | field tag done rest env =>
    cases rest with
    | nil =>
      have hdone : v.trim :: done.map Value.trim = (v :: done).map Value.trim := rfl
      simp only [Frame.trim, resume, hdone, ← List.map_reverse, carry_ok, trimResumed,
        Control.trim, Value.trim, Value.trimAll_eq, Value.map_trim_trim]
    | cons t rest =>
      have ht : Env.keep t.free (env.keep (Term.freeAll (t :: rest))) = env.keep t.free :=
        Env.keep_keep fun y hy => Term.mem_freeAll_cons.2 (.inl hy)
      have hrest : Env.keep (Term.freeAll rest) (env.keep (Term.freeAll (t :: rest))) =
          env.keep (Term.freeAll rest) :=
        Env.keep_keep fun y hy => Term.mem_freeAll_cons.2 (.inr hy)
      simp only [Frame.trim, resume, carry_ok, trimResumed, Control.trim, List.map_cons,
        List.map_nil, Value.trim_trim, Value.map_trim_trim, ht, hrest]
  | scrutinee branches env =>
    have hselect : Gives Failure.NotFree (fun r => r.1 ∈ branches ∧ ∀ u ∈ r.2, True)
        (selectBranch w v branches) := selectBranch_keeps (by simp) (by simp)
    simp only [Frame.trim, resume, selectBranch_trim]
    cases hr : selectBranch w v branches with
    | error why => exact congrArg Except.error why.trim_trim
    | ok r =>
      rw [hr] at hselect
      have ht : Env.keep r.1.free (env.keep (Term.freeAll branches)) = env.keep r.1.free :=
        Env.keep_keep fun y hy => Term.mem_freeAll_of_mem hselect.1 hy
      simp [carry_ok, trimSelected, trimResumed, Control.trim, Frame.trim, ht,
        Value.trim_trim]
  | branch args =>
    cases args with
    | nil =>
      simp only [Frame.trim, resume, carry_ok, trimResumed, Control.trim, List.map_nil,
        Value.trim_trim]
    | cons a rest =>
      refine carry_bind_congr (applyValue_trim v a) fun r r' hr => ?_
      obtain ⟨hcontrol, hlogs⟩ := Prod.mk.inj hr
      simp only [carry_pure, trimResumed, hcontrol, hlogs, Frame.trim, List.map_cons,
        List.map_nil, Value.map_trim_trim]

/-! ## Runs -/

/-- The state with trimmed values. -/
def State.trim (s : State) : State :=
  ⟨s.control.trim, s.stack.map Frame.trim, s.steps, s.logs⟩

/-- The stop with trimmed values. -/
def Stop.trim : Stop → Stop
  | .budget => .budget
  | .failure why => .failure why.trim

/-- The end of a run with trimmed values. -/
def Run.trim (r : Run) : Run :=
  ⟨carry Stop.trim Value.trim r.result, r.steps, r.logs⟩

/-- **One move of a trimmed state** leads to where a move of the state itself
leads, but for what is trimmed. -/
theorem step_trim (m : Settings) (s : State) :
    (step m s.trim).map State.trim Run.trim = (step m s).map State.trim Run.trim := by
  obtain ⟨control, stack, steps, logs⟩ := s
  -- New frames are put on frames that are trimmed already.
  have hpush : ∀ frames frames' rest : List Frame,
      frames.map Frame.trim = frames'.map Frame.trim →
      (frames ++ rest.map Frame.trim).map Frame.trim = (frames' ++ rest).map Frame.trim := by
    intro frames frames' rest h
    rw [List.map_append, List.map_append, h, List.map_map]
    exact congrArg _ (List.map_congr_left fun f _ => f.trim_trim)
  cases control with
  | enter t env =>
    have htrim : State.trim ⟨.enter t env, stack, steps, logs⟩ =
        ⟨.enter t (env.keep t.free), stack.map Frame.trim, steps, logs⟩ := rfl
    rw [htrim]
    by_cases hbudget : 0 < m.budget ∧ m.budget < ((steps + 1 : Nat) : Int)
    · simp only [step, if_pos hbudget]
    · simp only [step, if_neg hbudget]
      obtain ⟨r, r', hr, hr', h⟩ | ⟨why, why', hr, hr', h⟩ :=
        carry_inv (enter_trim m.version t env)
      · obtain ⟨hcontrol, hframes⟩ := Prod.mk.inj h
        simp only [hr, hr', Sum.map_inl, State.trim, hcontrol, hpush _ _ stack hframes]
      · simp only [hr, hr', Sum.map_inr, Run.trim, carry_error, Stop.trim, h]
  | back v =>
    cases stack with
    | nil =>
      simp only [step, State.trim, Control.trim, List.map_nil, Sum.map_inr, Run.trim, carry_ok,
        Value.trim_trim]
    | cons frame rest =>
      simp only [step, State.trim, Control.trim, List.map_cons]
      obtain ⟨r, r', hr, hr', h⟩ | ⟨why, why', hr, hr', h⟩ :=
        carry_inv (resume_trim m.version frame v)
      · obtain ⟨hcontrol, hmore⟩ := Prod.mk.inj h
        obtain ⟨hframes, hlogs⟩ := Prod.mk.inj hmore
        simp only [hr, hr', Sum.map_inl, State.trim, hcontrol, hlogs, hpush _ _ rest hframes]
      · simp only [hr, hr', Sum.map_inr, Run.trim, carry_error, Stop.trim, h]

/-- A run from a trimmed state takes as many moves and ends in the same way,
but for what is trimmed. -/
theorem runFor_trim (m : Settings) (fuel : Nat) (s : State) :
    (runFor m fuel s.trim).map Run.trim = (runFor m fuel s).map Run.trim := by
  induction fuel generalizing s with
  | zero => rfl
  | succ fuel ih =>
    have hstep := step_trim m s
    rw [runFor, runFor]
    cases hs : step m s with
    | inl next =>
      cases hs' : step m s.trim with
      | inl next' =>
        rw [hs, hs', Sum.map_inl, Sum.map_inl] at hstep
        -- Neither next state is the other one trimmed: the two meet where both are.
        have hnext : next'.trim = next.trim := Sum.inl.inj hstep
        calc (runFor m fuel next').map Run.trim
            = (runFor m fuel next'.trim).map Run.trim := (ih next').symm
          _ = (runFor m fuel next.trim).map Run.trim := by rw [hnext]
          _ = (runFor m fuel next).map Run.trim := ih next
      | inr r' =>
        rw [hs, hs'] at hstep
        cases hstep
    | inr r =>
      cases hs' : step m s.trim with
      | inl next' =>
        rw [hs, hs'] at hstep
        cases hstep
      | inr r' =>
        rw [hs, hs', Sum.map_inr, Sum.map_inr] at hstep
        exact congrArg some (Sum.inr.inj hstep)

/-- **Evaluation sees the free names of a term and nothing else.**  A term
without free names never runs into a name without a value.  Any term gives the
same result in any two environments that agree on its free names, after as
many steps and with the same messages written, but for what is trimmed: what
closures carry for other names than the free names of their bodies. -/
theorem evaluation_by_free_names (m : Settings) (t : Term) :
    (t.free = [] → ∀ x,
      (∀ fuel r, runFor m fuel (State.start t) = some r →
        r.result ≠ .error (.failure (.freeVariable x))) ∧
      (evaluate m t).result ≠ .error (.failure (.freeVariable x))) ∧
    ∀ ρ ρ' : Env, (∀ x ∈ t.free, ρ.find? x = ρ'.find? x) → ∀ stack steps logs fuel,
      (runFor m fuel ⟨.enter t ρ, stack, steps, logs⟩).map Run.trim =
        (runFor m fuel ⟨.enter t ρ', stack, steps, logs⟩).map Run.trim := by
  constructor
  · intro hclosed x
    have hcovers : (covering m.version).control (.enter t []) := by
      intro y hy
      rw [hclosed] at hy
      cases hy
    have hfree : ∀ r, (covering m.version).OfRun r →
        r.result ≠ .error (.failure (.freeVariable x)) := by
      intro r hr hresult
      rw [Invariant.OfRun, hresult] at hr
      exact hr
    refine ⟨fun fuel r hr => hfree r ?_, hfree _ ((covering m.version).evaluate hcovers)⟩
    exact (covering m.version).runFor ((covering m.version).start hcovers) hr
  · intro ρ ρ' hagree stack steps logs fuel
    have htrim : State.trim ⟨.enter t ρ, stack, steps, logs⟩ =
        State.trim ⟨.enter t ρ', stack, steps, logs⟩ := by
      have hkeep : ρ.keep t.free = ρ'.keep t.free :=
        Env.keep_congr fun x hx => by rw [hagree x hx]
      simp only [State.trim, Control.trim, hkeep]
    rw [← runFor_trim, htrim, runFor_trim]

/-- A name that is bound twice, and a closure that is made in two environments
which differ in names that its body does not use. -/
theorem evaluation_by_free_names_shadowed :
    (∀ fuel r,
      runFor ⟨.v3, 0⟩ fuel (State.start
        (.apply (.lam "x" (.force (.delay (.lam "x" (.var "x"))))) (.con .unit))) = some r →
      r.result ≠ .error (.failure (.freeVariable "x"))) ∧
    ∀ fuel,
      (runFor ⟨.v3, 0⟩ fuel ⟨.enter (.lam "z" (.apply (.var "z") (.var "y")))
        [("y", .con .unit)], [], 0, []⟩).map Run.trim =
      (runFor ⟨.v3, 0⟩ fuel ⟨.enter (.lam "z" (.apply (.var "z") (.var "y")))
        [("z", .con (.bool true)), ("y", .con .unit), ("y", .con (.bool false))], [], 0,
          []⟩).map Run.trim := by
  refine ⟨((evaluation_by_free_names ⟨.v3, 0⟩ _).1 rfl "x").1, ?_⟩
  refine (evaluation_by_free_names ⟨.v3, 0⟩ _).2 _ _ (fun x hx => ?_) [] 0 []
  have hnames : (Term.lam "z" (.apply (.var "z") (.var "y"))).free = ["y"] := rfl
  rw [hnames, List.mem_singleton] at hx
  subst hx
  rfl

end CoreLowering.Machine
