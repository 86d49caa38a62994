import CoreLowering.Proofs.Machine.Evaluation
import CoreLowering.Proofs.Machine.Unseen

/-!
# Failures with and without a message

A failure can write a message before it fails: it forces a traced term that
is delayed and fails.  `Term.hushed` puts the plain failure in its place,
everywhere in a term.

Entering such a term, the machine makes some moves and fails, where it fails
at once without the message.  Until then two machines, one with the messages
and one without, make the same moves, and the values they work on differ in
the bodies of closures only.  So the messages decide neither about a constant
that a run ends with nor about whether it fails.

Main statements: `step_hushed` for one move, `ends_con_iff_of_hushed_eq` and
`fails_iff_of_hushed_eq` for runs.
-/

namespace CoreLowering

variable {c : Constant}

/-! ## Hushed terms -/

namespace Term

/-- A term under force; the plain failure if it writes a message and fails. -/
def forceHushed : Term → Term
  | apply (apply (force (builtin .trace)) (con (.string _))) (delay error) => error
  | t => force t

mutual

/-- The term with no message before a failure. -/
def hushed : Term → Term
  | lam x body => lam x body.hushed
  | apply f a => apply f.hushed a.hushed
  | force body => body.hushed.forceHushed
  | delay body => delay body.hushed
  | constr tag fields => constr tag (hushedAll fields)
  | case s branches => case s.hushed (hushedAll branches)
  | t => t

/-- Terms with no message before a failure. -/
def hushedAll : List Term → List Term
  | [] => []
  | t :: ts => t.hushed :: hushedAll ts

end

theorem hushedAll_eq (ts : List Term) : hushedAll ts = ts.map hushed := by
  induction ts with
  | nil => rw [hushedAll, List.map_nil]
  | cons t ts ih => rw [hushedAll, ih, List.map_cons]

/-- Setting a term free gives the term under force or the plain failure. -/
theorem forceHushed_cases (t : Term) :
    t.forceHushed = force t ∨ t.forceHushed = error ∧
      ∃ s, t = apply (apply (force (builtin .trace)) (con (.string s))) (delay error) := by
  unfold forceHushed
  split
  · exact .inr ⟨rfl, _, rfl⟩
  · exact .inl rfl

variable {t f a : Term}

theorem forceHushed_ne (t : Term) (hforce : f ≠ force t) (herror : f ≠ error) :
    t.forceHushed ≠ f := by
  obtain h | ⟨h, -⟩ := forceHushed_cases t
  · rw [h]
    exact hforce.symm
  · rw [h]
    exact herror.symm

theorem eq_apply_of_hushed (h : t.hushed = apply f a) :
    ∃ f' a', t = apply f' a' ∧ f'.hushed = f ∧ a'.hushed = a := by
  cases t with
  | apply f' a' =>
    rw [hushed, apply.injEq] at h
    exact ⟨f', a', rfl, h⟩
  | force body =>
    rw [hushed] at h
    exact absurd h (forceHushed_ne _ (by simp) (by simp))
  | _ => simp [hushed] at h

theorem eq_delay_of_hushed (h : t.hushed = delay a) : ∃ a', t = delay a' ∧ a'.hushed = a := by
  cases t with
  | delay a' =>
    rw [hushed, delay.injEq] at h
    exact ⟨a', rfl, h⟩
  | force body =>
    rw [hushed] at h
    exact absurd h (forceHushed_ne _ (by simp) (by simp))
  | _ => simp [hushed] at h

theorem eq_force_of_hushed (h : t.hushed = force a) : ∃ a', t = force a' ∧ a'.hushed = a := by
  cases t with
  | force body =>
    rw [hushed] at h
    obtain hf | ⟨hf, -⟩ := forceHushed_cases body.hushed
    · rw [hf, force.injEq] at h
      exact ⟨body, rfl, h⟩
    · rw [hf] at h
      cases h
  | _ => simp [hushed] at h

theorem eq_con_of_hushed (h : t.hushed = con c) : t = con c := by
  cases t with
  | force body =>
    rw [hushed] at h
    exact absurd h (forceHushed_ne _ (by simp) (by simp))
  | con => simpa [hushed] using h
  | _ => simp [hushed] at h

theorem eq_builtin_of_hushed {b : Builtin} (h : t.hushed = builtin b) : t = builtin b := by
  cases t with
  | force body =>
    rw [hushed] at h
    exact absurd h (forceHushed_ne _ (by simp) (by simp))
  | builtin => simpa [hushed] using h
  | _ => simp [hushed] at h

/-- What is the plain failure when hushed is the failure itself or one with a
message before another. -/
theorem eq_error_of_hushed (h : t.hushed = error) :
    t = error ∨ ∃ s e, e.hushed = error ∧
      t = force (apply (apply (force (builtin .trace)) (con (.string s))) (delay e)) := by
  cases t with
  | error => exact .inl rfl
  | force body =>
    rw [hushed] at h
    obtain hf | ⟨-, s, hs⟩ := forceHushed_cases body.hushed
    · rw [hf] at h
      cases h
    · obtain ⟨u, w, rfl, hu, hw⟩ := eq_apply_of_hushed hs
      obtain ⟨g, c, rfl, hg, hc⟩ := eq_apply_of_hushed hu
      obtain ⟨b, rfl, hb⟩ := eq_force_of_hushed hg
      obtain ⟨e, rfl, he⟩ := eq_delay_of_hushed hw
      rw [eq_builtin_of_hushed hb, eq_con_of_hushed hc]
      exact .inr ⟨s, e, he, rfl⟩
  | _ => simp [hushed] at h

end Term

namespace Machine

/-! ## Hushed failures -/

/-- What is a failure when hushed fails. -/
theorem breaks_of_hushed {m : Settings} (hm : m.budget ≤ 0) (t : Term) (env : Env)
    (h : t.hushed = .error) : Breaks m env t := by
  obtain rfl | ⟨s, e, he, rfl⟩ := Term.eq_error_of_hushed h
  · exact .error hm
  · have ih : Breaks m env e := breaks_of_hushed hm e env he
    by_cases htrace : Builtin.trace.availableIn m.version = true
    · have hmessage : Evaluates m.version 0 env
          (.apply (.force (.builtin .trace)) (.con (.string s)))
          (.builtin .trace 1 [.con (.string s)]) :=
        .apply (.force (.builtin htrace) (.builtin rfl)) .con (.builtin rfl)
      exact Breaks.forced hm (.apply hmessage .delay (.builtin rfl)) ih
    · have hnone : enter m.version (.builtin .trace) env =
          .error (.noBuiltin .trace m.version) := by
        rw [enter, if_neg htrace]
      exact .force hm (.fn hm (.fn hm (.force hm (.of_enter_error hm hnone))))
termination_by sizeOf t

/-! ## Hushed values -/

namespace Value

mutual

/-- The value with hushed terms in its closures. -/
def hushed : Value → Value
  | con c => con c
  | delay body env => delay body.hushed (hushedEnv env)
  | lam x body env => lam x body.hushed (hushedEnv env)
  | builtin f forces args => builtin f forces (hushedAll args)
  | constr tag fields => constr tag (hushedAll fields)

/-- The same for values one after the other. -/
def hushedAll : List Value → List Value
  | [] => []
  | v :: vs => v.hushed :: hushedAll vs

/-- The same for the values of an environment. -/
def hushedEnv : List (String × Value) → List (String × Value)
  | [] => []
  | p :: env => hushedEntry p :: hushedEnv env

/-- The same for the value of one name. -/
def hushedEntry : String × Value → String × Value
  | (x, v) => (x, v.hushed)

end

theorem hushedAll_eq (vs : List Value) : hushedAll vs = vs.map hushed := by
  induction vs with
  | nil => rfl
  | cons v vs ih => rw [hushedAll, ih, List.map_cons]

theorem unseen_hushed : Unseen hushed where
  con _ := rfl
  isCon v := by cases v <;> rfl

theorem hushed_eq_con {v : Value} : v.hushed = con c ↔ v = con c := by
  cases v <;> simp [hushed]

end Value

theorem Env.find?_hushed (env : Env) (x : String) :
    Env.find? (Value.hushedEnv env) x = (env.find? x).map Value.hushed := by
  induction env with
  | nil => rfl
  | cons p env ih =>
    obtain ⟨y, v⟩ := p
    rw [Value.hushedEnv, Value.hushedEntry, find?, find?, ih]
    split <;> rfl

/-- The frame with hushed terms and values. -/
def Frame.hushed : Frame → Frame
  | .argument arg env => .argument arg.hushed (Value.hushedEnv env)
  | .function f => .function f.hushed
  | .force => .force
  | .field tag done rest env =>
    .field tag (done.map Value.hushed) (rest.map Term.hushed) (Value.hushedEnv env)
  | .scrutinee branches env => .scrutinee (branches.map Term.hushed) (Value.hushedEnv env)
  | .branch args => .branch (args.map Value.hushed)

/-- What is entered or given back, hushed. -/
def Control.hushed : Control → Control
  | .enter t env => .enter t.hushed (Value.hushedEnv env)
  | .back v => .back v.hushed

/-- The state with hushed terms and values. -/
def State.hushed (s : State) : State :=
  ⟨s.control.hushed, s.stack.map Frame.hushed, s.steps, s.logs⟩

/-- The stop with hushed values. -/
def Stop.hushed : Stop → Stop
  | .budget => .budget
  | .failure why => .failure (why.map Value.hushed)

/-- The end of a run with hushed values. -/
def Run.hushed (r : Run) : Run :=
  ⟨carry Stop.hushed Value.hushed r.result, r.steps, r.logs⟩

/-! ## Moves -/

/-- Entering a term that is no failure with a message. -/
theorem enter_hushed (w : Version) (t : Term) (env : Env) (h : t.hushed = .error → t = .error) :
    enter w t.hushed (Value.hushedEnv env) =
      carry (Failure.map Value.hushed) (fun r => (r.1.hushed, r.2.map Frame.hushed))
        (enter w t env) := by
  cases t with
  | var x =>
    rw [Term.hushed, enter, enter, Env.find?_hushed]
    · cases env.find? x <;> rfl
    all_goals simp
  | force body =>
    obtain hf | ⟨hf, -⟩ := Term.forceHushed_cases body.hushed
    · rw [Term.hushed, hf]
      rfl
    · rw [Term.hushed, hf] at h
      cases h rfl
  | constr tag fields =>
    simp only [Term.hushed, enter, carry_ite]
    refine ite_congr rfl (fun _ => ?_) fun _ => rfl
    cases fields with
    | nil => rfl
    | cons t rest =>
      simp [Term.hushedAll, Term.hushedAll_eq, carry_ok, Control.hushed, Frame.hushed]
  | case s branches =>
    simp only [Term.hushed, enter, carry_ite]
    refine ite_congr rfl (fun _ => ?_) fun _ => rfl
    simp [Term.hushedAll_eq, carry_ok, Control.hushed, Frame.hushed]
  | builtin f =>
    simp only [Term.hushed, enter, carry_ite]
    rfl
  | lam | delay | apply | con | error | unknown | missing => rfl

theorem applyValue_hushed (f a : Value) :
    applyValue f.hushed a.hushed =
      carry (Failure.map Value.hushed) (fun r => (r.1.hushed, r.2)) (applyValue f a) := by
  cases f with
  | builtin f forces args =>
    have hargs : Value.hushedAll args ++ [a.hushed] = (args ++ [a]).map Value.hushed := by
      rw [Value.hushedAll_eq, List.map_append, List.map_singleton]
    simp only [Value.hushed, applyValue, hargs, List.length_map, carry_ite]
    refine ite_congr rfl (fun _ => rfl) fun _ => ite_congr rfl (fun harity => ?_) fun _ => ?_
    · rw [call_map Value.unseen_hushed harity, logOf_map Value.unseen_hushed]
      cases call f (args ++ [a]) <;> rfl
    · simp only [carry_ok, Control.hushed, Value.hushed, Value.hushedAll_eq]
  | con | delay | lam | constr => rfl

theorem forceValue_hushed (v : Value) :
    forceValue v.hushed =
      carry (Failure.map Value.hushed) Control.hushed (forceValue v) := by
  cases v with
  | builtin f forces args =>
    have hnil : Value.hushedAll args ≠ [] ↔ args ≠ [] := by simp [Value.hushedAll_eq]
    simp only [Value.hushed, forceValue, hnil, carry_ite]
    rfl
  | con | delay | lam | constr => rfl

theorem branchAt_hushed {branches : List Term} {i : Nat} {args args' : List Value}
    (h : args' = args.map Value.hushed) :
    branchAt (branches.map Term.hushed) i args' =
      carry (Failure.map Value.hushed) (fun r => (r.1.hushed, r.2.map Value.hushed))
        (branchAt branches i args) := by
  subst h
  rw [branchAt, branchAt, List.getElem?_map, List.length_map]
  cases branches[i]? <;> rfl

theorem selectBranch_hushed (w : Version) (s : Value) (branches : List Term) :
    selectBranch w s.hushed (branches.map Term.hushed) =
      carry (Failure.map Value.hushed) (fun r => (r.1.hushed, r.2.map Value.hushed))
        (selectBranch w s branches) := by
  cases s with
  | constr tag fields => exact branchAt_hushed (Value.hushedAll_eq fields)
  | con c =>
    -- The parts of a constant are constants, which stay as they are.
    simp only [Value.hushed, selectBranch, List.length_map]
    repeat' split
    all_goals first
      | rfl
      | exact branchAt_hushed rfl
  | delay | lam | builtin => rfl

theorem resume_hushed (w : Version) (frame : Frame) (v : Value) :
    resume w frame.hushed v.hushed =
      carry (Failure.map Value.hushed)
        (fun r => (r.1.hushed, r.2.1.map Frame.hushed, r.2.2)) (resume w frame v) := by
  cases frame with
  | argument arg env => rfl
  | function f =>
    simp only [Frame.hushed, resume, applyValue_hushed, carry_bind]
    cases applyValue f v <;> rfl
  | force =>
    simp only [Frame.hushed, resume, forceValue_hushed, carry_bind]
    cases forceValue v <;> rfl
  | field tag done rest env =>
    cases rest with
    | nil =>
      have hdone : v.hushed :: done.map Value.hushed = (v :: done).map Value.hushed := rfl
      simp only [Frame.hushed, List.map_nil, resume, hdone, ← List.map_reverse, carry_ok,
        Control.hushed, Value.hushed, Value.hushedAll_eq]
    | cons t rest => rfl
  | scrutinee branches env =>
    simp only [Frame.hushed, resume, selectBranch_hushed, carry_bind]
    cases selectBranch w v branches <;> rfl
  | branch args =>
    cases args with
    | nil => rfl
    | cons a rest =>
      simp only [Frame.hushed, List.map_cons, resume, applyValue_hushed, carry_bind]
      cases applyValue v a <;> rfl

/-- About to enter a failure that writes a message first. -/
def State.atMessage (s : State) : Prop :=
  ∃ t env, s.control = .enter t env ∧ t.hushed = .error ∧ t ≠ .error

/-- **One move of a hushed state** is the move of the state itself, hushed,
unless the state is about to enter a failure that writes a message first. -/
theorem step_hushed (m : Settings) (s : State) (h : ¬ s.atMessage) :
    step m s.hushed = (step m s).map State.hushed Run.hushed := by
  obtain ⟨control, stack, steps, logs⟩ := s
  cases control with
  | enter t env =>
    have ht : t.hushed = .error → t = .error := by
      intro herror
      by_contra hne
      exact h ⟨t, env, rfl, herror, hne⟩
    have hstate : State.hushed ⟨.enter t env, stack, steps, logs⟩ =
        ⟨.enter t.hushed (Value.hushedEnv env), stack.map Frame.hushed, steps, logs⟩ := rfl
    simp only [hstate, step, enter_hushed m.version t env ht]
    split
    · rfl
    · cases enter m.version t env with
      | error why => rfl
      | ok r => simp [carry_ok, State.hushed]
  | back v =>
    cases stack with
    | nil => rfl
    | cons frame rest =>
      have hstate : State.hushed ⟨.back v, frame :: rest, steps, logs⟩ =
          ⟨.back v.hushed, frame.hushed :: rest.map Frame.hushed, steps, logs⟩ := rfl
      simp only [hstate, step, resume_hushed]
      cases resume m.version frame v with
      | error why => rfl
      | ok r => simp [carry_ok, State.hushed]

/-! ## Runs -/

section Unbounded

variable {m : Settings} (hm : m.budget ≤ 0)
variable {s : State}

include hm

theorem State.atMessage.fails (h : s.atMessage) : Fails m s := by
  obtain ⟨control, stack, steps, logs⟩ := s
  obtain ⟨t, env, rfl, herror, -⟩ := h
  exact breaks_of_hushed hm t env herror stack steps logs

/-- Without the message the failure comes at once. -/
theorem State.atMessage.step (h : s.atMessage) :
    ∃ r why, Machine.step m s.hushed = .inr r ∧ r.result = .error (.failure why) := by
  obtain ⟨control, stack, steps, logs⟩ := s
  obtain ⟨t, env, rfl, herror, -⟩ := h
  have hcontrol : (Control.enter t env).hushed = .enter .error (Value.hushedEnv env) := by
    rw [Control.hushed, herror]
  rw [State.hushed, hcontrol]
  exact ⟨_, _, step_enter_error hm rfl, rfl⟩

/-- A hushed run is the run, hushed, until the run comes to a message before a
failure: then both fail. -/
theorem runFor_hushed (fuel : Nat) (s : State) :
    runFor m fuel s.hushed = (runFor m fuel s).map Run.hushed ∨
      Fails m s ∧
        ∃ r why, runFor m fuel s.hushed = some r ∧ r.result = .error (.failure why) := by
  induction fuel generalizing s with
  | zero => exact .inl rfl
  | succ fuel ih =>
    by_cases hs : s.atMessage
    · obtain ⟨r, why, hr, hwhy⟩ := hs.step hm
      exact .inr ⟨hs.fails hm, r, why, by rw [runFor, hr], hwhy⟩
    · rw [runFor, runFor, step_hushed m s hs]
      cases hnext : Machine.step m s with
      | inl s' =>
        obtain h | ⟨hf, hr⟩ := ih s'
        · exact .inl h
        · exact .inr ⟨(Moves.one hnext).fails hf, hr⟩
      | inr r => exact .inl rfl

/-- A run ends with a constant exactly if it does when hushed, after as many
moves. -/
theorem runFor_con_hushed (fuel : Nat) (t : Term) (c : Constant) :
    (∃ r, runFor m fuel (State.start t.hushed) = some r ∧ r.result = .ok (.con c)) ↔
      ∃ r, runFor m fuel (State.start t) = some r ∧ r.result = .ok (.con c) := by
  have hcon : ∀ r : Run, r.hushed.result = .ok (.con c) ↔ r.result = .ok (.con c) := by
    rintro ⟨stop | v, steps, logs⟩
    · simp [Run.hushed, carry_error]
    · simp [Run.hushed, carry_ok, Value.hushed_eq_con]
  obtain h | ⟨⟨fuel', r, why, hr, hwhy⟩, r', why', hr', hwhy'⟩ :=
    runFor_hushed hm fuel (State.start t)
  · have h : runFor m fuel (State.start t.hushed) = _ := h
    simp [h, hcon]
  · constructor
    · rintro ⟨u, hu, hc⟩
      cases hwhy'.symm.trans ((runFor_unique hr' hu) ▸ hc)
    · rintro ⟨u, hu, hc⟩
      cases hwhy.symm.trans ((runFor_unique hr hu) ▸ hc)

/-- A state fails exactly if it does when hushed. -/
theorem fails_hushed : Fails m s.hushed ↔ Fails m s := by
  constructor
  · rintro ⟨fuel, r, why, hr, hwhy⟩
    obtain h | ⟨hf, -⟩ := runFor_hushed hm fuel s
    · rw [h, Option.map_eq_some_iff] at hr
      obtain ⟨⟨(_ | why') | v, steps, logs⟩, hr', rfl⟩ := hr
      · cases hwhy
      · exact ⟨fuel, _, why', hr', rfl⟩
      · cases hwhy
    · exact hf
  · rintro ⟨fuel, r, why, hr, hwhy⟩
    obtain h | ⟨-, hf⟩ := runFor_hushed hm fuel s
    · rw [hr] at h
      exact ⟨fuel, r.hushed, why.map Value.hushed, h, by rw [Run.hushed, hwhy]; rfl⟩
    · exact ⟨fuel, hf⟩

omit hm in
theorem evaluateConstant_eq_ok {t : Term} :
    evaluateConstant m t = .ok c ↔
      ∃ r, runFor m unreachable (State.start t) = some r ∧ r.result = .ok (.con c) := by
  unfold evaluateConstant evaluate
  cases runFor m unreachable (State.start t) with
  | none => simp
  | some r =>
    obtain ⟨result, steps, logs⟩ := r
    rcases result with stop | v
    · simp
    · cases v <;> simp

variable {t t' : Term} (h : t.hushed = t'.hushed)
include h

/-- **Messages before failures do not decide about constants.**  Terms that
are the same when hushed end with the same constants. -/
theorem ends_con_iff_of_hushed_eq (c : Constant) :
    Ends m t (.ok (.con c)) ↔ Ends m t' (.ok (.con c)) := by
  refine exists_congr fun fuel => ?_
  rw [← runFor_con_hushed hm fuel t, ← runFor_con_hushed hm fuel t', h]

theorem evaluateConstant_iff_of_hushed_eq (c : Constant) :
    evaluateConstant m t = .ok c ↔ evaluateConstant m t' = .ok c := by
  rw [evaluateConstant_eq_ok, evaluateConstant_eq_ok, ← runFor_con_hushed hm _ t,
    ← runFor_con_hushed hm _ t', h]

/-- Messages before failures do not decide about failures. -/
theorem fails_iff_of_hushed_eq : Fails m (State.start t) ↔ Fails m (State.start t') := by
  have hstart : (State.start t).hushed = (State.start t').hushed := by
    simp only [State.start, State.hushed, Control.hushed, h]
  rw [← fails_hushed hm, hstart, fails_hushed hm]

end Unbounded

end Machine
end CoreLowering
