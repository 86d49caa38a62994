import CoreLowering.Core.Machine

/-!
# What a term evaluates to

The machine works with a stack and makes one move at a time.  Here the same
is said without a stack: `Evaluates w n env t v` says that the term `t` has
the value `v` where its free names have the values in `env`, and that on the
way the bodies of `n` functions and delayed terms are entered.  `Breaks` says
that evaluation runs into a failure.

Main statements: `Evaluates.moves`, evaluation is followed by the machine in
any stack; `Ends.unique`, a run has one end.
-/

namespace CoreLowering.Machine

variable {s' : State} {fuel : Nat} {rest : List Frame} {control : Control} {logs : List String}

mutual

inductive Evaluates (w : Version) : Nat → Env → Term → Value → Prop where
  | var {env x v} : Env.find? env x = some v → Evaluates w 0 env (.var x) v
  | lam {env x body} : Evaluates w 0 env (.lam x body) (.lam x body env)
  | delay {env body} : Evaluates w 0 env (.delay body) (.delay body env)
  | con {env c} : Evaluates w 0 env (.con c) (.con c)
  | builtin {env f} : f.availableIn w = true →
      Evaluates w 0 env (.builtin f) (.builtin f 0 [])
  | apply {env f a vf va r i j k} : Evaluates w i env f vf → Evaluates w j env a va →
      Applies w k vf va r → Evaluates w (i + j + k) env (.apply f a) r
  | force {env t v r i k} : Evaluates w i env t v → Forces w k v r →
      Evaluates w (i + k) env (.force t) r
  | tag {env tag} : w.hasConstr = true → Evaluates w 0 env (.constr tag []) (.constr tag [])
  | constr {env tag t ts v vs i j} : w.hasConstr = true → Evaluates w i env t v →
      EvaluatesAll w j env ts vs →
      Evaluates w (i + j) env (.constr tag (t :: ts)) (.constr tag (v :: vs))
  | case {env s branches v t args f r i j k} : w.hasConstr = true →
      Evaluates w i env s v → selectBranch w v branches = .ok (t, args) →
      Evaluates w j env t f → AppliesAll w k f args r →
      Evaluates w (i + j + k) env (.case s branches) r

/-- The values of terms, from the first to the last. -/
inductive EvaluatesAll (w : Version) : Nat → Env → List Term → List Value → Prop where
  | nil {env} : EvaluatesAll w 0 env [] []
  | cons {env t ts v vs i j} : Evaluates w i env t v → EvaluatesAll w j env ts vs →
      EvaluatesAll w (i + j) env (t :: ts) (v :: vs)

/-- The value of a function at an argument. -/
inductive Applies (w : Version) : Nat → Value → Value → Value → Prop where
  | lam {x body env a r n} : Evaluates w n ((x, a) :: env) body r →
      Applies w (n + 1) (.lam x body env) a r
  | builtin {f forces args a control logs} :
      applyValue (.builtin f forces args) a = .ok (.back control, logs) →
      Applies w 0 (.builtin f forces args) a control

/-- The value of a function at several arguments, one after the other. -/
inductive AppliesAll (w : Version) : Nat → Value → List Value → Value → Prop where
  | nil {f} : AppliesAll w 0 f [] f
  | cons {f a args g r i j} : Applies w i f a g → AppliesAll w j g args r →
      AppliesAll w (i + j) f (a :: args) r

/-- The value of something that is held back, set free. -/
inductive Forces (w : Version) : Nat → Value → Value → Prop where
  | delay {body env r n} : Evaluates w n env body r → Forces w (n + 1) (.delay body env) r
  | builtin {f forces args r} : forceValue (.builtin f forces args) = .ok (.back r) →
      Forces w 0 (.builtin f forces args) r

end

/-- The value of a name stands in the environment. -/
theorem Env.mem_of_find? {env : Env} {x : String} {v : Value} (h : env.find? x = some v) :
    (x, v) ∈ env := by
  induction env with
  | nil => cases h
  | cons p env ih =>
    obtain ⟨y, u⟩ := p
    rw [Env.find?] at h
    split at h
    case isTrue hy =>
      cases h
      rw [hy]
      exact List.mem_cons_self
    case isFalse => exact List.mem_cons_of_mem _ (ih h)

/-- Some moves of the machine, none of which ends the run. -/
inductive Moves (m : Settings) : State → State → Prop where
  | none {s} : Moves m s s
  | next {s s' s''} : step m s = .inl s' → Moves m s' s'' → Moves m s s''

variable {m : Settings} {s : State} {r : Run} {env : Env} {t : Term} {v : Value}
  {written : List String}

theorem Moves.trans {s'' : State} (h : Moves m s s') (h' : Moves m s' s'') : Moves m s s'' := by
  induction h with
  | none => exact h'
  | next hs _ ih => exact .next hs (ih h')

theorem Moves.one (h : step m s = .inl s') : Moves m s s' :=
  .next h .none

/-- A run that goes on from a state goes on from every state before it. -/
theorem Moves.runFor (h : Moves m s s') (hr : runFor m fuel s' = some r) :
    ∃ fuel, Machine.runFor m fuel s = some r := by
  induction h with
  | none => exact ⟨fuel, hr⟩
  | next hs _ ih =>
    obtain ⟨n, hn⟩ := ih hr
    exact ⟨n + 1, by simp only [Machine.runFor, hs, hn]⟩

theorem runFor_last (h : step m s = .inr r) : runFor m (fuel + 1) s = some r := by
  simp only [runFor, h]

theorem runFor_next (h : step m s = .inl s') : runFor m (fuel + 1) s = runFor m fuel s' := by
  simp only [runFor, h]

/-- Induction on the moves of a run that ends. -/
theorem runFor_induction {motive : ∀ fuel s, runFor m fuel s = some r → Prop}
    (last : ∀ {fuel s} (hs : step m s = .inr r), motive (fuel + 1) s (runFor_last hs))
    (next : ∀ {fuel s s'} (hs : step m s = .inl s') (h : runFor m fuel s' = some r),
      motive fuel s' h → motive (fuel + 1) s ((runFor_next hs).trans h)) (fuel : Nat) (s : State)
    (h : runFor m fuel s = some r) : motive fuel s h := by
  induction fuel generalizing s with
  | zero => cases h
  | succ fuel ih =>
    cases hs : step m s with
    | inl s' =>
      have h' : runFor m fuel s' = some r := runFor_next hs ▸ h
      exact next hs h' (ih s' h')
    | inr r' =>
      cases (runFor_last hs).symm.trans h
      exact last hs

/-- More moves do not change how a run ended. -/
theorem runFor_mono (h : runFor m fuel s = some r) (more : Nat) :
    runFor m (fuel + more) s = some r := by
  induction fuel, s, h using runFor_induction with
  | last hs =>
    rw [Nat.succ_add]
    exact runFor_last hs
  | next hs _ ih =>
    rw [Nat.succ_add, runFor_next hs]
    exact ih

/-- A run ends in one way only. -/
theorem runFor_unique {i j : Nat} {r' : Run} (h : runFor m i s = some r)
    (h' : runFor m j s = some r') : r = r' := by
  have hi := runFor_mono h j
  have hj := runFor_mono h' i
  rw [Nat.add_comm] at hj
  exact Option.some.inj (hi.symm.trans hj)

/-- A run that ends within the bound of evaluation is the evaluation. -/
theorem evaluate_of_runFor (h : runFor m fuel (State.start t) = some r)
    (hfuel : fuel ≤ unreachable) : evaluate m t = r := by
  have hrun := runFor_mono h (unreachable - fuel)
  rw [Nat.add_sub_cancel' hfuel] at hrun
  rw [evaluate, hrun]

/-- The evaluation of a closed term ends, with the given result. -/
def Ends (m : Settings) (t : Term) (result : Except Stop Value) : Prop :=
  ∃ fuel run, runFor m fuel (State.start t) = some run ∧ run.result = result

/-- The evaluation of a term ends in one way only. -/
theorem Ends.unique {r r' : Except Stop Value} (h : Ends m t r) (h' : Ends m t r') : r = r' := by
  obtain ⟨i, run, hi, rfl⟩ := h
  obtain ⟨j, run', hj, rfl⟩ := h'
  rw [runFor_unique hi hj]

section Unbounded

variable {frames stack : List Frame} {steps : Nat} {why : Failure} {frame : Frame}

/-- Entering a term, where no budget can run out. -/
theorem step_enter (hm : m.budget ≤ 0) (h : enter m.version t env = .ok (control, frames)) :
    step m ⟨.enter t env, stack, steps, logs⟩ =
      .inl ⟨control, frames ++ stack, steps + 1, logs⟩ := by
  have hb : ¬(0 < m.budget ∧ m.budget < ((steps + 1 : Nat) : Int)) := by omega
  simp only [step, h, if_neg hb]

/-- Entering a term that fails. -/
theorem step_enter_error (hm : m.budget ≤ 0) (h : enter m.version t env = .error why) :
    step m ⟨.enter t env, stack, steps, logs⟩ =
      .inr ⟨.error (.failure why), steps + 1, logs.reverse⟩ := by
  have hb : ¬(0 < m.budget ∧ m.budget < ((steps + 1 : Nat) : Int)) := by omega
  simp only [step, h, if_neg hb]

/-- Giving a value back to a frame. -/
theorem step_back (h : resume m.version frame v = .ok (control, frames, written)) :
    step m ⟨.back v, frame :: stack, steps, logs⟩ =
      .inl ⟨control, frames ++ stack, steps, written ++ logs⟩ := by
  simp only [step, h]

/-- Giving a value back to a frame that does not take it. -/
theorem step_back_error (h : resume m.version frame v = .error why) :
    step m ⟨.back v, frame :: stack, steps, logs⟩ =
      .inr ⟨.error (.failure why), steps, logs.reverse⟩ := by
  simp only [step, h]

/-- With one stack the machine comes to give back a value to another. -/
def Delivers (m : Settings) (control : Control) (stack : List Frame) (v : Value)
    (rest : List Frame) : Prop :=
  ∀ steps logs, ∃ steps' logs',
    Moves m ⟨control, stack, steps, logs⟩ ⟨.back v, rest, steps', logs'⟩

theorem Delivers.back : Delivers m (.back v) stack v stack :=
  fun steps logs => ⟨steps, logs, .none⟩

theorem Delivers.trans {rest' : List Frame} {r : Value} (h : Delivers m control stack v rest)
    (h' : Delivers m (.back v) rest r rest') : Delivers m control stack r rest' := by
  intro steps logs
  obtain ⟨i, l, hi⟩ := h steps logs
  obtain ⟨j, l', hj⟩ := h' i l
  exact ⟨j, l', hi.trans hj⟩

/-- A term is entered, which leads to other work. -/
theorem Delivers.enter (hm : m.budget ≤ 0)
    (h : Machine.enter m.version t env = .ok (control, frames))
    (hv : Delivers m control (frames ++ stack) v rest) :
    Delivers m (.enter t env) stack v rest := by
  intro steps logs
  obtain ⟨i, l, hi⟩ := hv (steps + 1) logs
  exact ⟨i, l, .next (step_enter hm h) hi⟩

/-- A value is given back to a frame, which leads to other work. -/
theorem Delivers.resume {r : Value}
    (h : Machine.resume m.version frame v = .ok (control, frames, written))
    (hr : Delivers m control (frames ++ stack) r rest) :
    Delivers m (.back v) (frame :: stack) r rest := by
  intro steps logs
  obtain ⟨i, l, hi⟩ := hr steps (written ++ logs)
  exact ⟨i, l, .next (step_back h) hi⟩

/-- What a function does with an argument comes back as a value. -/
def Returns (m : Settings) (f a r : Value) : Prop :=
  ∃ control logs, applyValue f a = .ok (control, logs) ∧
    ∀ stack, Delivers m control stack r stack

theorem Returns.function {f a r : Value} (h : Returns m f a r) (stack : List Frame) :
    Delivers m (.back a) (.function f :: stack) r stack := by
  obtain ⟨control, logs, hc, hr⟩ := h
  exact .resume (by simp only [Machine.resume, hc]; rfl) (hr stack)

theorem Returns.branch {f a r : Value} (h : Returns m f a r) (args : List Value)
    (stack : List Frame) :
    Delivers m (.back f) (.branch (a :: args) :: stack) r (.branch args :: stack) := by
  obtain ⟨control, logs, hc, hr⟩ := h
  exact .resume (by simp only [Machine.resume, hc]; rfl) (hr (.branch args :: stack))

mutual

/-- The machine finds the value of a term, whatever it has to do next. -/
theorem Evaluates.moves (hm : m.budget ≤ 0) {n : Nat} {env : Env} {t : Term} {v : Value}
    (h : Evaluates m.version n env t v) (stack : List Frame) :
    Delivers m (.enter t env) stack v stack := by
  match h with
  | .var hx => exact .enter hm (by simp only [enter, hx]; rfl) .back
  | .lam => exact .enter hm rfl .back
  | .delay => exact .enter hm rfl .back
  | .con => exact .enter hm rfl .back
  | .builtin hf => exact .enter hm (by simp only [enter, hf, if_true]; rfl) .back
  | @Evaluates.apply _ _ _ a vf _ _ _ _ _ hf ha hr =>
    have hf := hf.moves hm (.argument a env :: stack)
    have ha := ha.moves hm (.function vf :: stack)
    have hr := (hr.moves hm).function stack
    exact .enter hm rfl (hf.trans (.resume rfl (ha.trans hr)))
  | .force ht hr =>
    exact .enter hm rfl ((ht.moves hm (.force :: stack)).trans (hr.moves hm stack))
  | .tag hw => exact .enter hm (by simp only [enter, hw, if_true]; rfl) .back
  | @Evaluates.constr _ _ tag _ ts _ _ _ _ hw ht hts =>
    have ht := ht.moves hm (.field tag [] ts env :: stack)
    exact .enter hm (by simp only [enter, hw, if_true]; rfl)
      (ht.trans (hts.moves hm tag [] stack))
  | @Evaluates.case _ _ _ bs _ _ args _ _ _ _ _ hw hs hb ht hr =>
    have hs := hs.moves hm (.scrutinee bs env :: stack)
    have ht := ht.moves hm (.branch args :: stack)
    exact .enter hm (by simp only [enter, hw, if_true]; rfl)
      (hs.trans (.resume (by simp only [Machine.resume, hb]; rfl)
        (ht.trans (hr.moves hm stack))))

/-- The machine finds the fields of a constructor, one after the other. -/
theorem EvaluatesAll.moves (hm : m.budget ≤ 0) {n : Nat} {env : Env} {ts : List Term}
    {vs : List Value} (h : EvaluatesAll m.version n env ts vs) (tag : UInt64)
    (done : List Value) (stack : List Frame) {v : Value} :
    Delivers m (.back v) (.field tag done ts env :: stack)
      (.constr tag ((v :: done).reverse ++ vs)) stack := by
  match h with
  | .nil =>
    rw [List.append_nil]
    exact .resume rfl .back
  | @EvaluatesAll.cons _ _ _ ts w _ _ _ ht hts =>
    have ht := ht.moves hm (.field tag (v :: done) ts env :: stack)
    have hts := hts.moves hm tag (v :: done) stack (v := w)
    rw [List.reverse_cons, List.append_assoc] at hts
    exact .resume rfl (ht.trans hts)

/-- The machine finds the value of a function at an argument. -/
theorem Applies.moves (hm : m.budget ≤ 0) {n : Nat} {f a r : Value}
    (h : Applies m.version n f a r) : Returns m f a r := by
  match h with
  | .lam hb => exact ⟨_, _, rfl, hb.moves hm⟩
  | .builtin hr => exact ⟨_, _, hr, fun _ => .back⟩

/-- The machine finds the value of a branch at its arguments. -/
theorem AppliesAll.moves (hm : m.budget ≤ 0) {n : Nat} {f r : Value} {args : List Value}
    (h : AppliesAll m.version n f args r) (stack : List Frame) :
    Delivers m (.back f) (.branch args :: stack) r stack := by
  match h with
  | .nil => exact .resume rfl .back
  | @AppliesAll.cons _ _ _ args _ _ _ _ ha hr =>
    exact ((ha.moves hm).branch args stack).trans (hr.moves hm stack)

/-- The machine sets free what is held back. -/
theorem Forces.moves (hm : m.budget ≤ 0) {n : Nat} {v r : Value} (h : Forces m.version n v r)
    (stack : List Frame) : Delivers m (.back v) (.force :: stack) r stack := by
  match h with
  | .delay hb => exact .resume rfl (hb.moves hm stack)
  | .builtin hr => exact .resume (by simp only [Machine.resume, hr]; rfl) .back

end

/-- A closed term that has a value ends with it. -/
theorem Evaluates.ends (hm : m.budget ≤ 0) {n : Nat} (h : Evaluates m.version n [] t v) :
    Ends m t (.ok v) := by
  obtain ⟨steps, logs, hv⟩ := h.moves hm [] 0 []
  have h1 : runFor m 1 ⟨.back v, [], steps, logs⟩ = some ⟨.ok v, steps, logs.reverse⟩ := rfl
  obtain ⟨fuel, hr⟩ := hv.runFor h1
  exact ⟨fuel, _, hr, rfl⟩

/-- From a state the run ends in a failure. -/
def Fails (m : Settings) (s : State) : Prop :=
  ∃ fuel run why, runFor m fuel s = some run ∧ run.result = .error (.failure why)

theorem Moves.fails (h : Moves m s s') (hf : Fails m s') : Fails m s := by
  obtain ⟨fuel, run, why, hr, hw⟩ := hf
  obtain ⟨fuel', hr'⟩ := h.runFor hr
  exact ⟨fuel', run, why, hr', hw⟩

/-- A move that ends the run in a failure. -/
theorem Fails.of_step (h : step m s = .inr ⟨.error (.failure why), steps, logs⟩) : Fails m s :=
  ⟨1, _, why, runFor_last h, rfl⟩

theorem Delivers.fails (h : Delivers m control stack v rest)
    (hf : ∀ steps logs, Fails m ⟨.back v, rest, steps, logs⟩) (steps : Nat) (logs : List String) :
    Fails m ⟨control, stack, steps, logs⟩ := by
  obtain ⟨i, l, hi⟩ := h steps logs
  exact hi.fails (hf i l)

/-- Evaluating a term runs into a failure, whatever it is evaluated for. -/
def Breaks (m : Settings) (env : Env) (t : Term) : Prop :=
  ∀ stack steps logs, Fails m ⟨.enter t env, stack, steps, logs⟩

namespace Breaks

variable {env env' : Env} {f a t b s : Term} {bs : List Term} {x : String} {v vf va : Value}
variable {i j n : Nat} (hm : m.budget ≤ 0)

include hm

theorem of_enter (h : Machine.enter m.version t env = .ok (control, frames))
    (hf : ∀ stack steps logs, Fails m ⟨control, frames ++ stack, steps, logs⟩) : Breaks m env t :=
  fun stack steps logs => (Moves.one (step_enter hm h)).fails (hf stack (steps + 1) logs)

theorem of_enter_error (h : Machine.enter m.version t env = .error why) : Breaks m env t :=
  fun _ _ _ => .of_step (step_enter_error hm h)

/-- The error term fails. -/
theorem error : Breaks m env .error :=
  of_enter_error hm rfl

/-- The function of an application fails. -/
theorem fn (h : Breaks m env f) : Breaks m env (.apply f a) :=
  of_enter hm rfl fun _ => h _

/-- The argument of an application fails. -/
theorem arg (hf : Evaluates m.version n env f vf) (h : Breaks m env a) :
    Breaks m env (.apply f a) := by
  refine of_enter hm rfl fun stack => (hf.moves hm (.argument a env :: stack)).fails ?_
  intro steps logs
  exact (Moves.one (step_back rfl)).fails (h _ steps _)

/-- A function and its argument have values, and bringing them together
fails. -/
theorem applied (hf : Evaluates m.version i env f vf) (ha : Evaluates m.version j env a va)
    (h : ∀ stack steps logs, Fails m ⟨.back va, .function vf :: stack, steps, logs⟩) :
    Breaks m env (.apply f a) := by
  refine of_enter hm rfl fun stack => (hf.moves hm (.argument a env :: stack)).fails ?_
  intro steps logs
  exact (Moves.one (step_back rfl)).fails
    ((ha.moves hm (.function vf :: stack)).fails (h stack) steps _)

/-- A builtin refuses its arguments. -/
theorem refused (hf : Evaluates m.version i env f vf) (ha : Evaluates m.version j env a va)
    (h : applyValue vf va = .error why) : Breaks m env (.apply f a) :=
  applied hm hf ha fun _ _ _ => .of_step (step_back_error (by simp only [resume, h]; rfl))

/-- The body of a function fails. -/
theorem body (hf : Evaluates m.version i env f (.lam x b env'))
    (ha : Evaluates m.version j env a va) (h : Breaks m ((x, va) :: env') b) :
    Breaks m env (.apply f a) :=
  applied hm hf ha fun stack steps logs =>
    (Moves.one (step_back rfl)).fails (h stack steps logs)

/-- What is to be set free fails. -/
theorem force (h : Breaks m env t) : Breaks m env (.force t) :=
  of_enter hm rfl fun _ => h _

/-- What is held back fails once it is set free. -/
theorem forced (ht : Evaluates m.version n env t (.delay b env')) (h : Breaks m env' b) :
    Breaks m env (.force t) := by
  refine of_enter hm rfl fun stack => (ht.moves hm (.force :: stack)).fails ?_
  intro steps logs
  exact (Moves.one (step_back rfl)).fails (h stack steps logs)

/-- The scrutinee of a case fails. -/
theorem scrutinee (hw : m.version.hasConstr = true) (h : Breaks m env s) :
    Breaks m env (.case s bs) :=
  of_enter hm (by simp only [Machine.enter, hw, if_true]; rfl) fun _ => h _

/-- The selected branch of a case fails. -/
theorem branch (hw : m.version.hasConstr = true) {args : List Value}
    (hs : Evaluates m.version n env s v) (hb : selectBranch m.version v bs = .ok (t, args))
    (h : Breaks m env t) : Breaks m env (.case s bs) := by
  refine of_enter hm (by simp only [Machine.enter, hw, if_true]; rfl) fun stack =>
    (hs.moves hm (.scrutinee bs env :: stack)).fails ?_
  intro steps logs
  exact (Moves.one (step_back (by simp only [resume, hb]; rfl))).fails (h _ steps logs)

omit hm in
/-- A closed term that runs into a failure ends with one. -/
theorem ends (h : Breaks m [] t) : ∃ why, Ends m t (.error (.failure why)) := by
  obtain ⟨fuel, run, why, hr, hw⟩ := h [] 0 []
  exact ⟨why, fuel, run, hr, hw⟩

end Breaks

end Unbounded

end CoreLowering.Machine
