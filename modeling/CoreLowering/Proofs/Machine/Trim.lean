import CoreLowering.Proofs.Machine.Closed
import CoreLowering.Proofs.Machine.Unseen

/-!
# What the machine does not look at

The machine looks up free names only.  So a closure may lose the part of its
environment that its body has no free name for, and nothing changes.  `trim`
takes these parts away, in values and in everything that holds values, and
leaves the rest as it is: two values that differ in such parts only are the
same after `trim`.

Main statements: `Value.trim_trim`, trimming once is enough;
`Value.text_trim`, what is trimmed is not shown; `call_trim`, what is trimmed
does not matter to builtins.
-/

namespace CoreLowering.Machine

variable {f : Builtin}

/-! ## Trimmed values -/

/-- The values of the given names, in the order of the names. -/
def Env.only (names : List String) (env : Env) : Env :=
  names.filterMap fun x => (env.find? x).map fun v => (x, v)

namespace Value

mutual

/-- The value without what its closures carry for other names than the free
names of their bodies. -/
def trim : Value → Value
  | con c => con c
  | delay body env => delay body (Env.only body.free (trimEnv env))
  | lam x body env => lam x body (Env.only (Term.lam x body).free (trimEnv env))
  | builtin f forces args => builtin f forces (trimAll args)
  | constr tag fields => constr tag (trimAll fields)

/-- The same for values one after the other. -/
def trimAll : List Value → List Value
  | [] => []
  | v :: vs => v.trim :: trimAll vs

/-- The same for the values of an environment, which keeps all its names. -/
def trimEnv : List (String × Value) → List (String × Value)
  | [] => []
  | p :: env => trimEntry p :: trimEnv env

/-- The same for the value of one name. -/
def trimEntry : String × Value → String × Value
  | (x, v) => (x, v.trim)

end

theorem trimAll_eq (vs : List Value) : trimAll vs = vs.map trim := by
  induction vs with
  | nil => rfl
  | cons v vs ih => rw [trimAll, ih, List.map_cons]

/-- Induction on what a value holds. -/
theorem parts_induction {motive : Value → Prop} (con : ∀ c, motive (con c))
    (delay : ∀ body env, (∀ p ∈ env, motive p.2) → motive (delay body env))
    (lam : ∀ x body env, (∀ p ∈ env, motive p.2) → motive (lam x body env))
    (builtin : ∀ f forces args, (∀ v ∈ args, motive v) → motive (builtin f forces args))
    (constr : ∀ tag fields, (∀ v ∈ fields, motive v) → motive (constr tag fields)) (v : Value) :
    motive v := by
  refine @Value.rec motive (fun env => ∀ p ∈ env, motive p.2) (fun vs => ∀ v ∈ vs, motive v)
    (fun p => motive p.2) con delay lam builtin constr ?_ ?_ ?_ ?_ ?_ v
  · simp
  · intro p env hp henv
    exact List.forall_mem_cons.2 ⟨hp, henv⟩
  · simp
  · intro v vs hv hvs
    exact List.forall_mem_cons.2 ⟨hv, hvs⟩
  · intro x v hv
    exact hv

end Value

namespace Env

variable {names : List String} {env env' : Env} {x : String}

theorem find?_only : (only names env).find? x = if x ∈ names then env.find? x else none := by
  induction names with
  | nil => rfl
  | cons y names ih =>
    cases hy : env.find? y with
    | none =>
      have hskip : only (y :: names) env = only names env := by simp [only, hy]
      rw [hskip, ih]
      by_cases hx : x = y
      · subst hx
        simp [hy]
      · simp [hx]
    | some v =>
      have htake : only (y :: names) env = (y, v) :: only names env := by simp [only, hy]
      rw [htake, find?, ih]
      by_cases hx : x = y
      · subst hx
        simp [hy]
      · simp [hx, Ne.symm hx]

theorem find?_trimEnv (env : Env) : find? (Value.trimEnv env) x = (env.find? x).map Value.trim := by
  induction env with
  | nil => rfl
  | cons p env ih =>
    obtain ⟨y, v⟩ := p
    rw [Value.trimEnv, Value.trimEntry, find?, find?, ih]
    split <;> rfl

/-- The trimmed values of the given names. -/
def keep (names : List String) (env : Env) : Env :=
  only names (Value.trimEnv env)

theorem find?_keep (hx : x ∈ names) : (keep names env).find? x = (env.find? x).map Value.trim := by
  rw [keep, find?_only, if_pos hx, find?_trimEnv]

/-- What is kept depends on the trimmed values of the names only. -/
theorem keep_congr (h : ∀ x ∈ names, (env.find? x).map Value.trim = (env'.find? x).map Value.trim) :
    keep names env = keep names env' := by
  refine List.filterMap_congr fun x hx => ?_
  rw [find?_trimEnv, find?_trimEnv, h x hx]

end Env

/-- Trimming twice is trimming once. -/
theorem Value.trim_trim (v : Value) : v.trim.trim = v.trim := by
  have henv : ∀ (env : Env) (names : List String), (∀ p ∈ env, p.2.trim.trim = p.2.trim) →
      Env.keep names (Env.keep names env) = Env.keep names env := by
    intro env names ih
    refine Env.keep_congr fun x hx => ?_
    rw [Env.find?_keep hx]
    cases hv : env.find? x with
    | none => rfl
    | some u => exact congrArg some (ih _ (Env.mem_of_find? hv))
  have hall : ∀ vs : List Value, (∀ v ∈ vs, v.trim.trim = v.trim) →
      trimAll (trimAll vs) = trimAll vs := by
    intro vs ih
    rw [trimAll_eq, trimAll_eq, List.map_map]
    exact List.map_congr_left ih
  induction v using parts_induction with
  | con c => rfl
  | delay body env ih => exact congrArg (Value.delay body) (henv env _ ih)
  | lam x body env ih => exact congrArg (Value.lam x body) (henv env _ ih)
  | builtin f forces args ih => exact congrArg (Value.builtin f forces) (hall args ih)
  | constr tag fields ih => exact congrArg (Value.constr tag) (hall fields ih)

theorem Value.map_trim_trim (vs : List Value) : (vs.map trim).map trim = vs.map trim := by
  rw [List.map_map]
  exact List.map_congr_left fun v _ => v.trim_trim

namespace Env

variable {names names' : List String} {env : Env} {x : String}

theorem keep_keep (h : ∀ x ∈ names, x ∈ names') :
    keep names (keep names' env) = keep names env := by
  refine keep_congr fun x hx => ?_
  rw [find?_keep (h x hx), Option.map_map]
  exact congrArg (fun f => (env.find? x).map f) (funext Value.trim_trim)

theorem keep_self : keep names (keep names env) = keep names env :=
  keep_keep fun _ hx => hx

/-- The body of a function, entered with its argument, finds the same. -/
theorem keep_cons {body : Term} {a : Value} :
    keep body.free ((x, a.trim) :: keep (Term.lam x body).free env) =
      keep body.free ((x, a) :: env) := by
  refine keep_congr fun y hy => ?_
  by_cases hx : x = y
  · simp [find?, hx, Value.trim_trim]
  · rw [find?, find?, if_neg hx, if_neg hx, find?_keep (Term.mem_free_lam.2 ⟨Ne.symm hx, hy⟩),
      Option.map_map]
    exact congrArg (fun f => (env.find? y).map f) (funext Value.trim_trim)

end Env

namespace Value

variable {body : Term} {env : Env} {x : String}

theorem trim_delay : (delay body env).trim = delay body (env.keep body.free) := rfl

theorem trim_lam : (lam x body env).trim = lam x body (env.keep (Term.lam x body).free) := rfl

end Value

/-- What is trimmed is not worded either. -/
theorem Value.text_trim (v : Value) : v.trim.text = v.text := by
  induction v using parts_induction with
  | con c => rfl
  | delay body env => rfl
  | lam x body env => rfl
  | builtin f forces args => rw [trim, text, text, trimAll_eq, List.length_map]
  | constr tag fields ih =>
    have hfields : textsAfter (trimAll fields) = textsAfter fields := by
      induction fields with
      | nil => rfl
      | cons v vs ihs =>
        rw [List.forall_mem_cons] at ih
        rw [trimAll, textsAfter, textsAfter, ih.1, ihs ih.2]
    rw [trim, text, text, hfields]

/-! ## Failures and builtins -/

/-- The refusal with a trimmed value. -/
def Refusal.trim (why : Refusal) : Refusal :=
  why.map Value.trim

/-- The failure with trimmed values. -/
def Failure.trim (why : Failure) : Failure :=
  why.map Value.trim

theorem Refusal.trim_trim (why : Refusal) : why.trim.trim = why.trim := by
  cases why with
  | shape w v => exact congrArg (Refusal.shape w) v.trim_trim
  | _ => rfl

theorem Refusal.message_trim (why : Refusal) : why.trim.message = why.message := by
  cases why with
  | shape w v => exact congrArg ("expected " ++ w.text ++ " argument, got " ++ ·) v.text_trim
  | _ => rfl

theorem Failure.trim_trim (why : Failure) : why.trim.trim = why.trim := by
  cases why with
  | refused f why => exact congrArg (Failure.refused f) why.trim_trim
  | _ => simp [Failure.trim, Failure.map, Value.trim_trim]

theorem Failure.message_trim (why : Failure) : why.trim.message = why.message := by
  cases why with
  | cannotApply v => exact congrArg ("cannot apply " ++ ·) v.text_trim
  | cannotForce v => exact congrArg ("cannot force " ++ ·) v.text_trim
  | caseValue s w =>
    exact congrArg ("case: cannot scrutinise " ++ · ++ " in " ++ w.name) s.text_trim
  | refused f why => exact congrArg (f.name ++ ": " ++ ·) why.message_trim
  | notConstant v => exact congrArg ("result is not a constant: " ++ ·) v.text_trim
  | _ => rfl

theorem Value.unseen_trim : Unseen Value.trim where
  con _ := rfl
  isCon v := by cases v <;> rfl

/-- What is trimmed does not matter to builtins. -/
theorem call_trim {args : List Value} (harity : args.length = f.arity) :
    call f (args.map Value.trim) = carry Refusal.trim Value.trim (call f args) :=
  call_map Value.unseen_trim harity

theorem logOf_trim {args : List Value} : logOf f (args.map Value.trim) = logOf f args :=
  logOf_map Value.unseen_trim

end CoreLowering.Machine
