import Mathlib.Data.List.Forall2
import CoreLowering.Core.Machine.Call
import CoreLowering.Typed.Expr
import CoreLowering.Typed.Signature

/-!
# Expressions of first order

An expression of first order is built from constants of primitive types,
variables, lets, the operators on truth values, failures and builtins that
work on primitive types only.  `meaning` reads it by name: a binding counts
only where it is read, an operator looks at the operands it needs, a builtin
looks at all its arguments.

Main statement: `Typed.has`, an expression comes to nothing but a constant of
its type.
-/

namespace CoreLowering.FirstOrder

variable {cs : List Constant}

/-- What an expression comes to: a constant, or none if it fails. -/
abbrev Outcome := Option Constant

/-! ## Primitive types -/

/-- Whether a type is primitive. -/
def primitive : Ty → Bool
  | .con .integer [] | .con .byteString [] | .con .string [] | .con .boolean []
  | .con .unit [] => true
  | _ => false

/-- Whether a type is primitive or the one of failures. -/
def simple : Ty → Bool
  | .con .nothing [] => true
  | t => primitive t

/-- The primitive type of a constant. -/
def primitive? : Constant → Option Ty
  | .integer _ => some .integer
  | .byteString _ => some .byteString
  | .string _ => some .string
  | .bool _ => some .boolean
  | .unit => some .unit
  | _ => none

/-- Whether a builtin works on primitive types only. -/
def onPrimitives (f : Builtin) : Bool :=
  (Signature.parts f).1.all primitive && primitive (Signature.parts f).2

/-! ## The meaning of expressions -/

/-- What a choice comes to. -/
def choose (cond yes no : Outcome) : Outcome :=
  match cond with
  | some (.bool true) => yes
  | some (.bool false) => no
  | _ => none

theorem choose_none (cond : Outcome) : choose cond none none = none := by
  unfold choose
  split <;> rfl

/-- What a builtin comes to, all of whose arguments are evaluated. -/
def call (f : Builtin) (args : List Outcome) : Outcome := do
  match Machine.call f ((← args.mapM id).map .con) with
  | .ok (.con c) => some c
  | _ => none

mutual

/-- What an expression comes to where the variables come to `env`, applied to
arguments. -/
def meaning : (env : List (String × Outcome)) → (args : List Outcome) → Expr → Outcome
  | env, _, .node _ _ (.var x) => (env.lookup x).getD none
  | _, _, .node _ _ (.const c) => c
  | env, _, .node _ _ (.letIn _ bs body) => meaning ((meanings env bs).reverse ++ env) [] body
  | env, _, .node _ _ (.operator .and [a, b]) =>
    choose (meaning env [] a) (meaning env [] b) (some (.bool false))
  | env, _, .node _ _ (.operator .or [a, b]) =>
    choose (meaning env [] a) (some (.bool true)) (meaning env [] b)
  | env, _, .node _ _ (.operator .not [a]) =>
    choose (meaning env [] a) (some (.bool false)) (some (.bool true))
  | env, _, .node _ _ (.operator .ifThenElse [c, a, b]) =>
    choose (meaning env [] c) (meaning env [] a) (meaning env [] b)
  | env, args, .node _ _ (.apply f a) => meaning env (meaning env [] a :: args) f
  | _, args, .node _ _ (.builtin f) => call f args
  | _, _, _ => none

/-- What the variables of bindings come to. -/
def meanings : (env : List (String × Outcome)) → List (BindingOf Expr) → List (String × Outcome)
  | _, [] => []
  | env, ⟨x, _, e, _⟩ :: bs => (x, meaning env [] e) :: meanings env bs

end

/-! ## Types of expressions -/

/-- A value of type `t` can stand where one of type `goal` is expected. -/
def Fits (t goal : Ty) : Prop := t = goal ∨ t = .nothing

/-- The type of a binding. -/
def Binds (b : Binding) (t : Ty) : Prop := b.type = t ∨ b.type = .missing ∧ b.value.type = t

mutual

/-- An expression of first order has a type, where the variables have the
types in the context. -/
inductive Typed : List (String × Ty) → Expr → Ty → Prop where
  | var {Γ x t span} : Γ.lookup x = some t → Typed Γ (.node t span (.var x)) t
  | const {Γ c t span} : primitive? c = some t → Typed Γ (.node t span (.const (some c))) t
  | error {Γ message t span} : simple t = true →
      Typed Γ (.node t span (.error message)) t
  | letIn {Γ bs Δ body t span} : TypedBindings Γ bs Δ → Typed (Δ.reverse ++ Γ) body t →
      Typed Γ (.node t span (.letIn false bs body)) t
  | and {Γ a b s t span} : Typed Γ a s → Fits s .boolean → Typed Γ b t → Fits t .boolean →
      Typed Γ (.node .boolean span (.operator .and [a, b])) .boolean
  | or {Γ a b s t span} : Typed Γ a s → Fits s .boolean → Typed Γ b t → Fits t .boolean →
      Typed Γ (.node .boolean span (.operator .or [a, b])) .boolean
  | not {Γ a s span} : Typed Γ a s → Fits s .boolean →
      Typed Γ (.node .boolean span (.operator .not [a])) .boolean
  | ifThenElse {Γ c a b r s t u span} : Typed Γ c r → Fits r .boolean → Typed Γ a s →
      Fits s u → Typed Γ b t → Fits t u → simple u = true →
      Typed Γ (.node u span (.operator .ifThenElse [c, a, b])) u
  | call {Γ fn a f t span} : onPrimitives f = true → (Signature.parts f).2 = t →
      TypedCall Γ (.node t span (.apply fn a)) f (Signature.parts f).1 →
      Typed Γ (.node t span (.apply fn a)) t

/-- A builtin applied to arguments of some types. -/
inductive TypedCall : List (String × Ty) → Expr → Builtin → List Ty → Prop where
  | head {Γ f type span} : TypedCall Γ (.node type span (.builtin f)) f []
  | arg {Γ fn a f ts s t type span} : TypedCall Γ fn f ts → Typed Γ a s → Fits s t →
      TypedCall Γ (.node type span (.apply fn a)) f (ts ++ [t])

/-- The types of the variables of bindings. -/
inductive TypedBindings :
    List (String × Ty) → List Binding → List (String × Ty) → Prop where
  | nil {Γ} : TypedBindings Γ [] []
  | cons {Γ b bs Δ s t} : Typed Γ b.value s → Fits s t → Binds b t →
      simple t = true → TypedBindings Γ bs Δ →
      TypedBindings Γ (b :: bs) ((b.name, t) :: Δ)

end

/-! ## Outcomes have their types -/

/-- If there is a constant, it is one of the type. -/
def Has (t : Ty) (o : Outcome) : Prop := ∀ c, o = some c → primitive? c = some t

theorem Has.none {t : Ty} : Has t none := by simp [Has]

theorem Has.some {t : Ty} {c : Constant} : Has t (some c) ↔ primitive? c = some t := by
  simp [Has]

variable {o : Outcome}

/-- Nothing is of type nothing. -/
theorem Has.eq_none (h : Has .nothing o) : o = Option.none := by
  cases o with
  | none => rfl
  | some c => cases c <;> cases Has.some.1 h

theorem Has.fits {s t : Ty} (h : Has s o) (hst : Fits s t) : Has t o := by
  rcases hst with rfl | rfl
  · exact h
  · rw [h.eq_none]
    exact .none

/-- An outcome of the type of truth values is a truth value or none. -/
theorem Has.boolean (h : Has .boolean o) : o = Option.none ∨ ∃ b, o = Option.some (.bool b) := by
  cases o with
  | none => exact .inl rfl
  | some c =>
    cases c with
    | bool b => exact .inr ⟨b, rfl⟩
    | _ => cases Has.some.1 h

theorem Has.choose {t : Ty} {c a b : Outcome} (ha : Has t a) (hb : Has t b) :
    Has t (choose c a b) := by
  unfold FirstOrder.choose
  split
  · exact ha
  · exact hb
  · exact .none

/-- A computation gives constants of one primitive type only. -/
def Computes (t : Ty) (m : Except Machine.Refusal Machine.Value) : Prop :=
  ∀ v, m = .ok v → ∃ c, v = .con c ∧ primitive? c = some t

namespace Computes

variable {α : Type} {t : Ty}

theorem pure {c : Constant} (h : primitive? c = some t) : Computes t (Pure.pure (.con c)) := by
  intro v hv
  cases hv
  exact ⟨c, rfl, h⟩

theorem error {why : Machine.Refusal} : Computes t (.error why) := by
  intro v hv
  cases hv

theorem bind {m : Except Machine.Refusal α} {f : α → Except Machine.Refusal Machine.Value}
    (h : ∀ a, Computes t (f a)) : Computes t (m >>= f) := by
  intro v hv
  cases m with
  | error why => cases hv
  | ok a => exact h a v hv

theorem ite {p : Prop} [Decidable p] {m n : Except Machine.Refusal Machine.Value}
    (hm : Computes t m) (hn : Computes t n) : Computes t (if p then m else n) := by
  split
  · exact hm
  · exact hn

theorem divide (op : Int → Int → Int) (a b : Machine.Value) :
    Computes .integer (Machine.divide op a b) :=
  bind fun _ => bind fun _ => ite error (pure rfl)

theorem consByteString (a b : Machine.Value) :
    Computes .byteString (Machine.call .consByteString [a, b]) :=
  bind fun _ => ite (bind fun _ => ite (bind fun _ => bind fun _ => pure rfl)
    (bind fun _ => pure rfl)) (ite (bind fun _ => bind fun _ => pure rfl) (bind fun _ => pure rfl))

theorem decodeUtf8 (a : Machine.Value) : Computes .string (Machine.call .decodeUtf8 [a]) := by
  refine bind fun b => ?_
  split
  · exact pure rfl
  · exact error

end Computes

/-- **A builtin on primitive types gives constants of its type.** -/
theorem computes_of_onPrimitives {f : Builtin} (hf : onPrimitives f = true)
    (args : List Machine.Value) : Computes (Signature.parts f).2 (Machine.call f args) := by
  unfold Machine.call
  split
  case h_12 => exact .consByteString _ _
  case h_25 => exact .decodeUtf8 _
  case h_55 => exact .error
  all_goals first
    | exact .divide _ _ _
    | exact .bind fun _ => .pure rfl
    | exact .bind fun _ => .bind fun _ => .pure rfl
    | exact .bind fun _ => .bind fun _ => .bind fun _ => .pure rfl
    | cases hf

theorem has_call {f : Builtin} (hf : onPrimitives f = true) (args : List Outcome) :
    Has (Signature.parts f).2 (call f args) := by
  intro c hc
  obtain ⟨cs, -, hc⟩ := Option.bind_eq_some_iff.1 hc
  split at hc
  · rename_i d hd
    obtain ⟨_, heq, hp⟩ := computes_of_onPrimitives hf _ _ hd
    cases heq
    cases hc
    exact hp
  · cases hc

theorem choose_eq_some {oc oy on : Outcome} {c : Constant} (h : choose oc oy on = some c) :
    oc = some (.bool true) ∧ oy = some c ∨ oc = some (.bool false) ∧ on = some c := by
  unfold choose at h
  split at h
  · exact .inl ⟨rfl, h⟩
  · exact .inr ⟨rfl, h⟩
  · cases h

variable {os : List Outcome}

theorem mapM_id_eq_some : os.mapM id = some cs ↔ os = cs.map some := by
  induction os generalizing cs with
  | nil => cases cs <;> simp
  | cons o os ih =>
    cases o with
    | none => cases cs <;> simp
    | some c => cases cs <;> simp [Option.bind_eq_some_iff, ih, and_comm]

theorem call_eq_some {f : Builtin} {c : Constant} (h : call f os = some c) :
    ∃ cs : List Constant, os = cs.map some ∧ Machine.call f (cs.map .con) = .ok (.con c) := by
  obtain ⟨cs, hcs, hc⟩ := Option.bind_eq_some_iff.1 h
  refine ⟨cs, mapM_id_eq_some.1 hcs, ?_⟩
  split at hc
  · rename_i d hd
    cases hc
    exact hd
  · cases hc

/-- A builtin whose arguments are there and that comes to nothing refuses
them. -/
theorem call_eq_none {f : Builtin} (hf : onPrimitives f = true) (h : call f (cs.map some) = none) :
    ∃ why, Machine.call f (cs.map .con) = .error why := by
  rw [call, mapM_id_eq_some.2 rfl] at h
  cases hc : Machine.call f (cs.map .con) with
  | error why => exact ⟨why, rfl⟩
  | ok v =>
    obtain ⟨c, rfl, -⟩ := computes_of_onPrimitives hf _ v hc
    simp [hc] at h

/-- The variables come to constants of their types. -/
def Agree (Γ : List (String × Ty)) (env : List (String × Outcome)) : Prop :=
  List.Forall₂ (fun p q => p.1 = q.1 ∧ Has p.2 q.2) Γ env

theorem Agree.lookup {Γ : List (String × Ty)} {env : List (String × Outcome)} (h : Agree Γ env)
    {x : String} {t : Ty} (hx : Γ.lookup x = some t) : Has t ((env.lookup x).getD none) := by
  induction h with
  | nil => cases hx
  | @cons p q Γ env hpq _ ih =>
    obtain ⟨hname, hhas⟩ := hpq
    rw [List.lookup_cons, ← hname]
    rw [List.lookup_cons] at hx
    split at hx
    · cases hx
      exact hhas
    · exact ih hx

mutual

/-- **An expression comes to nothing but a constant of its type.** -/
theorem Typed.has {Γ : List (String × Ty)} {env : List (String × Outcome)} {e : Expr} {t : Ty}
    (h : Typed Γ e t) (he : Agree Γ env) : Has t (meaning env [] e) := by
  match h with
  | .var hx => exact he.lookup hx
  | .const hc => exact Has.some.2 hc
  | .error _ => exact .none
  | .letIn hbs hbody => exact hbody.has (List.rel_append (List.rel_reverse (hbs.agree he)) he)
  | .and ha hs hb ht => exact .choose ((hb.has he).fits ht) (Has.some.2 rfl)
  | .or ha hs hb ht => exact .choose (Has.some.2 rfl) ((hb.has he).fits ht)
  | .not ha hs => exact .choose (Has.some.2 rfl) (Has.some.2 rfl)
  | .ifThenElse hc hr ha hs hb ht _ =>
    exact .choose ((ha.has he).fits hs) ((hb.has he).fits ht)
  | .call hf ht h => exact ht ▸ h.has hf

theorem TypedCall.has {Γ : List (String × Ty)} {env : List (String × Outcome)} {e : Expr}
    {f : Builtin} {ts : List Ty} {args : List Outcome} (h : TypedCall Γ e f ts)
    (hf : onPrimitives f = true) : Has (Signature.parts f).2 (meaning env args e) := by
  match h with
  | .head => exact has_call hf args
  | .arg h _ _ => exact h.has hf

theorem TypedBindings.agree {Γ Δ : List (String × Ty)} {env : List (String × Outcome)}
    {bs : List Binding} (h : TypedBindings Γ bs Δ) (he : Agree Γ env) :
    Agree Δ (meanings env bs) := by
  match h with
  | .nil => exact .nil
  | .cons hv hst _ _ hbs => exact .cons ⟨rfl, (hv.has he).fits hst⟩ (hbs.agree he)

end

end CoreLowering.FirstOrder
