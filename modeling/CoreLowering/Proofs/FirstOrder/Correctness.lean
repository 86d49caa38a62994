import CoreLowering.Proofs.Encoding.Emitting
import CoreLowering.Proofs.Machine.Calls

/-!
# Lowering expressions of first order

The machine evaluates the term of a value of first order to what the value
comes to, and so the term of a unit to what its root comes to.

Main statement: `lowerModule_firstOrder`.
-/

namespace CoreLowering.FirstOrder

open Machine (Settings Env HasValue Breaks)

variable {m : Settings} {env : Env} {o : Outcome} {ts : List Term} {os : List Outcome} {u : Term}
  {c : Constant} {n : Node} {xs : List ValueId}

/-! ## What terms come to -/

/-- Evaluating a term gives a constant, or fails. -/
def Comes (m : Settings) (env : Env) (t : Term) : Outcome → Prop
  | some c => HasValue m.version env t (.con c)
  | none => Breaks m env t

/-- Arguments have values, up to the first one that fails if there is one. -/
theorem values_or_break (h : List.Forall₂ (Comes m env) ts os) :
    (∃ cs : List Constant, os = cs.map some ∧
      List.Forall₂ (HasValue m.version env) ts (cs.map .con)) ∨
    none ∈ os ∧ ∃ before t after vs, ts = before ++ t :: after ∧
      List.Forall₂ (HasValue m.version env) before vs ∧ Breaks m env t := by
  induction h with
  | nil => exact .inl ⟨[], rfl, .nil⟩
  | @cons t o ts os ht _ ih =>
    cases o with
    | none => exact .inr ⟨by simp, [], t, ts, [], rfl, .nil, ht⟩
    | some c =>
      obtain ⟨cs, rfl, hs⟩ | ⟨hmem, before, u, after, vs, rfl, hs, hu⟩ := ih
      · exact .inl ⟨c :: cs, rfl, .cons ht hs⟩
      · exact .inr ⟨by simp [hmem], t :: before, u, after, .con c :: vs, rfl, .cons ht hs, hu⟩

section

variable (hm : m.budget ≤ 0)

include hm

/-- A term inside of a binding, the definition of which is evaluated first. -/
theorem Comes.bind {x : String} {t d : Term} (hd : Comes m env d (some c))
    (ht : Comes m ((x, .con c) :: env) t o) : Comes m env (.apply (.lam x t) d) o := by
  obtain ⟨i, hd⟩ := hd
  cases o with
  | some c' =>
    obtain ⟨j, ht⟩ := ht
    exact ⟨_, .apply .lam hd (.lam ht)⟩
  | none => exact .body hm .lam hd ht

/-- A choice by a case on a truth value. -/
theorem Comes.case {s no yes : Term} {oc on oy : Outcome} (hs : Comes m env s oc)
    (hc : Has .boolean oc) (hno : Comes m env no on) (hyes : Comes m env yes oy)
    (hw : m.version.hasBuiltinCase = true) : Comes m env (.case s [no, yes]) (choose oc oy on) := by
  have hconstr : m.version.hasConstr = true := by
    simp only [Version.hasBuiltinCase, Version.hasConstr, decide_eq_true_eq] at hw ⊢
    omega
  have hbranch : ∀ {v : Machine.Value} {t : Term} {o : Outcome}, HasValue m.version env s v →
      Machine.selectBranch m.version v [no, yes] = .ok (t, []) → Comes m env t o →
      Comes m env (.case s [no, yes]) o := by
    rintro v t o ⟨i, hv⟩ hsel ht
    cases o with
    | some c =>
      obtain ⟨j, ht⟩ := ht
      exact ⟨_, .case hconstr hv hsel ht .nil⟩
    | none => exact .branch hm hconstr hv hsel ht
  obtain rfl | ⟨b, rfl⟩ := hc.boolean
  · exact .scrutinee hm hconstr hs
  · cases b with
    | true => exact hbranch hs (by simp [Machine.selectBranch, hw, Machine.branchAt]) hyes
    | false => exact hbranch hs (by simp [Machine.selectBranch, hw, Machine.branchAt]) hno

/-- A choice by a builtin, between terms that are held back. -/
theorem Comes.choice {s no yes : Term} {oc on oy : Outcome} (hs : Comes m env s oc)
    (hc : Has .boolean oc) (hno : Comes m env no on) (hyes : Comes m env yes oy)
    (hw : m.version ≠ .unknown) :
    Comes m env (.force (.applyAll (.ofBuiltin .ifThenElse) [s, .delay yes, .delay no]))
      (choose oc oy on) := by
  have hf : Builtin.ifThenElse.availableIn m.version = true := availableIn_of_since rfl rfl hw
  have hforced : ∀ {b : Bool} {t : Term} {o : Outcome}, HasValue m.version env s (.con (.bool b)) →
      Machine.call .ifThenElse [.con (.bool b), .delay yes env, .delay no env] =
        .ok (.delay t env) → Comes m env t o →
      Comes m env (.force (.applyAll (.ofBuiltin .ifThenElse) [s, .delay yes, .delay no])) o := by
    intro b t o hs hcall ht
    obtain ⟨i, hd⟩ := HasValue.call hf
      (.cons hs (.cons ⟨0, .delay⟩ (.cons ⟨0, .delay⟩ .nil))) rfl (by simp) hcall
    cases o with
    | some c =>
      obtain ⟨j, ht⟩ := ht
      exact ⟨_, .force hd (.delay ht)⟩
    | none => exact .forced hm hd ht
  obtain rfl | ⟨b, rfl⟩ := hc.boolean
  · have hb : Breaks m env ((Term.ofBuiltin .ifThenElse).applyAll
        ([] ++ s :: [.delay yes, .delay no])) := .operand hm hf .nil (by decide) hs
    exact hb.force hm
  · cases b with
    | true => exact hforced hs rfl hyes
    | false => exact hforced hs rfl hno

/-- A call of a builtin on primitive types. -/
theorem Comes.call {f : Builtin} (h : List.Forall₂ (Comes m env) ts os) (hf : onPrimitives f = true)
    (hn : ts.length = f.arity) (hw : m.version ≠ .unknown) :
    Comes m env ((Term.ofBuiltin f).applyAll ts) (call f os) := by
  have ha := availableIn_of_onPrimitives hf hw
  have hne : ts ≠ [] := by
    rintro rfl
    cases f <;> first | exact absurd hn (by decide) | cases hf
  obtain ⟨cs, rfl, hs⟩ | ⟨hmem, before, t, after, vs, rfl, hs, ht⟩ := values_or_break h
  · cases ho : FirstOrder.call f (cs.map some) with
    | some c =>
      obtain ⟨cs', hcs, hc⟩ := call_eq_some ho
      obtain rfl := List.map_injective_iff.2 (fun _ _ => Option.some.inj) hcs
      exact HasValue.call ha hs hn hne hc
    | none =>
      obtain ⟨why, hc⟩ := call_eq_none hf ho
      exact Breaks.call hm ha hs hn hne hc
  · cases ho : FirstOrder.call f os with
    | some c =>
      obtain ⟨cs, rfl, -⟩ := call_eq_some ho
      simp at hmem
    | none => exact Breaks.operand hm ha hs (by simp at hn; omega) ht

/-- The term that fails does so. -/
theorem breaks_failing (debug : Bool) (message : String) (hw : m.version ≠ .unknown) :
    Breaks m env (Graph.failing debug message) := by
  have hf : Builtin.trace.availableIn m.version = true := availableIn_of_since rfl rfl hw
  unfold Graph.failing
  split
  · have hd : HasValue m.version env ((Term.ofBuiltin .trace).applyAll
        [.con (.string message), .delay .error]) (.delay .error env) :=
      .call hf (.cons ⟨0, .con⟩ (.cons ⟨0, .delay⟩ .nil)) rfl (by simp) rfl
    obtain ⟨i, hd⟩ := hd
    exact .forced hm hd (.error hm)
  · exact .error hm

end

/-! ## The terms of values -/

section

open CoreLowering.Graph

variable {g : State} {id : Nat} {bound inside : Bound}

/-- The variables that are bound have their values in the environment. -/
def Supplies (g : State) (bound : Bound) (env : Env) : Prop :=
  ∀ x : Nat, x ∈ bound → ∃ n c, g.node? x = some n ∧ n.isIdentifiable = true ∧
    Means g x (some c) ∧ env.find? n.name = some (.con c)

theorem Supplies.bind (h : Supplies g bound env) (hg : Named g) {x : Nat} (hn : g.node? x = some n)
    (hid : n.isIdentifiable = true) (hx : Means g x (some c)) :
    Supplies g (x :: bound) ((n.name, .con c) :: env) := by
  intro y hy
  rcases List.mem_cons.1 hy with rfl | hy
  · exact ⟨n, c, hn, hid, hx, by simp [Env.find?]⟩
  · obtain ⟨k, d, hk, hkid, hyd, hfind⟩ := h y hy
    refine ⟨k, d, hk, hkid, hyd, ?_⟩
    rw [Env.find?]
    split
    · rename_i hname
      obtain rfl := hg.inj x y n k hn hk hid hkid hname
      rw [Option.some.inj (hx.unique hyd)]
    · exact hfind

/-- The terms of a value come to what the value comes to. -/
def Faithful (m : Settings) (g : State) (id : Nat) : Prop :=
  ∀ bound t o env, Emits g (Placed g (Sure g)) bound id t → Means g id o →
    Supplies g bound env → Comes m env (t.erase g.nameOf) o

theorem emitsAll_comes {ids : List ValueId} {ts : List Marked} {r : Nat → Outcome}
    (h : EmitsAll g (Placed g (Sure g)) bound ids ts)
    (hids : ∀ x : Nat, x ∈ ids → Faithful m g x ∧ Means g x (r x)) (henv : Supplies g bound env) :
    List.Forall₂ (Comes m env) (ts.map (·.erase g.nameOf)) (ids.map r) := by
  induction ids generalizing ts with
  | nil =>
    cases h
    exact .nil
  | cons x ids ih =>
    cases h with
    | cons hx hxs =>
      rw [List.forall_mem_cons] at hids
      exact .cons (hids.1.1 _ _ _ _ hx hids.1.2 henv) (ih hxs hids.2)

/-- Branches that bind nothing. -/
theorem erase_branches {binders : List (List ValueId)} {ts : List Marked}
    (h : EmitsBranches g (Placed g (Sure g)) bound xs binders ts) (hb : binders.flatten = []) :
    EmitsAll g (Placed g (Sure g)) bound xs ts := by
  induction xs generalizing binders ts with
  | nil =>
    cases h
    exact .nil
  | cons x xs ih =>
    cases h with
    | cons hx hxs =>
      have hhead : binders.head?.getD [] = [] ∧ binders.tail.flatten = [] := by
        cases binders with
        | nil => exact ⟨rfl, rfl⟩
        | cons b binders => simpa using hb
      rw [hhead.1] at hx ⊢
      exact .cons hx (ih hxs hhead.2)

/-- What is bound at a value has a value first, or the value fails. -/
theorem emitsBinds_comes (hm : m.budget ≤ 0) (hg : Named g) {binds : List (ValueId × Marked)}
    (ih : ∀ x < id, Faithful m g x) (h : EmitsBinds g (Placed g (Sure g)) bound xs binds inside)
    (hx : ∀ x : Nat, x ∈ xs → Harmless g id o x) (henv : Supplies g bound env) :
    (o = none ∧ ∀ t : Marked, Breaks m env ((t.wrap binds).erase g.nameOf)) ∨
    ∃ env', Supplies g inside env' ∧ ∀ (t : Marked) o', Comes m env' (t.erase g.nameOf) o' →
      Comes m env ((t.wrap binds).erase g.nameOf) o' := by
  induction xs generalizing bound binds env with
  | nil =>
    cases h
    exact .inr ⟨env, henv, fun _ _ h => h⟩
  | cons x xs ihx =>
    rw [List.forall_mem_cons] at hx
    cases h with
    | skip _ h => exact ihx h hx.2 henv
    | @bind _ _ _ rhs _ n d binds hnb hn hr hd h =>
      obtain ⟨hlt, ⟨ox, hmx, hox⟩, -⟩ := hx.1
      obtain ⟨hlt', hmr⟩ := hmx.rhs hn hr
      have hrhs := ih rhs (by omega) _ _ _ _ hd hmr henv
      have hwrap : ∀ t : Marked, (Marked.wrap ((x, d) :: binds) t).erase g.nameOf =
          .apply (.lam n.name ((t.wrap binds).erase g.nameOf)) (d.erase g.nameOf) := by
        intro t
        rw [← nameOf_eq hn]
        rfl
      cases ox with
      | none =>
        refine .inl ⟨hox rfl, fun t => ?_⟩
        rw [hwrap]
        exact .arg hm .lam hrhs
      | some c =>
        have hid : n.isIdentifiable = true := by
          cases n <;> first | rfl | cases hr
        rcases ihx h hx.2 (henv.bind hg hn hid hmx) with ⟨ho, hb⟩ | ⟨env', henv', hc⟩
        · refine .inl ⟨ho, fun t => ?_⟩
          rw [hwrap]
          exact Comes.bind (o := none) hm hrhs (hb t)
        · refine .inr ⟨env', henv', fun t o' ht => ?_⟩
          rw [hwrap]
          exact .bind hm hrhs (hc t o' ht)

variable (hm : m.budget ≤ 0) (hv : m.version = g.target) (hw : m.version ≠ .unknown)

include hm hv hw

/-- The term of a node, where its variables are bound. -/
theorem emitsNode_comes {t : Marked} (ih : ∀ x < id, Faithful m g x) (hn : Reads g id n o)
    (hid : n.isIdentifiable = false) (h : EmitsNode g (Placed g (Sure g)) bound n t)
    (henv : Supplies g bound env) : Comes m env (t.erase g.nameOf) o := by
  cases hn with
  | const c =>
    cases h
    exact ⟨0, .con⟩
  | error message =>
    cases h
    exact breaks_failing hm _ _ hw
  | var => cases hid
  | letIn owned hlt hm =>
    cases h with
    | letIn h => exact ih _ hlt _ _ _ _ h hm henv
  | reinterpret hlt hm =>
    cases h with
    | reinterpret h => exact ih _ hlt _ _ _ _ h hm henv
  | @choice c no yes binders native oc on oy owned hnat hb hbool hc hmc hno hmno hyes hmyes =>
    cases h with
    | case hbs hs =>
      have hall := erase_branches hbs hb
      clear hbs
      cases hall with
      | cons h1 hall =>
        cases hall with
        | cons h2 hall =>
          cases hall
          exact .case hm (ih c hc _ _ _ _ hs hmc henv) hbool
            (ih no hno _ _ _ _ h1 hmno henv) (ih yes hyes _ _ _ _ h2 hmyes henv)
            (hv ▸ hnat rfl)
    | choice hch hs hbs =>
      cases hch
      cases hbs with
      | cons h1 hbs =>
        cases hbs with
        | cons h2 hbs =>
          cases hbs
          exact .choice hm (ih c hc _ _ _ _ hs hmc henv) hbool
            (ih no hno _ _ _ _ h2 hmno henv) (ih yes hyes _ _ _ _ h1 hmyes henv) hw
  | @builtin f args r hf hn hlt hmeans =>
    cases h with
    | builtin hs =>
      have hc := emitsAll_comes hs (fun x hx => ⟨ih x (hlt x hx), hmeans x hx⟩) henv
      rw [Marked.erase_applyAll]
      exact .call hm hc hf (by simpa [hn] using hc.length_eq) hw

/-- **The terms of a value come to what the value comes to**, wherever its
variables are bound. -/
theorem faithful (hg : Named g) (hu : UsedInside g) (id : Nat) : Faithful m g id := by
  induction id using Nat.strongRecOn with
  | ind id ih =>
    intro bound t o env h hmeans henv
    cases h with
    | bound hn hid hx =>
      obtain ⟨n', c, hn', -, hc, hfind⟩ := henv id hx
      obtain rfl := hmeans.unique hc
      rw [← nameOf_eq hn'] at hfind
      exact ⟨0, .var hfind⟩
    | inlined hn hid _ hr h =>
      obtain ⟨hlt, hm⟩ := hmeans.rhs hn hr
      exact ih _ hlt _ _ _ _ h hm henv
    | node hn hid hxs hbinds hnode =>
      have hharm := fun x hx => harmless_of_placed hu hmeans hxs (x := x) hx
      rcases emitsBinds_comes hm hg ih hbinds hharm henv with ⟨rfl, hb⟩ | ⟨env', he, hc⟩
      · exact hb _
      · exact hc _ _ (emitsNode_comes hm hv hw ih (hmeans.reads hn) hid hnode he)

end

/-! ## Units -/

open CoreLowering.Graph

variable {root : Expr} {t : Ty} {target : Version} {decls : Decls}

/-- Lowering an expression of first order succeeds. -/
theorem run_succeeds (h : Typed [] root t) (target : Version) (decls : Decls) (debug : Bool) :
    ∃ r, ((run root).run (State.new target decls debug)).1 = .ok r := by
  obtain ⟨id, g, hbuild, -, hu, hmeans⟩ := build_means h target decls debug
  have hb := Built.of_run hbuild
  obtain ⟨u, s, hemit, hs, -⟩ := Encoding.exists_emit
    ((Encoding.tidy_of_means hmeans).emitWith_works hb.inv hu) hb.unfilled hb.usesFix
  have hid : Valid s id := ⟨hmeans.valid.1, hs.size ▸ hmeans.valid.2⟩
  obtain ⟨v, hv⟩ := hid.exists_value
  rw [run, run_bind_of_ok hbuild, run_bind_of_ok hemit, run_bind_of_ok (value_run hv),
    run_bind_of_ok run_get, run_pure]
  exact ⟨_, rfl⟩

/-- Binding the combinator for recursion around a term that does not use it
changes nothing. -/
theorem Comes.link (hm : m.budget ≤ 0) (h : ∀ env, Comes m env u o) (fix : Bool) :
    Comes m [] (link u fix) o := by
  cases fix with
  | false => exact h []
  | true =>
    cases o with
    | some c =>
      obtain ⟨n, hc⟩ := h _
      exact ⟨_, .apply .lam .lam (.lam hc)⟩
    | none => exact .body hm .lam .lam (h _)

/-- The term of an expression of first order comes to what the expression
comes to. -/
theorem run_comes (h : Typed [] root t) (hm : m.budget ≤ 0) (hv : m.version = target)
    (hw : target ≠ .unknown) {debug : Bool} {r : Result}
    (hr : ((run root).run (State.new target decls debug)).1 = .ok r) :
    Comes m [] r.term (meaning [] [] root) := by
  obtain ⟨g, id, hy⟩ := run_yields hr
  obtain ⟨id', g', hbuild, ht, hu, hmeans⟩ := build_means h target decls debug
  rw [hy.built.run, Prod.mk.injEq, Except.ok.injEq] at hbuild
  obtain ⟨rfl, rfl⟩ := hbuild
  obtain ⟨u, hemits, herase, -⟩ := hy.unlinked _ sure_rules
  have hversion : m.version = g.target := by
    rw [hv, ht]
    cases target <;> first | rfl | exact absurd rfl hw
  rw [hy.term, ← herase]
  refine .link hm (fun env => ?_) _
  exact faithful hm hversion (hv ▸ hw) hy.built.named hu id _ _ _ _ hemits hmeans
    (by simp [Supplies])

theorem Comes.ends (hm : m.budget ≤ 0) (h : Comes m [] u o) :
    (∀ c, Machine.Ends m u (.ok (.con c)) ↔ o = some c) ∧
      ((∃ why, Machine.Ends m u (.error (.failure why))) ↔ o = none) := by
  cases o with
  | some c =>
    obtain ⟨n, hc⟩ := h
    have he := hc.ends hm
    refine ⟨fun c' => ⟨fun h' => ?_, fun h' => ?_⟩, fun ⟨why, h'⟩ => ?_, fun h' => ?_⟩
    · cases he.unique h'
      rfl
    · cases h'
      exact he
    · cases he.unique h'
    · cases h'
  | none =>
    obtain ⟨why, he⟩ := Breaks.ends h
    refine ⟨fun c' => ⟨fun h' => ?_, fun h' => ?_⟩, fun _ => rfl, fun _ => ⟨why, he⟩⟩
    · cases he.unique h'
    · cases h'

/-- **Lowering is correct on expressions of first order.**  It succeeds for
every target, and without a budget the machine of that version evaluates the
term to the constant that the expression comes to when it is read by name,
and fails if the expression does. -/
theorem lowerModule_firstOrder (u : Module) (hs : u.scope = .ok decls) (h : Typed [] u.root t)
    (hw : target ≠ .unknown) (debug : Bool) :
    ∃ r, (Graph.lowerModule u target debug).result = .ok r ∧
      ∀ m : Settings, m.version = target → m.budget ≤ 0 →
        (∀ c, Machine.Ends m r.term (.ok (.con c)) ↔ meaning [] [] u.root = some c) ∧
        ((∃ why, Machine.Ends m r.term (.error (.failure why))) ↔
          meaning [] [] u.root = none) := by
  obtain ⟨r, hr⟩ := run_succeeds h target decls debug
  refine ⟨r, ?_, fun m hv hm => (run_comes h hm hv hw hr).ends hm⟩
  have hroot : u.root ≠ .missing := by
    intro hmissing
    rw [hmissing] at h
    cases h
  unfold lowerModule
  split
  · exact absurd ‹_› hroot
  · rw [hs]
    simp only [lowerWith, hr]
    rfl

/-- A unit in which a name stands for two things and a binding that fails is
not read where it is bound. -/
def shadowing : Module where
  name := "Shadowing"
  decls := []
  root :=
    let int (n : Int) : Expr := .node .integer default (.const (some (.integer n)))
    let x : Expr := .node .integer default (.var "x")
    let call (f : Builtin) (t : Ty) (a b : Expr) : Expr :=
      .node t default (.apply (.node .missing default (.apply
        (.node .missing default (.builtin f)) a)) b)
    .node .integer default (.letIn false
      [⟨"x", .integer, int 2, default⟩,
        ⟨"y", .integer, call .divideInteger .integer (int 1) (int 0), default⟩]
      (.node .integer default (.letIn false
        [⟨"x", .integer, call .multiplyInteger .integer x x, default⟩]
        (.node .integer default (.operator .ifThenElse
          [call .lessThanInteger .boolean (int 3) x, call .addInteger .integer x x,
            .node .integer default (.var "y")])))))

theorem typed_shadowing : Typed [] shadowing.root .integer := by
  have hcall : ∀ {Γ f s t u a b}, onPrimitives f = true → Signature.parts f = ([s, t], u) →
      Typed Γ a s → Typed Γ b t → Typed Γ (.node u default (.apply (.node .missing default
        (.apply (.node .missing default (.builtin f)) a)) b)) u := by
    intro Γ f s t u a b hf hp ha hb
    refine .call hf (by rw [hp]) ?_
    rw [hp]
    exact .arg (.arg .head ha (.inl rfl)) hb (.inl rfl)
  have hx : ∀ {Γ}, Typed (("x", .integer) :: Γ) (.node .integer default (.var "x")) .integer :=
    .var rfl
  refine .letIn (.cons (.const rfl) (.inl rfl) (.inl rfl) rfl (.cons
    (hcall rfl rfl (.const rfl) (.const rfl)) (.inl rfl) (.inl rfl) rfl .nil)) ?_
  refine .letIn (.cons (hcall rfl rfl (.var rfl) (.var rfl)) (.inl rfl) (.inl rfl) rfl .nil) ?_
  exact .ifThenElse (hcall rfl rfl (.const rfl) hx) (.inl rfl) (hcall rfl rfl hx hx) (.inl rfl)
    (.var rfl) (.inl rfl) rfl

/-- The name stands for what is bound last, and what fails is not looked
at. -/
theorem shadowing_firstOrder :
    Typed [] shadowing.root .integer ∧ meaning [] [] shadowing.root = some (.integer 8) ∧
      ∃ r, (Graph.lowerModule shadowing .v1 true).result = .ok r ∧
        Machine.Ends ⟨.v1, 0⟩ r.term (.ok (.con (.integer 8))) := by
  have hmeaning : meaning [] [] shadowing.root = some (.integer 8) := rfl
  obtain ⟨r, hr, hends⟩ :=
    lowerModule_firstOrder shadowing rfl typed_shadowing (by decide : Version.v1 ≠ .unknown) true
  exact ⟨typed_shadowing, hmeaning, r, hr, ((hends ⟨.v1, 0⟩ rfl (by decide)).1 _).2 hmeaning⟩

end CoreLowering.FirstOrder
