import CoreLowering.Proofs.Graph.Names

/-!
# What emission does

Emission leaves the graph as it is: it fills in what is certain of values and
what is bound at them, and counts.  What it gives is described by `Emits`, on
terms in which every variable and every function carries the value it was
emitted for.

Main statement: `emitIn_emits`, whatever emission gives is the erasure of such
a term.
-/

namespace CoreLowering.Graph

variable {α β : Type} {g s s' s'' : State} {id i : Nat} {v : Value} {x : ValueId} {n : Node}
  {a : α} {f : α → LowerM β} {R : β → Bool → Prop} {ids order : List ValueId} {placing : Placing}
  {sane : ValueId → Prop} {branches : List ValueId}

/-! ## The graph under emission -/

/-- The value without what emission fills in. -/
def Value.bare (v : Value) : Value :=
  { v with
    certain := none
    placed := none }

/-- The state without what emission fills in, counts and notes down. -/
def State.bare (s : State) : State :=
  { s.quiet with
    values := s.values.map Value.bare
    usesFix := false }

def SameGraph (g s : State) : Prop := s.bare = g.bare

theorem SameGraph.refl : SameGraph s s := rfl

theorem SameGraph.trans (h : SameGraph s s') (h' : SameGraph s' s'') : SameGraph s s'' :=
  Eq.trans h' h

theorem SameGraph.debug (h : SameGraph g s) : s.debug = g.debug := (congrArg State.debug h :)

theorem SameGraph.values (h : SameGraph g s) : s.values.map Value.bare = g.values.map Value.bare :=
  congrArg State.values h

theorem SameGraph.size (h : SameGraph g s) : s.size = g.size := by
  have := congrArg Array.size h.values
  simpa [State.size] using this

theorem SameGraph.value? (h : SameGraph g s) (i : Nat) :
    (s.value? i).map Value.bare = (g.value? i).map Value.bare := by
  cases i with
  | zero => rfl
  | succ n =>
    have := congrArg (fun xs : Array Value => xs[n]?) h.values
    simpa [State.value?] using this

/-- A value keeps everything but what emission fills in. -/
theorem SameGraph.exists_value (h : SameGraph g s) (hv : s.value? i = some v) :
    ∃ w, g.value? i = some w ∧ w.bare = v.bare := by
  have := h.value? i
  rw [hv, Option.map_some] at this
  exact Option.map_eq_some_iff.1 this.symm

theorem SameGraph.node? (h : SameGraph g s) (i : Nat) : s.node? i = g.node? i := by
  have := congrArg (Option.map Value.node) (h.value? i)
  simpa only [State.node?, Option.map_map, Function.comp_def, Value.bare] using this

theorem SameGraph.usedOf (h : SameGraph g s) (i : Nat) : s.usedOf i = g.usedOf i := by
  have := congrArg (Option.map Value.used) (h.value? i)
  simp only [Option.map_map, Function.comp_def, Value.bare] at this
  unfold State.usedOf
  cases hs : s.value? i <;> cases hg : g.value? i <;> simp_all

theorem SameGraph.refsOf (h : SameGraph g s) (i : Nat) : s.refsOf i = g.refsOf i := by
  have := congrArg (Option.map Value.refs) (h.value? i)
  simp only [Option.map_map, Function.comp_def, Value.bare] at this
  unfold State.refsOf
  cases hs : s.value? i <;> cases hg : g.value? i <;> simp_all

theorem SameGraph.dependsFrom (h : SameGraph g s) (u o : Nat) :
    s.dependsFrom u o = g.dependsFrom u o := by
  rw [State.dependsFrom, State.dependsFrom, h.usedOf]

theorem SameGraph.outside (h : SameGraph g s) (owned : List ValueId) (all : VarSet) :
    s.outside owned all = g.outside owned all := by
  simp only [State.outside, h.dependsFrom]

theorem SameGraph.usedBy (h : SameGraph g s) (n : Node) : s.usedBy n = g.usedBy n := by
  simp only [State.usedBy, h.outside, h.usedOf]

theorem SameGraph.underViewsIn (h : SameGraph g s) (fuel i : Nat) :
    s.underViewsIn fuel i = g.underViewsIn fuel i := by
  induction fuel generalizing i with
  | zero => rfl
  | succ fuel ih =>
    have hn := h.node? i
    unfold State.node? at hn
    unfold State.underViewsIn
    cases hs : s.value? i <;> cases hg : g.value? i <;> simp_all

theorem SameGraph.underViews (h : SameGraph g s) (i : Nat) : s.underViews i = g.underViews i := by
  rw [State.underViews, State.underViews, h.size, h.underViewsIn]

theorem SameGraph.isEffortless (h : SameGraph g s) (i : Nat) :
    s.isEffortless i = g.isEffortless i := by
  rw [State.isEffortless, State.isEffortless, h.underViews]

theorem SameGraph.strictRoot (h : SameGraph g s) (bound : Bound) (fuel i : Nat) :
    s.strictRoot bound fuel i = g.strictRoot bound fuel i := by
  induction fuel generalizing i with
  | zero => rfl
  | succ fuel ih =>
    have hn : ∀ j, (s.value? j).map Value.node = (g.value? j).map Value.node := h.node?
    have hi := hn i
    unfold State.strictRoot
    cases hs : s.value? i <;> cases hg : g.value? i <;> simp only [hs, hg] at hi ⊢ <;>
      try simp at hi
    rename_i v w
    simp only [hi]
    split
    · rfl
    · cases w.node.rhs? with
      | none => rfl
      | some rhs =>
        have hr := hn rhs
        cases hs' : s.value? rhs <;> cases hg' : g.value? rhs <;>
          simp only [hs', hg'] at hr ⊢ <;> try simp at hr
        simp only [hr, ih, h.isEffortless]

/-- What `strictRoot` finds is a variable that is not bound, with a definition
that takes effort. -/
theorem strictRoot_spec {bound : Bound} {fuel : Nat} {rhs : ValueId}
    (h : g.strictRoot bound fuel id = some (x, rhs)) :
    x ∉ bound ∧ (∃ n, g.node? x = some n ∧ n.rhs? = some rhs) ∧
      ∃ r, g.node? rhs = some r ∧ r.isIdentifiable = false := by
  induction fuel generalizing id with
  | zero => cases h
  | succ fuel ih =>
    unfold State.strictRoot at h
    split at h
    · cases h
    · rename_i v hv
      split at h
      · cases h
      · rename_i hbound
        split at h
        · cases h
        · rename_i rhs' hrhs
          split at h
          · cases h
          · rename_i r hr
            split at h
            · exact ih h
            · rename_i hid
              split at h
              · cases h
              · cases h
                exact ⟨by simpa using hbound, ⟨v.node, node?_of_value hv, hrhs⟩,
                  r.node, node?_of_value hr, by simpa using hid⟩

/-! ## Terms that remember where they come from -/

/-- A term in which a variable or a function carries the value of the graph
that it was emitted for. -/
inductive Marked where
  | var (id : ValueId)
  /-- The fixed-point combinator. -/
  | fixVar
  | lam (id : ValueId) (body : Marked)
  | apply (fn arg : Marked)
  | force (body : Marked)
  | delay (body : Marked)
  /-- A term without variables. -/
  | leaf (t : Term)
  | case (scrutinee : Marked) (branches : List Marked)

namespace Marked

/-- A term applied to arguments, one after the other. -/
def applyAll (f : Marked) (args : List Marked) : Marked := args.foldl .apply f

/-- A function of several variables, the first one outermost. -/
def lams (ids : List ValueId) (t : Marked) : Marked := ids.foldr .lam t

/-- A term with definitions bound around it, the first one outermost. -/
def wrap (binds : List (ValueId × Marked)) (t : Marked) : Marked :=
  binds.foldr (fun b t => .apply (.lam b.1 t) b.2) t

mutual

/-- The term, in which the values go by their names. -/
def erase (name : ValueId → String) : Marked → Term
  | var id => .var (name id)
  | fixVar => .var fixName
  | lam id b => .lam (name id) (b.erase name)
  | apply f a => .apply (f.erase name) (a.erase name)
  | force b => .force (b.erase name)
  | delay b => .delay (b.erase name)
  | leaf t => t
  | case s bs => .case (s.erase name) (eraseAll name bs)

/-- The terms, in which the values go by their names. -/
def eraseAll (name : ValueId → String) : List Marked → List Term
  | [] => []
  | t :: ts => t.erase name :: eraseAll name ts

end

mutual

/-- Whether the term uses the fixed-point combinator. -/
def usesFix : Marked → Bool
  | fixVar => true
  | lam _ b => b.usesFix
  | apply f a => f.usesFix || a.usesFix
  | force b => b.usesFix
  | delay b => b.usesFix
  | case s bs => s.usesFix || usesFixAny bs
  | _ => false

/-- Whether one of the terms uses the fixed-point combinator. -/
def usesFixAny : List Marked → Bool
  | [] => false
  | t :: ts => t.usesFix || usesFixAny ts

end

theorem eraseAll_eq_map (name : ValueId → String) (ts : List Marked) :
    eraseAll name ts = ts.map (erase name) := by
  induction ts with
  | nil => rfl
  | cons t ts ih => rw [eraseAll, ih, List.map_cons]

theorem erase_applyAll (name : ValueId → String) (f : Marked) (args : List Marked) :
    (f.applyAll args).erase name = (f.erase name).applyAll (args.map (erase name)) := by
  induction args generalizing f with
  | nil => rfl
  | cons a args ih => exact ih (.apply f a)

theorem erase_lams (name : ValueId → String) (ids : List ValueId) (t : Marked) :
    (lams ids t).erase name = (ids.map name).foldr .lam (t.erase name) := by
  induction ids with
  | nil => rfl
  | cons x ids ih =>
    rw [List.map_cons, List.foldr_cons, ← ih]
    rfl

theorem erase_wrap (name : ValueId → String) (binds : List (ValueId × Marked)) (t : Marked) :
    (wrap binds t).erase name =
      wrapBinds (binds.map fun b => ⟨name b.1, b.2.erase name⟩) (t.erase name) := by
  induction binds with
  | nil => rfl
  | cons b binds ih =>
    rw [List.map_cons, wrapBinds, List.foldr_cons, ← wrapBinds, ← ih]
    rfl

theorem usesFixAny_eq (ts : List Marked) : usesFixAny ts = ts.any usesFix := by
  induction ts with
  | nil => rfl
  | cons t ts ih => rw [usesFixAny, ih, List.any_cons]

theorem usesFix_applyAll (f : Marked) (args : List Marked) :
    (f.applyAll args).usesFix = (f.usesFix || args.any usesFix) := by
  induction args generalizing f with
  | nil => simp [applyAll]
  | cons a args ih =>
    rw [show f.applyAll (a :: args) = (Marked.apply f a).applyAll args from rfl, ih,
      List.any_cons, usesFix, Bool.or_assoc]

theorem usesFix_lams (ids : List ValueId) (t : Marked) : (lams ids t).usesFix = t.usesFix := by
  induction ids with
  | nil => rfl
  | cons x ids ih => exact ih

theorem usesFix_wrap (binds : List (ValueId × Marked)) (t : Marked) :
    (wrap binds t).usesFix = (binds.any (·.2.usesFix) || t.usesFix) := by
  induction binds with
  | nil => simp [wrap]
  | cons b binds ih =>
    rw [show wrap (b :: binds) t = .apply (.lam b.1 (wrap binds t)) b.2 from rfl, usesFix,
      usesFix, ih, List.any_cons]
    ac_rfl

end Marked

/-! ## The terms of values -/

/-- The term that fails, after a message when debugging. -/
def failing (debug : Bool) (message : String) : Term :=
  if debug && message ≠ "" then
    .force (.applyAll (.ofBuiltin .trace) [.con (.string message), .delay .error])
  else .error

/-- The builtin that chooses between the branches of a case, and the order in
which it takes them. -/
def chooser? : Shape → List ValueId → Option (Builtin × List ValueId)
  | .bool, [no, yes] => some (.ifThenElse, [yes, no])
  | .unit, [only] => some (.chooseUnit, [only])
  | .list, [cons, nil] => some (.chooseList, [nil, cons])
  | .data, branches => some (.chooseData, branches)
  | _, _ => none

mutual

/-- The term of a value where the variables `bound` are bound.  `here` says
which variables can be bound at a value. -/
inductive Emits (g : State) (here : ValueId → List ValueId → Prop) :
    Bound → ValueId → Marked → Prop where
  | bound {bound : Bound} {id : ValueId} {n : Node} : g.node? id = some n →
      n.isIdentifiable = true → id ∈ bound → Emits g here bound id (.var id)
  | inlined {bound : Bound} {id rhs : ValueId} {n : Node} {t : Marked} :
      g.node? id = some n → n.isIdentifiable = true → id ∉ bound → n.rhs? = some rhs →
      Emits g here bound rhs t → Emits g here bound id t
  | node {bound inside : Bound} {id : ValueId} {n : Node} {xs : List ValueId}
      {binds : List (ValueId × Marked)} {t : Marked} :
      g.node? id = some n → n.isIdentifiable = false → here id xs →
      EmitsBinds g here bound xs binds inside → EmitsNode g here inside n t →
      Emits g here bound id (.wrap binds t)

/-- The definitions of variables, of which those that are bound already are
left out, and the variables that are bound after them. -/
inductive EmitsBinds (g : State) (here : ValueId → List ValueId → Prop) :
    Bound → List ValueId → List (ValueId × Marked) → Bound → Prop where
  | nil {bound : Bound} : EmitsBinds g here bound [] [] bound
  | skip {bound inside : Bound} {x : ValueId} {xs : List ValueId}
      {binds : List (ValueId × Marked)} : x ∈ bound →
      EmitsBinds g here bound xs binds inside → EmitsBinds g here bound (x :: xs) binds inside
  | bind {bound inside : Bound} {x rhs : ValueId} {xs : List ValueId} {n : Node} {t : Marked}
      {binds : List (ValueId × Marked)} : x ∉ bound → g.node? x = some n →
      n.rhs? = some rhs → Emits g here bound rhs t →
      EmitsBinds g here (x :: bound) xs binds inside →
      EmitsBinds g here bound (x :: xs) ((x, t) :: binds) inside

/-- The term of a node that is no variable, inside of what is bound at it. -/
inductive EmitsNode (g : State) (here : ValueId → List ValueId → Prop) :
    Bound → Node → Marked → Prop where
  | const {bound : Bound} {c : Constant} : EmitsNode g here bound (.const c) (.leaf (.con c))
  | builtinRef {bound : Bound} {f : Builtin} :
      EmitsNode g here bound (.builtinRef f) (.leaf (.ofBuiltin f))
  | error {bound : Bound} {message : String} :
      EmitsNode g here bound (.error message) (.leaf (failing g.debug message))
  | typeError {bound : Bound} {message : String} :
      EmitsNode g here bound (.typeError message) (.leaf (failing g.debug message))
  | held {bound : Bound} {body : ValueId} {barrier : Bool} {t : Marked} :
      Emits g here bound body t → EmitsNode g here bound (.lambda none body barrier) (.delay t)
  | lambda {bound : Bound} {param body : ValueId} {barrier : Bool} {t : Marked} :
      Emits g here (param :: bound) body t →
      EmitsNode g here bound (.lambda (some param) body barrier) (.lam param t)
  | apply {bound : Bound} {f a : ValueId} {t u : Marked} : Emits g here bound f t →
      Emits g here bound a u → EmitsNode g here bound (.apply f a) (.apply t u)
  | letIn {bound : Bound} {owned : List ValueId} {body : ValueId} {t : Marked} :
      Emits g here bound body t → EmitsNode g here bound (.letIn owned none body) t
  | strict {bound : Bound} {owned : List ValueId} {x body : ValueId} {t : Marked} :
      EmitsStrict g here bound x body t →
      EmitsNode g here bound (.letIn owned (some x) body) t
  | fix {bound : Bound} {self rec : ValueId} {t : Marked} :
      Emits g here (self :: bound) rec t →
      EmitsNode g here bound (.fix self rec) (.apply .fixVar (.lam self t))
  | case {bound : Bound} {shape : Shape} {scrutinee : ValueId}
      {branches owned : List ValueId} {binders : List (List ValueId)} {t : Marked}
      {ts : List Marked} : EmitsBranches g here bound branches binders ts →
      Emits g here bound scrutinee t →
      EmitsNode g here bound (.caseOf shape true scrutinee branches owned binders) (.case t ts)
  | choice {bound : Bound} {shape : Shape} {scrutinee : ValueId}
      {branches owned order : List ValueId} {binders : List (List ValueId)} {f : Builtin}
      {t : Marked} {ts : List Marked} : chooser? shape branches = some (f, order) →
      Emits g here bound scrutinee t → EmitsAll g here bound order ts →
      EmitsNode g here bound (.caseOf shape false scrutinee branches owned binders)
        (.force (.applyAll (.leaf (.ofBuiltin f)) (t :: ts.map .delay)))
  | pair {bound : Bound} {scrutinee only : ValueId} {owned : List ValueId}
      {binders : List (List ValueId)} {t : Marked} :
      EmitsStrict g here bound scrutinee only t →
      EmitsNode g here bound (.caseOf .pair false scrutinee [only] owned binders) t
  | builtin {bound : Bound} {f : Builtin} {args : List ValueId} {ts : List Marked} :
      EmitsAll g here bound args ts →
      EmitsNode g here bound (.builtin f args) (.applyAll (.leaf (.ofBuiltin f)) ts)
  | delay {bound : Bound} {x : ValueId} {t : Marked} : Emits g here bound x t →
      EmitsNode g here bound (.delay x) (.delay t)
  | forceDelay {bound : Bound} {x y : ValueId} {t : Marked} :
      g.node? x = some (.delay y) → Emits g here bound y t →
      EmitsNode g here bound (.force x) t
  | force {bound : Bound} {x : ValueId} {t : Marked} : (∀ y, g.node? x ≠ some (.delay y)) →
      Emits g here bound x t → EmitsNode g here bound (.force x) (.force t)
  | reinterpret {bound : Bound} {x : ValueId} {t : Marked} : Emits g here bound x t →
      EmitsNode g here bound (.reinterpret x) t

/-- The term of a value before which a variable is evaluated. -/
inductive EmitsStrict (g : State) (here : ValueId → List ValueId → Prop) :
    Bound → ValueId → ValueId → Marked → Prop where
  | plain {bound : Bound} {x body : ValueId} {t : Marked} :
      g.strictRoot bound (g.size + 1) x = none → Emits g here bound body t →
      EmitsStrict g here bound x body t
  | first {bound : Bound} {x y rhs body : ValueId} {t u : Marked} :
      g.strictRoot bound (g.size + 1) x = some (y, rhs) → Emits g here bound rhs u →
      Emits g here (y :: bound) body t →
      EmitsStrict g here bound x body (.apply (.lam y t) u)

/-- The terms of several values. -/
inductive EmitsAll (g : State) (here : ValueId → List ValueId → Prop) :
    Bound → List ValueId → List Marked → Prop where
  | nil {bound : Bound} : EmitsAll g here bound [] []
  | cons {bound : Bound} {x : ValueId} {xs : List ValueId} {t : Marked} {ts : List Marked} :
      Emits g here bound x t → EmitsAll g here bound xs ts →
      EmitsAll g here bound (x :: xs) (t :: ts)

/-- The terms of the branches of a native case, as functions of what they
bind. -/
inductive EmitsBranches (g : State) (here : ValueId → List ValueId → Prop) :
    Bound → List ValueId → List (List ValueId) → List Marked → Prop where
  | nil {bound : Bound} {binders : List (List ValueId)} :
      EmitsBranches g here bound [] binders []
  | cons {bound : Bound} {x : ValueId} {xs : List ValueId} {binders : List (List ValueId)}
      {t : Marked} {ts : List Marked} :
      Emits g here ((binders.head?.getD []) ++ bound) x t →
      EmitsBranches g here bound xs binders.tail ts →
      EmitsBranches g here bound (x :: xs) binders (.lams (binders.head?.getD []) t :: ts)

end

/-! ## Steps of emission -/

/-- The step succeeds on the graph of `g`. -/
def Works (J : Array Value → Prop) (g : State) (m : LowerM α) : Prop :=
  ∀ s, SameGraph g s → J s.values → ∃ a s', m.run s = (.ok a, s')

/-- What holds of the results of a step that works on the graph of `g`, keeps
`J` of the values and notes whether the fixed-point combinator is used.  Where
it fails, the graph is the same as well, and where it is safe, it does not. -/
structure Gives (J : Array Value → Prop) (g : State) (m : LowerM α) (P : α → Bool → Prop)
    (safe : Prop := False) : Prop where
  works : safe → Works J g m
  run : ∀ s, SameGraph g s → J s.values → SameGraph g (m.run s).2 ∧
    ∀ a, (m.run s).1 = .ok a → J (m.run s).2.values ∧
      ∃ b, (m.run s).2.usesFix = (s.usesFix || b) ∧ P a b

namespace Gives

variable {J : Array Value → Prop} {m : LowerM α} {P Q : α → Bool → Prop} {safe safe' : Prop}

theorem ok (h : Gives J g m P safe) (hs : SameGraph g s) (hj : J s.values)
    (hr : m.run s = (.ok a, s')) :
    SameGraph g s' ∧ J s'.values ∧ ∃ b, s'.usesFix = (s.usesFix || b) ∧ P a b := by
  have hm := h.run s hs hj
  rw [hr] at hm
  exact ⟨hm.1, hm.2 a rfl⟩

theorem mono (h : Gives J g m P safe) (hpq : ∀ a b, P a b → Q a b) : Gives J g m Q safe := by
  refine ⟨h.works, fun s hs hj => ⟨(h.run s hs hj).1, fun a ha => ?_⟩⟩
  obtain ⟨h1, b, h2, h3⟩ := (h.run s hs hj).2 a ha
  exact ⟨h1, b, h2, hpq a b h3⟩

theorem of_works (h : Gives J g m P safe) (hw : safe' → Works J g m) : Gives J g m P safe' :=
  ⟨hw, h.run⟩

theorem when (h : Gives J g m P safe) (hw : safe' → safe) : Gives J g m P safe' :=
  h.of_works fun hs => h.works (hw hs)

theorem pure (h : P a false) : Gives J g (Pure.pure a) P safe := by
  refine ⟨fun _ s _ _ => ⟨a, s, run_pure a⟩, fun s hs hj => ⟨hs, ?_⟩⟩
  rintro _ ⟨⟩
  exact ⟨hj, false, by simp, h⟩

theorem bind (hm : Gives J g m P safe)
    (hf : ∀ a b, P a b → Gives J g (f a) (fun r b' => R r (b || b')) safe) :
    Gives J g (m >>= f) R safe where
  works hsafe s hs hj := by
    obtain ⟨a, s1, hr⟩ := hm.works hsafe s hs hj
    obtain ⟨hs1, hj1, b, -, hp⟩ := hm.ok hs hj hr
    obtain ⟨c, s2, hr'⟩ := (hf a b hp).works hsafe s1 hs1 hj1
    exact ⟨c, s2, (run_bind_of_ok hr).trans hr'⟩
  run s hs hj := by
    rcases hr : m.run s with ⟨e | a, s'⟩
    · have h := (hm.run s hs hj).1
      rw [hr] at h
      rw [run_bind_of_error hr]
      exact ⟨h, nofun⟩
    · obtain ⟨h1, h2, b, h3, h4⟩ := hm.ok hs hj hr
      rw [run_bind_of_ok hr]
      refine ⟨((hf a b h4).run s' h1 h2).1, fun r hr => ?_⟩
      obtain ⟨h5, b', h6, h7⟩ := ((hf a b h4).run s' h1 h2).2 r hr
      exact ⟨h5, b || b', by rw [h6, h3, Bool.or_assoc], h7⟩

/-- A step that changes nothing to speak of, and then another one. -/
theorem look {p : α → Prop} (hm : Gives J g m (fun a b => b = false ∧ p a) safe)
    (hf : ∀ a, p a → Gives J g (f a) R safe) : Gives J g (m >>= f) R safe :=
  bind hm fun a b ⟨hb, ha⟩ => (hf a ha).mono fun r b' h => by simpa [hb] using h

theorem ite {p : Prop} [Decidable p] {n : LowerM α} (hm : p → Gives J g m P safe)
    (hn : ¬p → Gives J g n P safe) : Gives J g (if p then m else n) P safe := by
  split
  · exact hm ‹_›
  · exact hn ‹_›

theorem modify {f : State → State} {b : Bool} (hg : ∀ s, SameGraph s (f s))
    (hv : ∀ s, J s.values → J (f s).values) (hb : ∀ s, (f s).usesFix = (s.usesFix || b)) :
    Gives J g (modify f) (fun _ b' => b' = b) safe :=
  ⟨fun _ s _ _ => ⟨(), f s, rfl⟩,
    fun s hs hj => ⟨hs.trans (hg s), fun _ _ => ⟨hv s hj, b, hb s, rfl⟩⟩⟩

theorem point (name detail : String) :
    Gives J g (Graph.point name detail) (fun _ b => b = false) safe := by
  refine modify (fun s => ?_) (fun s hj => ?_) fun s => ?_
  all_goals split
  · rfl
  · rfl
  · exact hj
  · exact hj
  · simp
  · simp

theorem fail (cause : Cause) (span : Span) (types : List Ty) (reps : List Rep) (h : ¬safe) :
    Gives J g (Graph.fail cause span types reps) P safe :=
  bind (point _ _) fun _ _ _ => ⟨fun hs => absurd hs h, fun _ hs _ => ⟨hs, nofun⟩⟩

theorem failAt (cause : Cause) (span : Span) (h : ¬safe) :
    Gives J g (Graph.failAt cause span) P safe :=
  fail cause span [] [] h

theorem getKept : Gives J g get (fun s b => b = false ∧ SameGraph g s ∧ J s.values) safe := by
  refine ⟨fun _ s _ _ => ⟨s, s, run_get⟩, fun s hs hj => ⟨hs, ?_⟩⟩
  rintro _ ⟨⟩
  exact ⟨hj, false, by simp, rfl, hs, hj⟩

theorem get : Gives J g get (fun s b => b = false ∧ SameGraph g s) safe :=
  getKept.mono fun _ _ h => ⟨h.1, h.2.1⟩

theorem valueKept (h : safe → Valid g id) : Gives J g (Graph.value id) (fun v b =>
    b = false ∧ ∃ s, SameGraph g s ∧ J s.values ∧ s.value? id = some v) safe := by
  refine look getKept fun s ⟨hs, hj⟩ => ?_
  split
  case h_1 v hv => exact pure ⟨rfl, s, hs, hj, hv⟩
  case h_2 hv =>
    refine failAt _ _ fun hsafe => ?_
    obtain ⟨h0, hle⟩ := h hsafe
    obtain ⟨v, hv'⟩ := Valid.exists_value (s := s) ⟨h0, hs.size ▸ hle⟩
    cases hv.symm.trans hv'

theorem value (h : safe → Valid g id) :
    Gives J g (Graph.value id) (fun v b => b = false ∧ g.node? id = some v.node) safe :=
  (valueKept h).mono fun _ _ ⟨hb, s, hs, _, hv⟩ => ⟨hb, by rw [← hs.node?, node?_of_value hv]⟩

theorem reporting (h : Gives J g m P) : Gives J g (reporting m) P := by
  refine ⟨False.elim, fun s hs hj => ?_⟩
  have hm := h.run s hs hj
  rw [Graph.reporting, run_tryCatch]
  rcases hr : m.run s with ⟨e | a, s'⟩ <;> rw [hr] at hm
  · dsimp only
    split
    · exact ⟨hm.1, by rintro _ ⟨⟩⟩
    · exact ⟨hm.1, by rintro _ ⟨⟩⟩
  · exact hm

end Gives

/-! ## From runs to terms -/

def State.nameOf (s : State) (id : ValueId) : String :=
  match s.node? id with
  | some n => n.name
  | none => ""

theorem nameOf_eq (h : s.node? id = some n) : s.nameOf id = n.name := by
  rw [State.nameOf, h]

section

variable {J : Array Value → Prop} {here : ValueId → List ValueId → Prop} {emit : Emitter}
  {bound : Bound} {safe : Prop}

/-- The terms that come out are those of a value. -/
def TermOf (g : State) (E : Marked → Prop) (t : Term) (b : Bool) : Prop :=
  ∃ m, E m ∧ m.erase g.nameOf = t ∧ m.usesFix = b

/-- How parts are emitted agrees with their terms. -/
def EmitsWell (J : Array Value → Prop) (g : State) (here : ValueId → List ValueId → Prop)
    (emit : Emitter) : Prop :=
  ∀ bound id, Gives J g (emit bound id) (TermOf g (Emits g here bound id))

theorem EmitsWell.part (he : EmitsWell J g here emit) (hw : safe → Works J g (emit bound x)) :
    Gives J g (emit bound x) (TermOf g (Emits g here bound x)) safe :=
  (he bound x).of_works hw

theorem emitAll_gives (he : EmitsWell J g here emit)
    (hw : safe → ∀ x ∈ ids, Works J g (emit bound x)) :
    Gives J g (ids.mapM (emit bound)) (fun ts b =>
      ∃ ms, EmitsAll g here bound ids ms ∧ ms.map (·.erase g.nameOf) = ts ∧
        ms.any (·.usesFix) = b) safe := by
  induction ids with
  | nil =>
    rw [List.mapM_nil]
    exact .pure ⟨[], .nil, rfl, rfl⟩
  | cons x ids ih =>
    simp only [List.forall_mem_cons] at hw
    rw [List.mapM_cons]
    refine .bind (he.part fun h => (hw h).1) fun t b ⟨m, hm, ht, hb⟩ => ?_
    refine .bind (ih fun h => (hw h).2) fun ts b' ⟨ms, hms, hts, hb'⟩ => ?_
    refine .pure ⟨m :: ms, .cons hm hms, ?_, ?_⟩
    · rw [List.map_cons, ht, hts]
    · rw [List.any_cons, hb, hb', Bool.or_false]

theorem emitDelayed_eq (emit : Emitter) (bound : Bound) (ids : List ValueId) :
    emitDelayed emit bound ids = do return (← ids.mapM (emit bound)).map .delay := by
  unfold emitDelayed
  induction ids with
  | nil => rfl
  | cons x ids ih => simp only [List.mapM_cons, ih, bind_assoc, pure_bind, List.map_cons]

theorem emitDelayed_gives (he : EmitsWell J g here emit)
    (hw : safe → ∀ x ∈ ids, Works J g (emit bound x)) :
    Gives J g (emitDelayed emit bound ids) (fun ts b =>
      ∃ ms, EmitsAll g here bound ids ms ∧
        (ms.map Marked.delay).map (·.erase g.nameOf) = ts ∧ ms.any (·.usesFix) = b) safe := by
  rw [emitDelayed_eq]
  refine .bind (emitAll_gives he hw) fun ts b h => ?_
  obtain ⟨ms, hms, rfl, rfl⟩ := h
  refine .pure ⟨ms, hms, ?_, (Bool.or_false _).symm⟩
  rw [List.map_map, List.map_map]
  rfl

theorem names_gives (hv : safe → ∀ y ∈ ids, Valid g y) :
    Gives J g (ids.mapM fun b => do return (← value b).node.name) (fun names b =>
      b = false ∧ names = ids.map g.nameOf) safe := by
  induction ids with
  | nil =>
    rw [List.mapM_nil]
    exact .pure ⟨rfl, rfl⟩
  | cons x ids ih =>
    simp only [List.forall_mem_cons] at hv
    rw [List.mapM_cons, bind_assoc]
    refine .look (.value fun h => (hv h).1) fun v hx => ?_
    rw [pure_bind]
    refine .look (ih fun h => (hv h).2) fun names hn => .pure ⟨rfl, ?_⟩
    rw [List.map_cons, hn, nameOf_eq hx]

theorem underBinders_gives (he : EmitsWell J g here emit) {binders : List ValueId} {body : ValueId}
    (hw : safe → (∀ y ∈ binders, Valid g y) ∧ Works J g (emit (binders ++ bound) body)) :
    Gives J g (underBinders emit bound binders body) (TermOf g fun m =>
      ∃ t, m = .lams binders t ∧ Emits g here (binders ++ bound) body t) safe := by
  refine .bind (he.part fun h => (hw h).2) fun t b ⟨m, hm, ht, hb⟩ => ?_
  refine .look (names_gives fun h => (hw h).1) fun names hn =>
    .pure ⟨.lams binders m, ⟨m, rfl, hm⟩, ?_, ?_⟩
  · rw [Marked.erase_lams, ht, hn]
  · rw [Marked.usesFix_lams, hb, Bool.or_false]

/-- A variable has a definition, which can be emitted wherever no less is bound
and the variable itself is not. -/
def Definable (J : Array Value → Prop) (g : State) (emit : Emitter) (bound : Bound) (x : Nat) :
    Prop :=
  ∃ n r, g.node? x = some n ∧ n.rhs? = some r ∧
    ∀ inside, bound ⊆ inside → x ∉ inside → Works J g (emit inside r)

theorem Definable.works {x : Nat} {o : Option ValueId} (h : Definable J g emit bound x)
    (hn : g.node? x = some n) (hx : x ∉ bound) (ho : n.rhs? = o) :
    ∃ r, o = some r ∧ Works J g (emit bound r) := by
  obtain ⟨n', r, hn', hr, hwork⟩ := h
  cases hn.symm.trans hn'
  exact ⟨r, ho.symm.trans hr, hwork bound (List.Subset.refl _) hx⟩

theorem emitVar_gives (he : EmitsWell J g here emit) (hv : g.node? id = some v.node)
    (hid : v.node.isIdentifiable = true) (hw : safe → id ∉ bound → Definable J g emit bound id) :
    Gives J g (emitVar emit bound id v) (TermOf g (Emits g here bound id)) safe := by
  refine .ite (fun h => ?_) fun h => ?_
  · refine .pure ⟨.var id, .bound hv hid (by simpa using h), ?_, rfl⟩
    rw [Marked.erase, nameOf_eq hv]
  have hb : id ∉ bound := by simpa using h
  split
  case h_1 rhs hr =>
    refine .bind (.modify (b := false) (fun _ => rfl) (fun _ h => h) (by simp)) ?_
    rintro _ _ rfl
    refine (he.part fun h => ?_).mono fun t b ⟨m, hm, ht, hb'⟩ => ⟨m, ?_, ht, by simpa using hb'⟩
    · obtain ⟨_, ⟨⟩, hwork⟩ := (hw h hb).works hv hb hr
      exact hwork
    · exact .inlined hv hid hb hr hm
  case h_2 hr =>
    refine .fail _ _ _ _ fun h => ?_
    obtain ⟨_, ⟨⟩, -⟩ := (hw h hb).works hv hb hr

theorem emitBinds_gives (he : EmitsWell J g here emit) (kind : String) {xs : List ValueId}
    (hw : safe → ∀ x : Nat, x ∈ xs → x ∉ bound → Definable J g emit bound x) :
    Gives J g (emitBinds emit kind id xs bound) (fun r b =>
      ∃ binds, EmitsBinds g here bound xs binds r.2 ∧
        (binds.map fun p => ⟨g.nameOf p.1, p.2.erase g.nameOf⟩) = r.1 ∧
        binds.any (·.2.usesFix) = b) safe := by
  induction xs generalizing bound with
  | nil => exact .pure ⟨[], .nil, rfl, rfl⟩
  | cons x xs ih =>
    have hrest := fun h y hy => hw h y (List.mem_cons_of_mem x hy)
    refine .ite (fun h => ?_) fun h => ?_
    · refine (ih hrest).mono fun r b ⟨binds, h1, h2, h3⟩ => ⟨binds, ?_, h2, h3⟩
      exact .skip (by simpa using h) h1
    have hx : x ∉ bound := by simpa using h
    have hdef := fun h => hw h x List.mem_cons_self hx
    refine .look (.value fun h => ?_) fun v hv => ?_
    · obtain ⟨n, r, hn, -⟩ := hdef h
      exact valid_of_node? hn
    split
    case h_1 hr =>
      refine .failAt _ _ fun h => ?_
      obtain ⟨_, ⟨⟩, -⟩ := (hdef h).works hv hx hr
    case h_2 rhs hr =>
      refine .bind (he.part fun h => ?_) fun d b ⟨m, hm, hd, hb⟩ => ?_
      · obtain ⟨_, ⟨⟩, hwork⟩ := (hdef h).works hv hx hr
        exact hwork
      refine .bind (.modify (b := false) (fun _ => rfl) (fun _ h => h)
        (by simp)) fun _ b1 hb1 => ?_
      refine .bind (.point _ _) fun _ b2 hb2 => ?_
      refine .bind (ih fun h y hy hny => ?_) fun r b' ⟨binds, h1, h2, h3⟩ => ?_
      · rw [List.mem_cons, not_or] at hny
        obtain ⟨n, r, hn, hr, hwork⟩ := hrest h y hy hny.2
        exact ⟨n, r, hn, hr, fun inside hsub => hwork inside fun z hz => hsub (.tail _ hz)⟩
      refine .pure ⟨(x, m) :: binds, .bind hx hv hr hm h1, ?_, ?_⟩
      · rw [List.map_cons, h2, hd, nameOf_eq hv]
      · rw [List.any_cons, h3, hb, hb1, hb2]
        simp

theorem strictly_gives (he : EmitsWell J g here emit) {x body : ValueId}
    (hbody : safe → ∀ inside, bound ⊆ inside → Works J g (emit inside body))
    (hroot : safe → ∀ y r, g.strictRoot bound (g.size + 1) x = some (y, r) →
      Valid g y ∧ Works J g (emit bound r)) :
    Gives J g (strictly emit bound x body) (TermOf g (EmitsStrict g here bound x body)) safe := by
  refine .look .get fun s hs => ?_
  rw [hs.strictRoot, hs.size]
  split
  case h_1 h =>
    refine (he.part fun hsafe => hbody hsafe bound (List.Subset.refl _)).mono ?_
    exact fun t b ⟨m, hm, ht, hb⟩ => ⟨m, .plain h hm, ht, hb⟩
  case h_2 y rhs h =>
    refine .look (.value fun hsafe => (hroot hsafe y rhs h).1) fun v hv => ?_
    refine .bind (he.part fun hsafe => (hroot hsafe y rhs h).2) fun d b ⟨m, hm, hd, hb⟩ => ?_
    refine .bind (he.part fun hsafe => hbody hsafe (y :: bound) (List.subset_cons_self ..)) ?_
    refine fun t b' ⟨m', hm', ht, hb'⟩ => ?_
    refine .bind (.modify (b := false) (fun _ => rfl) (fun _ h => h)
      (by simp)) fun _ b1 hb1 => ?_
    refine .pure ⟨.apply (.lam y m') m, .first h hm hm', ?_, ?_⟩
    · rw [Marked.erase, Marked.erase, ht, hd, nameOf_eq hv]
    · rw [Marked.usesFix, Marked.usesFix, hb, hb', hb1, Bool.or_false, Bool.or_false,
        Bool.or_comm]

theorem errorTerm_gives (message : String) :
    Gives J g (errorTerm message) (fun t b => b = false ∧ t = failing g.debug message) safe := by
  refine .look .get fun s hs => ?_
  rw [hs.debug]
  unfold failing
  split
  · exact .pure ⟨rfl, rfl⟩
  · exact .pure ⟨rfl, rfl⟩

theorem emitChoice_gives (he : EmitsWell J g here emit) {f : Builtin} {scrutinee : ValueId}
    (hw : safe → Works J g (emit bound scrutinee) ∧ ∀ x ∈ order, Works J g (emit bound x)) :
    Gives J g (emitChoice emit bound f scrutinee order) (TermOf g fun m => ∃ t ts,
      m = .force (.applyAll (.leaf (.ofBuiltin f)) (t :: ts.map .delay)) ∧
      Emits g here bound scrutinee t ∧ EmitsAll g here bound order ts) safe := by
  refine .bind (he.part fun h => (hw h).1) fun t b ⟨m, hm, ht, hb⟩ => ?_
  refine .bind (emitDelayed_gives he fun h => (hw h).2) fun ts b' ⟨ms, hms, hts, hb'⟩ => ?_
  refine .pure ⟨_, ⟨m, ms, rfl, hm, hms⟩, ?_, ?_⟩
  · rw [Marked.erase, Marked.erase_applyAll, List.map_cons, ht, hts]
    rfl
  · rw [Marked.usesFix, Marked.usesFix_applyAll, List.any_cons, hb, List.any_map, ← hb']
    simp [Marked.usesFix, Function.comp_def]

theorem mem_of_chooser? {shape : Shape} {f : Builtin}
    (h : chooser? shape branches = some (f, order)) : ∀ x ∈ order, x ∈ branches := by
  unfold chooser? at h
  split at h <;> cases h <;> simp

theorem emitEmulated_gives (he : EmitsWell J g here emit) (span : Span) {shape : Shape}
    {scrutinee : ValueId} (owned : List ValueId) (binders : List (List ValueId))
    (hw : safe → (chooser? shape branches).isSome = true ∧ Works J g (emit bound scrutinee) ∧
      ∀ x ∈ branches, Works J g (emit bound x)) :
    Gives J g (emitEmulated emit bound span shape scrutinee branches) (TermOf g
      (EmitsNode g here bound (.caseOf shape false scrutinee branches owned binders))) safe := by
  have hchoice : ∀ {f order}, chooser? shape branches = some (f, order) →
      Gives J g (emitChoice emit bound f scrutinee order) (TermOf g
        (EmitsNode g here bound (.caseOf shape false scrutinee branches owned binders))) safe := by
    intro f order hf
    refine (emitChoice_gives he fun h => ⟨(hw h).2.1, fun x hx => ?_⟩).mono ?_
    · exact (hw h).2.2 x (mem_of_chooser? hf x hx)
    · rintro t b ⟨_, ⟨m, ms, rfl, hm, hms⟩, ht, hb⟩
      exact ⟨_, .choice hf hm hms, ht, hb⟩
  unfold emitEmulated
  split
  · exact hchoice rfl
  · exact hchoice rfl
  · exact hchoice rfl
  · refine (strictly_gives he (fun h => ?_) fun h => ?_).mono fun t b ⟨m, hm, ht, hb⟩ =>
      ⟨m, .pair hm, ht, hb⟩
    · cases (hw h).1
    · cases (hw h).1
  · exact hchoice rfl
  · refine .failAt _ _ fun h => ?_
    have hch := (hw h).1
    unfold chooser? at hch
    split at hch <;> simp_all

theorem emitBranches_gives (he : EmitsWell J g here emit) {binders : List (List ValueId)}
    (hw : safe → (∀ y : Nat, y ∈ binders.flatten → Valid g y) ∧ ∀ (i : Nat) b,
      branches[i]? = some b → Works J g (emit ((binders[i]?).getD [] ++ bound) b)) :
    Gives J g (emitBranches emit bound branches binders) (fun ts b =>
      ∃ ms, EmitsBranches g here bound branches binders ms ∧
        ms.map (·.erase g.nameOf) = ts ∧ ms.any (·.usesFix) = b) safe := by
  induction branches generalizing binders with
  | nil => exact .pure ⟨[], .nil, rfl, rfl⟩
  | cons x branches ih =>
    refine .bind (underBinders_gives he fun h => ?_) ?_
    · obtain ⟨hv, hx⟩ := hw h
      have hx := hx 0 x rfl
      cases binders with
      | nil => exact ⟨by simp, hx⟩
      | cons ys binders => exact ⟨fun y hy => hv y (List.mem_append_left _ hy), hx⟩
    rintro t b ⟨_, ⟨m, rfl, hm⟩, ht, hb⟩
    refine .bind (ih fun h => ?_) fun ts b' ⟨ms, hms, hts, hb'⟩ => ?_
    · obtain ⟨hv, hx⟩ := hw h
      have hx := fun i b hb => hx (i + 1) b hb
      cases binders with
      | nil => exact ⟨by simp, hx⟩
      | cons ys binders => exact ⟨fun y hy => hv y (List.mem_append_right _ hy), hx⟩
    refine .pure ⟨_ :: ms, .cons hm hms, ?_, ?_⟩
    · rw [List.map_cons, ht, hts]
    · rw [List.any_cons, hb, hb', Bool.or_false]

/-- The parts of a node can be emitted where they stand in its term, and what it
binds is there. -/
def Emittable (J : Array Value → Prop) (g : State) (emit : Emitter) (bound : Bound) : Node → Prop
  | .lambda none x _ | .letIn _ none x | .delay x | .reinterpret x => Works J g (emit bound x)
  | .lambda (some y) x _ | .fix y x => Valid g y ∧ Works J g (emit (y :: bound) x)
  | .apply f a => Works J g (emit bound f) ∧ Works J g (emit bound a)
  | .letIn _ (some x) body =>
    (∀ inside, bound ⊆ inside → Works J g (emit inside body)) ∧
      ∀ y r, g.strictRoot bound (g.size + 1) x = some (y, r) → Valid g y ∧ Works J g (emit bound r)
  | .caseOf _ true x bs _ binders => Works J g (emit bound x) ∧
      (∀ y : Nat, y ∈ binders.flatten → Valid g y) ∧
      ∀ (i : Nat) b, bs[i]? = some b → Works J g (emit ((binders[i]?).getD [] ++ bound) b)
  | .caseOf sh false x bs _ _ => (chooser? sh bs).isSome = true ∧ Works J g (emit bound x) ∧
      ∀ b ∈ bs, Works J g (emit bound b)
  | .builtin _ args => ∀ x ∈ args, Works J g (emit bound x)
  | .force _ => False
  | _ => True

theorem emitNode_gives (he : EmitsWell J g here emit) (hid : v.node.isIdentifiable = false)
    (hw : safe → Emittable J g emit bound v.node) :
    Gives J g (emitNode emit bound v) (TermOf g (EmitsNode g here bound v.node)) safe := by
  unfold emitNode
  cases hn : v.node <;> rw [hn] at hw
  case const c => exact .pure ⟨_, .const, rfl, rfl⟩
  case builtinRef f => exact .pure ⟨_, .builtinRef, rfl, rfl⟩
  case error message =>
    refine (errorTerm_gives message).mono ?_
    rintro t b ⟨hb, ht⟩
    exact ⟨_, .error, ht.symm, hb.symm⟩
  case typeError message =>
    refine (errorTerm_gives message).mono ?_
    rintro t b ⟨hb, ht⟩
    exact ⟨_, .typeError, ht.symm, hb.symm⟩
  case var x rhs => simp [hn, Node.isIdentifiable] at hid
  case aliased x o rhs => simp [hn, Node.isIdentifiable] at hid
  case lambda param body barrier =>
    cases param with
    | none =>
      refine .bind (he.part hw) ?_
      rintro t b ⟨m, hm, ht, hb⟩
      refine .pure ⟨_, .held hm, ?_, ?_⟩
      · rw [Marked.erase, ht]
      · rw [Marked.usesFix, hb, Bool.or_false]
    | some p =>
      refine (underBinders_gives he fun h => ⟨by simpa using (hw h).1, (hw h).2⟩).mono ?_
      rintro t b ⟨_, ⟨m, rfl, hm⟩, ht, hb⟩
      exact ⟨_, .lambda hm, ht, hb⟩
  case apply f a =>
    refine .bind (he.part fun h => (hw h).1) ?_
    rintro t b ⟨m, hm, ht, hb⟩
    refine .bind (he.part fun h => (hw h).2) ?_
    rintro u b' ⟨m', hm', hu, hb'⟩
    refine .pure ⟨_, .apply hm hm', ?_, ?_⟩
    · rw [Marked.erase, ht, hu]
    · rw [Marked.usesFix, hb, hb', Bool.or_false]
  case letIn owned strict body =>
    cases strict with
    | none =>
      refine (he.part hw).mono ?_
      rintro t b ⟨m, hm, ht, hb⟩
      exact ⟨m, .letIn hm, ht, hb⟩
    | some x =>
      refine (strictly_gives he (fun h => (hw h).1) fun h => (hw h).2).mono ?_
      rintro t b ⟨m, hm, ht, hb⟩
      exact ⟨m, .strict hm, ht, hb⟩
  case fix self rec =>
    refine .bind (.modify (b := true) (fun _ => rfl) (fun _ h => h)
      (by simp)) fun _ b hb => ?_
    refine .bind (underBinders_gives he fun h => ⟨by simpa using (hw h).1, (hw h).2⟩) ?_
    rintro t b' ⟨_, ⟨m, rfl, hm⟩, ht, hb'⟩
    refine .pure ⟨_, .fix hm, ?_, ?_⟩
    · rw [Marked.erase, ← ht]
      rfl
    · simp [Marked.usesFix, hb]
  case caseOf shape native scrutinee branches owned binders =>
    cases native with
    | true =>
      refine .bind (emitBranches_gives he fun h => (hw h).2) ?_
      rintro ts b ⟨ms, hms, hts, hb⟩
      refine .bind (he.part fun h => (hw h).1) ?_
      rintro t b' ⟨m, hm, ht, hb'⟩
      refine .pure ⟨_, .case hms hm, ?_, ?_⟩
      · rw [Marked.erase, Marked.eraseAll_eq_map, ht, hts]
      · rw [Marked.usesFix, Marked.usesFixAny_eq, hb, hb', Bool.or_false, Bool.or_comm]
    | false => exact emitEmulated_gives he _ owned binders hw
  case builtin f args =>
    refine .bind (emitAll_gives he hw) ?_
    rintro ts b ⟨ms, hms, hts, hb⟩
    refine .pure ⟨_, .builtin hms, ?_, ?_⟩
    · rw [Marked.erase_applyAll, hts]
      rfl
    · rw [Marked.usesFix_applyAll, hb, Bool.or_false]
      rfl
  case delay x =>
    refine .bind (he.part hw) ?_
    rintro t b ⟨m, hm, ht, hb⟩
    refine .pure ⟨_, .delay hm, ?_, ?_⟩
    · rw [Marked.erase, ht]
    · rw [Marked.usesFix, hb, Bool.or_false]
  case force x =>
    refine .look (.value fun h => (hw h).elim) fun w hx => ?_
    split
    · rename_i y hy
      refine (he.part fun h => (hw h).elim).mono ?_
      rintro t b ⟨m, hm, ht, hb⟩
      exact ⟨m, .forceDelay (hy ▸ hx) hm, ht, hb⟩
    · rename_i hne
      refine .bind (he.part fun h => (hw h).elim) ?_
      rintro t b ⟨m, hm, ht, hb⟩
      refine .pure ⟨_, .force ?_ hm, ?_, ?_⟩
      · intro y hy
        rw [hx, Option.some.injEq] at hy
        exact hne y hy
      · rw [Marked.erase, ht]
      · rw [Marked.usesFix, hb, Bool.or_false]
  case reinterpret x =>
    refine (he.part hw).mono ?_
    rintro t b ⟨m, hm, ht, hb⟩
    exact ⟨m, .reinterpret hm, ht, hb⟩

/-- How variables are chosen to be bound at a value agrees with `here`. -/
def PlacesWell (J : Array Value → Prop) (g : State) (here : ValueId → List ValueId → Prop)
    (placing : Placing) (safe : ValueId → Prop := fun _ => False) : Prop :=
  ∀ id, Gives J g (placing id) (fun xs b => b = false ∧ here id xs) (safe id)

/-- What has to be emitted for a value can be. -/
inductive Ripe (J : Array Value → Prop) (g : State) (here : ValueId → List ValueId → Prop)
    (emit : Emitter) (bound : Bound) (id : Nat) (n : Node) : Prop where
  | var : n.isIdentifiable = true → (id ∉ bound → Definable J g emit bound id) →
      Ripe J g here emit bound id n
  | node : n.isIdentifiable = false →
      (∀ xs, here id xs → ∀ x : Nat, x ∈ xs → x ∉ bound → Definable J g emit bound x) →
      (∀ xs binds inside, here id xs → EmitsBinds g here bound xs binds inside →
        Emittable J g emit inside n) → Ripe J g here emit bound id n

theorem emitStep_gives (hp : PlacesWell J g here placing sane) (he : EmitsWell J g here emit)
    (hw : safe → sane id ∧ ∃ n, g.node? id = some n ∧ Ripe J g here emit bound id n) :
    Gives J g (emitStep placing emit bound id) (TermOf g (Emits g here bound id)) safe := by
  refine .look (.value fun h => ?_) fun v hv => ?_
  · obtain ⟨-, n, hn, -⟩ := hw h
    exact valid_of_node? hn
  have hripe : safe → Ripe J g here emit bound id v.node := by
    intro h
    obtain ⟨-, n, hn, hr⟩ := hw h
    cases hv.symm.trans hn
    exact hr
  refine .ite (fun h => emitVar_gives he hv h fun hs hb => ?_) fun h => ?_
  · cases hripe hs with
    | var _ hdef => exact hdef hb
    | node hid => cases h.symm.trans hid
  have hid : v.node.isIdentifiable = false := by simpa using h
  have hnode : safe → (∀ xs, here id xs → ∀ x : Nat, x ∈ xs → x ∉ bound →
      Definable J g emit bound x) ∧ ∀ xs binds inside, here id xs →
      EmitsBinds g here bound xs binds inside → Emittable J g emit inside v.node := by
    intro hs
    cases hripe hs with
    | var hid' => cases hid.symm.trans hid'
    | node _ h1 h2 => exact ⟨h1, h2⟩
  refine .look ((hp id).when fun hs => (hw hs).1) fun xs hxs => ?_
  refine .bind (emitBinds_gives he _ fun hs => (hnode hs).1 xs hxs) ?_
  rintro ⟨bs, inside⟩ b ⟨binds, h1, h2, h3⟩
  refine .bind (emitNode_gives he hid fun hs => (hnode hs).2 xs binds inside hxs h1) ?_
  intro t b' ⟨m, hm, ht, hb⟩
  refine .pure ⟨_, .node hv hid hxs h1 hm, ?_, ?_⟩
  · rw [Marked.erase_wrap, ht, h2]
  · rw [Marked.usesFix_wrap, h3, hb, Bool.or_false]

/-- **What emission gives is the erasure of a term of the value.** -/
theorem emitIn_emits (hp : PlacesWell J g here placing sane) (fuel : Nat) :
    EmitsWell J g here (emitIn placing fuel) := by
  induction fuel with
  | zero => exact fun bound id => .failAt _ _ not_false
  | succ fuel ih => exact fun bound id => emitStep_gives hp ih False.elim

theorem emitWith_gives (hp : PlacesWell J g here placing sane) (id : ValueId) :
    Gives J g (emitWith placing id) (TermOf g (Emits g here [] id)) :=
  .look .get fun _ _ => emitIn_emits hp _ [] id

end

end CoreLowering.Graph
