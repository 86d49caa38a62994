import CoreLowering.Proofs.Graph.Emission
import CoreLowering.Proofs.Machine.Hushing

/-!
# Two emissions side by side

Finding the places of bindings and emitting a term look at no declaration and
ask nothing of the version.  Debugging makes one difference, the message
before a failure.  So two settings of a coupling emit terms that are
`Likened`: the same one, unless only one of them debugs, and the same one in
any case once the messages are left out.

Main statements: `emit_alike` for a value, `run_alike` for the root of a unit.
-/

namespace CoreLowering.Graph

variable {κ : Coupling} {id x : ValueId} {span : Span} {w : Value} {branches : List ValueId}

/-! ## Placing bindings -/

namespace State

variable (s : State) (g : Setting) (p : List Point)

/-- Settings do not decide what is inlined. -/
theorem isInlined_under (v : Value) : (s.under g p).isInlined v = s.isInlined v := by
  simp only [isInlined, underViews_under]

/-- Settings do not decide what can be bound. -/
theorem bindable?_under (id : ValueId) : (s.under g p).bindable? id = s.bindable? id := by
  simp only [bindable?, value?_under, isInlined_under]

/-- The order of bindings is the same in all settings. -/
theorem topoOrderIn_under (fuel : Nat) (pending : List ValueId) :
    (s.under g p).topoOrderIn fuel pending = s.topoOrderIn fuel pending := by
  induction fuel generalizing pending with
  | zero => rfl
  | succ fuel ih =>
    simp only [topoOrderIn, ih]
    rfl

/-- Chains of definitions are the same in all settings. -/
theorem strictRoot_under (bound : Bound) (fuel : Nat) (id : ValueId) :
    (s.under g p).strictRoot bound fuel id = s.strictRoot bound fuel id := by
  induction fuel generalizing id with
  | zero => rfl
  | succ fuel ih => simp only [strictRoot, value?_under, isEffortless_under, ih]

end State

theorem freshUsed_steady : Steady κ (freshUsed w) :=
  .get_bind (fun _ _ _ => rfl) fun _ => .pure _

/-- One node passes on which variables are certain to be needed. -/
theorem certainStep_steady {certain : ValueId → LowerM VarSet} (hc : ∀ id, Steady κ (certain id)) :
    Steady κ (certainStep certain id w) := by
  unfold certainStep
  split
  · split
    · exact .bind (hc _) fun _ => .pure _
    · exact .pure _
  · split
    · exact .bind (hc _) fun _ => .pure _
    · exact .pure _
  · exact .pure _
  · exact .pure _
  · exact .ite (fun _ => .bind freshUsed_steady fun _ => .bind (hc _) fun _ => .pure _)
      fun _ => .pure _
  · refine .bind value_steady fun _ => ?_
    split <;> exact hc _
  · exact .bind (hc _) fun _ => .bind (.mapM fun _ _ => hc _) fun _ => .pure _
  · exact .bind (hc _) fun _ => .get_bind (fun _ _ _ => rfl) fun _ => .pure _
  · exact .bind (.mapM fun _ _ => hc _) fun _ => .pure _

/-- Which variables are certain to be needed is a matter of the graph. -/
theorem certainIn_steady (fuel : Nat) : Steady κ (certainIn fuel id) := by
  induction fuel generalizing id with
  | zero => exact .pure _
  | succ fuel ih =>
    refine .bind value_steady fun _ => ?_
    split
    · exact .pure _
    · exact .bind update_steady fun _ => .bind (certainStep_steady fun _ => ih) fun _ =>
        .bind update_steady fun _ => .pure _

theorem certain_steady : Steady κ (certain id) :=
  .get_bind (fun _ _ _ => rfl) fun _ => certainIn_steady _

theorem sharedBinds_steady : Steady κ (sharedBinds id w) := by
  refine .get_bind (fun s g p => ?_) fun _ =>
    .ite (fun _ => .pure _) fun _ => .bind certain_steady fun _ => .pure _
  simp only [State.bindable?_under, State.isEffortless_under]
  rfl

theorem barrierBinds_steady : Steady κ (barrierBinds w x) := by
  refine .bind freshUsed_steady fun _ => .bind certain_steady fun _ =>
    .get_bind (fun s g p => ?_) fun _ => .pure _
  simp only [State.bindable?_under, State.isEffortless_under]
  rfl

/-- Bindings are placed in the same way. -/
theorem place_steady : Steady κ (place id w) := by
  have horder : ∀ set, Steady κ (do return (← get).topoOrder set) := fun _ =>
    .get_bind (fun s g p => congrArg _ (s.topoOrderIn_under g p _ _)) fun _ => .pure _
  refine .ite (fun _ => .pure _) fun _ => .bind sharedBinds_steady fun _ => ?_
  dsimp only
  split
  · exact .bind barrierBinds_steady fun _ => horder _
  · exact .bind (.pure _) fun _ => horder _

/-- The places of bindings are found and written down in the same way. -/
theorem dominating_steady : Steady κ (dominating id) := by
  refine .bind value_steady fun _ => ?_
  split
  · exact .pure _
  · exact .bind place_steady fun _ => .bind update_steady fun _ => .pure _

/-! ## Likened terms -/

/-- Two terms that differ in messages at most, and only if one setting debugs
and the other does not. -/
structure Likened (κ : Coupling) (t t' : Term) : Prop where
  same : κ.left.debug = κ.right.debug → t = t'
  hushed : t.hushed = t'.hushed

namespace Likened

variable {t t' f f' : Term}

/-- A term is likened to itself. -/
theorem refl (t : Term) : Likened κ t t := ⟨fun _ => rfl, rfl⟩

/-- Terms that are made of two others by a construction that keeps what is
hushed. -/
theorem map₂ {make : Term → Term → Term}
    (h : ∀ {a a' b b' : Term}, a.hushed = a'.hushed → b.hushed = b'.hushed →
      (make a b).hushed = (make a' b').hushed)
    (hf : Likened κ f f') (ht : Likened κ t t') : Likened κ (make f t) (make f' t') :=
  ⟨fun hd => by rw [hf.same hd, ht.same hd], h hf.hushed ht.hushed⟩

theorem map {make : Term → Term}
    (h : ∀ {a a' : Term}, a.hushed = a'.hushed → (make a).hushed = (make a').hushed)
    (ht : Likened κ t t') : Likened κ (make t) (make t') :=
  map₂ (fun _ => h) ht ht

theorem lam (x : String) (ht : Likened κ t t') : Likened κ (.lam x t) (.lam x t') :=
  ht.map fun h => by rw [Term.hushed, Term.hushed, h]

theorem delay (ht : Likened κ t t') : Likened κ (.delay t) (.delay t') :=
  ht.map fun h => by rw [Term.hushed, Term.hushed, h]

theorem force (ht : Likened κ t t') : Likened κ (.force t) (.force t') :=
  ht.map fun h => by rw [Term.hushed, Term.hushed, h]

theorem apply (hf : Likened κ f f') (ht : Likened κ t t') : Likened κ (.apply f t) (.apply f' t') :=
  hf.map₂ (fun h h' => by rw [Term.hushed, Term.hushed, h, h']) ht

/-- Likened bodies of functions with several parameters. -/
theorem lams (names : List String) (ht : Likened κ t t') :
    Likened κ (names.foldr .lam t) (names.foldr .lam t') := by
  induction names with
  | nil => exact ht
  | cons x _ ih => exact ih.lam x

/-- Likened functions applied to likened arguments. -/
theorem applyAll {ts ts' : List Term} (hf : Likened κ f f')
    (hts : List.Forall₂ (Likened κ) ts ts') : Likened κ (f.applyAll ts) (f'.applyAll ts') := by
  induction hts generalizing f f' with
  | nil => exact hf
  | cons ht _ ih => exact ih (hf.apply ht)

/-- Likened branches of a case. -/
theorem case {ts ts' : List Term} (ht : Likened κ t t')
    (hts : List.Forall₂ (Likened κ) ts ts') : Likened κ (.case t ts) (.case t' ts') := by
  have hsame : κ.left.debug = κ.right.debug → ts = ts' := fun hd =>
    List.forall₂_eq_eq_eq ▸ (hts.imp fun _ _ h => h.same hd)
  have hhushed : Term.hushedAll ts = Term.hushedAll ts' := by
    rw [Term.hushedAll_eq, Term.hushedAll_eq]
    exact List.forall₂_eq_eq_eq ▸
      (List.forall₂_map_left_iff.2 (List.forall₂_map_right_iff.2 (hts.imp fun _ _ h => h.hushed)))
  exact ⟨fun hd => by rw [ht.same hd, hsame hd],
    by rw [Term.hushed, Term.hushed, ht.hushed, hhushed]⟩

/-- Likened terms are linked alike. -/
theorem link (ht : Likened κ t t') (usesFix : Bool) :
    Likened κ (link t usesFix) (link t' usesFix) := by
  cases usesFix with
  | false => exact ht
  | true => exact (ht.lam _).apply (.refl _)

end Likened

/-! ## Emitting -/

/-- Hushing takes the message away. -/
theorem hushed_failing (debug : Bool) (message : String) :
    (failing debug message).hushed = .error := by
  unfold failing
  split <;> rfl

/-- The term of a failure depends on whether to debug. -/
theorem errorTerm_run (message : String) (s : State) :
    (errorTerm message).run s = (.ok (failing s.debug message), s) := by
  unfold errorTerm failing
  rw [run_bind_of_ok run_get]
  split <;> rfl

/-- A failure with a message is likened to one without. -/
theorem errorTerm_alike {message : String} :
    Alike κ (Likened κ) (errorTerm message) (errorTerm message) := by
  rintro _ _ ⟨s, p, q⟩
  rw [errorTerm_run, errorTerm_run]
  refine .ok ⟨fun hd => congrArg (failing · message) hd, ?_⟩ (.mk s p q)
  rw [hushed_failing, hushed_failing]

/-- A value of which emission knows as much as of another one, and which it
emits in the same way. -/
structure Value.Keeps (v w : Value) : Prop where
  node : w.node = v.node
  type : w.type = v.type
  rep : w.rep = v.rep
  span : w.span = v.span
  placed : ∀ xs, v.placed = some xs → w.placed = some xs

theorem Value.Keeps.refl (v : Value) : v.Keeps v := ⟨rfl, rfl, rfl, rfl, fun _ h => h⟩

/-- The value whose chain of definitions is followed when a node is emitted. -/
def Node.followed? : Node → Option ValueId
  | .letIn _ strict _ => strict
  | .caseOf _ false scrutinee _ _ _ => some scrutinee
  | _ => none

/-- A way to compare two emissions: what it says of two steps has to hold of
those that emission is made of, and has to go on holding when steps are put
together.  Chains of definitions are the same from values that are `Near`. -/
structure Comparison (κ : Coupling) where
  Rel {α β : Type} : (α → β → Prop) → LowerM α → LowerM β → Prop
  Near : ValueId → Prop
  pure {α β : Type} {Q : α → β → Prop} {a : α} {b : β} : Q a b → Rel Q (Pure.pure a) (Pure.pure b)
  bind {α β γ δ : Type} {P : α → β → Prop} {Q : γ → δ → Prop} {m : LowerM α} {m' : LowerM β}
    {next : α → LowerM γ} {next' : β → LowerM δ} : Rel P m m' →
    (∀ a b, P a b → Rel Q (next a) (next' b)) → Rel Q (m >>= next) (m' >>= next')
  value {id : ValueId} : Rel (fun v w => v.Keeps w ∧ ∀ x ∈ v.node.followed?, Near x)
    (Graph.value id) (Graph.value id)
  count {f : State → State} : (∀ s g p, f (s.under g p) = (f s).under g p) →
    (∀ s, SameGraph s (f s) ∧ (f s).values = s.values) → Rel Eq (modify f) (modify f)
  point {name detail : String} : Rel Eq (Graph.point name detail) (Graph.point name detail)
  fail {α β : Type} {Q : α → β → Prop} {cause : Cause} {span : Span} {types : List Ty}
    {reps : List Rep} : cause.breaksOff = false →
    Rel Q (Graph.fail cause span types reps) (Graph.fail cause span types reps)
  error {message : String} : Rel (Likened κ) (errorTerm message) (errorTerm message)
  root (bound : Bound) {x : ValueId} : Near x → Rel (fun s s' =>
    s'.strictRoot bound (s'.size + 1) x = s.strictRoot bound (s.size + 1) x) get get
  place {id : ValueId} : Rel Eq (dominating id) (dominating id)

namespace Comparison

variable (C : Comparison κ) {emit emit' : Emitter} {bound : Bound} {α β γ : Type}
  {P : α → β → Prop} {m n : LowerM α} {m' n' : LowerM β}

/-- A choice that both sides make alike. -/
theorem ite {p : Prop} [Decidable p] (hm : p → C.Rel P m m') (hn : ¬p → C.Rel P n n') :
    C.Rel P (if p then m else n) (if p then m' else n') := by
  split
  · exact hm ‹p›
  · exact hn ‹¬p›

/-- One step for each item of a list. -/
theorem mapM {f : γ → LowerM α} {f' : γ → LowerM β} (xs : List γ) (h : ∀ a, C.Rel P (f a) (f' a)) :
    C.Rel (List.Forall₂ P) (xs.mapM f) (xs.mapM f') := by
  induction xs with
  | nil => exact C.pure .nil
  | cons a xs ih =>
    rw [List.mapM_cons, List.mapM_cons]
    exact C.bind (h a) fun _ _ hb => C.bind ih fun _ _ hbs => C.pure (.cons hb hbs)

variable (he : ∀ bound id, C.Rel (Likened κ) (emit bound id) (emit' bound id))
include he

/-- The definitions bound around likened terms are likened, and so are the
whole terms. -/
theorem emitBinds {kind : String} {xs : List ValueId} :
    C.Rel (fun p p' => p.2 = p'.2 ∧
        ∀ t t', Likened κ t t' → Likened κ (wrapBinds p.1 t) (wrapBinds p'.1 t'))
      (Graph.emitBinds emit kind id xs bound) (Graph.emitBinds emit' kind id xs bound) := by
  induction xs generalizing bound with
  | nil => exact C.pure ⟨rfl, fun _ _ ht => ht⟩
  | cons x xs ih =>
    refine C.ite (fun _ => ih) fun _ => C.bind C.value fun v w hw => ?_
    simp only [hw.1.node]
    split
    · exact C.fail rfl
    · refine C.bind (he _ _) fun d d' hd => C.bind (C.count (fun _ _ _ => rfl) fun _ => ⟨rfl, rfl⟩)
        fun _ _ _ => C.bind C.point fun _ _ _ => C.bind ih fun p p' hp => C.pure ⟨hp.1, ?_⟩
      exact fun t t' ht => ((hp.2 t t' ht).lam v.node.name).apply hd

/-- Variables that are bound have one name, others are emitted in their place.
-/
theorem emitVar {v : Value} (hw : v.Keeps w) :
    C.Rel (Likened κ) (Graph.emitVar emit bound id v) (Graph.emitVar emit' bound id w) := by
  unfold Graph.emitVar
  rw [hw.node, hw.span, hw.type, hw.rep]
  refine C.ite (fun _ => C.pure (.refl _)) fun _ => ?_
  split
  · exact C.bind (C.count (fun _ _ _ => rfl) fun _ => ⟨rfl, rfl⟩) fun _ _ _ => he _ _
  · exact C.fail rfl

/-- A body under its parameters. -/
theorem underBinders {binders : List ValueId} :
    C.Rel (Likened κ) (Graph.underBinders emit bound binders id)
      (Graph.underBinders emit' bound binders id) := by
  refine C.bind (he _ _) fun t t' ht => C.bind (C.mapM (P := Eq) binders fun b => ?_) ?_
  · exact C.bind C.value fun v w hw => C.pure (by rw [hw.1.node])
  · intro names names' h
    rw [List.forall₂_eq_eq_eq] at h
    exact h ▸ C.pure (ht.lams names)

/-- A value that is computed first, unless it is bound already. -/
theorem strictly (hx : C.Near x) :
    C.Rel (Likened κ) (Graph.strictly emit bound x id) (Graph.strictly emit' bound x id) := by
  refine C.bind (C.root bound hx) fun s s' hs => ?_
  rw [hs]
  split
  · exact he _ _
  · refine C.bind C.value fun v w hw => C.bind (he _ _) fun _ _ hd => C.bind (he _ _) fun _ _ ht =>
      C.bind (C.count (fun _ _ _ => rfl) fun _ => ⟨rfl, rfl⟩) fun _ _ _ => C.pure ?_
    rw [hw.1.node]
    exact (ht.lam v.node.name).apply hd

/-- A choice by a builtin, with delayed branches. -/
theorem emitChoice {f : Builtin} :
    C.Rel (Likened κ) (Graph.emitChoice emit bound f x branches)
      (Graph.emitChoice emit' bound f x branches) := by
  refine C.bind (he _ _) fun _ _ hs =>
    C.bind (C.mapM (P := Likened κ) branches fun _ => ?_) fun _ _ hts => ?_
  · exact C.bind (he _ _) fun _ _ ht => C.pure ht.delay
  · exact C.pure ((Likened.refl _).applyAll (.cons hs hts)).force

/-- A case that is made by tests. -/
theorem emitEmulated {shape : Shape} (hx : C.Near x) :
    C.Rel (Likened κ) (Graph.emitEmulated emit bound span shape x branches)
      (Graph.emitEmulated emit' bound span shape x branches) := by
  unfold Graph.emitEmulated
  split
  · exact C.emitChoice he
  · exact C.emitChoice he
  · exact C.emitChoice he
  · exact C.strictly he hx
  · exact C.emitChoice he
  · exact C.fail rfl

/-- The branches of a case, one after the other. -/
theorem emitBranches {binders : List (List ValueId)} :
    C.Rel (List.Forall₂ (Likened κ)) (Graph.emitBranches emit bound branches binders)
      (Graph.emitBranches emit' bound branches binders) := by
  induction branches generalizing binders with
  | nil => exact C.pure .nil
  | cons b rest ih =>
    exact C.bind (C.underBinders he) fun _ _ ht => C.bind ih fun _ _ hts => C.pure (.cons ht hts)

/-- Every kind of node is emitted alike. -/
theorem emitNode {v : Value} (hw : v.Keeps w) (hn : ∀ x ∈ v.node.followed?, C.Near x) :
    C.Rel (Likened κ) (Graph.emitNode emit bound v) (Graph.emitNode emit' bound w) := by
  unfold Graph.emitNode
  rw [hw.node, hw.span]
  split <;> rename_i hnode <;> rw [hnode] at hn
  · exact C.pure (.refl _)
  · exact C.pure (.refl _)
  · exact C.error
  · exact C.error
  · exact C.bind (he _ _) fun _ _ ht => C.pure ht.delay
  · exact C.underBinders he
  · exact C.bind (he _ _) fun _ _ hf => C.bind (he _ _) fun _ _ ha => C.pure (hf.apply ha)
  · exact C.strictly he (hn _ rfl)
  · exact he _ _
  · exact C.bind (C.count (fun _ _ _ => rfl) fun _ => ⟨rfl, rfl⟩) fun _ _ _ =>
      C.bind (C.underBinders he) fun _ _ ht => C.pure ((Likened.refl _).apply ht)
  · exact C.bind (C.emitBranches he) fun _ _ hts => C.bind (he _ _) fun _ _ ht =>
      C.pure (ht.case hts)
  · exact C.emitEmulated he (hn _ rfl)
  · exact C.bind (C.mapM _ fun _ => he _ _) fun _ _ hts =>
      C.pure ((Likened.refl _).applyAll hts)
  · exact C.bind (he _ _) fun _ _ ht => C.pure ht.delay
  · refine C.bind C.value fun v w hw => ?_
    rw [hw.1.node]
    split
    · exact he _ _
    · exact C.bind (he _ _) fun _ _ ht => C.pure ht.force
  · exact he _ _
  · exact C.pure (.refl _)
  · exact C.pure (.refl _)

/-- **One step of emission.** -/
theorem emitStep : C.Rel (Likened κ) (Graph.emitStep dominating emit bound id)
    (Graph.emitStep dominating emit' bound id) := by
  refine C.bind C.value fun v w hw => ?_
  rw [hw.1.node]
  refine C.ite (fun _ => C.emitVar he hw.1) fun _ => C.bind C.place fun here _ heq => ?_
  subst heq
  refine C.bind (C.emitBinds he) fun p p' hp => ?_
  obtain ⟨binds, inside⟩ := p
  obtain ⟨binds', inside'⟩ := p'
  obtain ⟨rfl, hp⟩ := hp
  exact C.bind (C.emitNode he hw.1 hw.2) fun t t' ht => C.pure (hp t t' ht)

end Comparison

/-- Emissions in two settings. -/
def Alike.comparison (κ : Coupling) : Comparison κ where
  Rel := Alike κ
  Near _ := True
  pure := .pure
  bind := .bind
  value s s' hs := (value_steady s s' hs).mono fun v _ h => h ▸ ⟨.refl v, fun _ _ => trivial⟩
  count hf _ := Steady.change fun s g p => congrArg ((), ·) (hf s g p)
  point := point_steady
  fail h := fail_alike_of fun _ => h
  error := errorTerm_alike
  root _ _ _ := by
    rintro _ _ ⟨s, p, q⟩
    refine .ok ?_ (.mk s p q)
    exact (s.strictRoot_under _ q _ _ _).trans (s.strictRoot_under _ p _ _ _).symm
  place := dominating_steady

/-- Emission to any depth, by induction on the depth. -/
theorem emitIn_alike (fuel : Nat) (bound : Bound) (id : ValueId) :
    Alike κ (Likened κ) (emitIn dominating fuel bound id) (emitIn dominating fuel bound id) := by
  induction fuel generalizing bound id with
  | zero => exact fail_alike_of fun _ => rfl
  | succ fuel ih => exact (Alike.comparison κ).emitStep ih

/-- **Emission in two settings** gives likened terms. -/
theorem emit_alike : Alike κ (Likened κ) (emit id) (emit id) :=
  fun s s' hs => .reporting <| Alike.get_bind (fun _ _ _ => rfl) (fun _ _ _ => rfl)
    (fun _ => emitIn_alike _ _ _) s s' hs

/-! ## Units -/

/-- Two results that differ in messages at most. -/
structure Result.Likened (κ : Coupling) (r r' : Result) : Prop where
  term : Graph.Likened κ r.term r'.term
  unlinked : Graph.Likened κ r.unlinked r'.unlinked
  usesFix : r.usesFix = r'.usesFix
  type : r.type = r'.type
  rep : r.rep = r'.rep

/-- Where both settings debug or neither does, results are the same. -/
theorem Result.Likened.eq {r r' : Result} (h : r.Likened κ r')
    (hd : κ.left.debug = κ.right.debug) : r = r' := by
  obtain ⟨_, _, _, _, _⟩ := r
  obtain ⟨_, _, _, _, _⟩ := r'
  simp only [Result.mk.injEq]
  exact ⟨h.term.same hd, h.unlinked.same hd, h.usesFix, h.type, h.rep⟩

/-- **Lowering the root of a unit in two settings.** -/
theorem run_alike [κ.SameDecls] (root : Expr) {s s' : State} (hi : Inv s) (hs : Kin κ s s') :
    Meets κ (Result.Likened κ) ((run root).run s) ((run root).run s') := by
  refine ((build_kept root).steady hi hs).bind fun id _ t t' _ hid ht => ?_
  subst hid
  refine Alike.bind emit_alike (fun _ _ hterm => value_steady.bindAlike fun _ => ?_) t t' ht
  exact .get_bind (fun _ _ _ => rfl) (fun _ _ _ => rfl) fun s =>
    .pure ⟨hterm.link s.usesFix, hterm, rfl, rfl, rfl⟩

end CoreLowering.Graph
