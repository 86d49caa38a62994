import CoreLowering.Proofs.FirstOrder.Meaning
import CoreLowering.Proofs.Graph.Placing

/-!
# Graphs of expressions of first order

`Means g id o` reads a value of the graph by name, as `meaning` reads an
expression.  Lowering an expression of first order always succeeds, and the
value comes to what the expression comes to.

Main statement: `build_means`.
-/

namespace CoreLowering.FirstOrder

open CoreLowering.Graph

variable {α β : Type} {g s s' s'' : State} {id i : Nat} {o : Outcome} {name : String} {span : Span}
  {type : Ty} {rep : Rep} {o' : Outcome} {v : Value} {w : Version} {bs : List Binding}
  {span' : Span} {R : β → State → Prop} {t goal : Ty} {lower : Lowerer} {e : Expr} {es : List Expr}
  {ps : List Ty} {Γ Δ : List (String × Ty)} {env : List (String × Outcome)}

/-! ## The meaning of values -/

/-- The values that a node is read from. -/
def parts (n : Node) : List Nat := n.rhs?.toList ++ n.subs

/-- What a node of first order comes to, given what its parts come to. -/
def outcome? (os : Nat → Outcome) : Node → Option Outcome
  | .const c => some (some c)
  | .error _ => some none
  | .var _ (some rhs) => some (os rhs)
  | .letIn _ none body => some (os body)
  | .reinterpret x => some (os x)
  | .caseOf .bool _ c [no, yes] _ _ => some (choose (os c) (os yes) (os no))
  | .builtin f args => some (call f (args.map os))
  | _ => none

/-- The node is one that the version can evaluate. -/
def Proper (w : Version) (os : Nat → Outcome) : Node → Prop
  | .caseOf _ native c _ _ binders =>
    (native = true → w.hasBuiltinCase = true) ∧ binders.flatten = [] ∧ Has .boolean (os c)
  | .builtin f args => onPrimitives f = true ∧ args.length = (Signature.parts f).1.length
  | _ => True

/-- What a value comes to, read by name. -/
inductive Means (g : State) : Nat → Outcome → Prop where
  | mk {id : Nat} {n : Node} {r : Nat → Outcome} {o : Outcome} : g.node? id = some n →
      (∀ x ∈ parts n, x < id) → (∀ x ∈ parts n, Means g x (r x)) → Proper g.target r n →
      outcome? r n = some o → Means g id o

theorem outcome?_congr {os os' : Nat → Outcome} {n : Node} (h : ∀ x ∈ parts n, os x = os' x) :
    outcome? os n = outcome? os' n := by
  unfold outcome?
  split
  case h_7 f args => rw [List.map_congr_left (l := args) h]
  all_goals simp_all [parts, Node.rhs?, Node.subs]

/-- A value comes to one outcome only. -/
theorem Means.unique (h : Means g id o) (h' : Means g id o') : o = o' := by
  induction h generalizing o' with
  | mk hn _ _ _ ho ih =>
    obtain ⟨hn', _, hm', _, ho'⟩ := h'
    rw [hn] at hn'
    cases hn'
    have hos := outcome?_congr fun x hx => ih x hx (hm' x hx)
    rw [hos, ho'] at ho
    exact (Option.some.inj ho).symm

open Classical in
/-- What a value comes to, if it comes to anything. -/
noncomputable def outcomeOf (g : State) (id : Nat) : Outcome :=
  if h : ∃ o, Means g id o then h.choose else none

theorem Means.outcomeOf (h : Means g id o) : outcomeOf g id = o := by
  have hex : ∃ o, Means g id o := ⟨o, h⟩
  rw [FirstOrder.outcomeOf, dif_pos hex]
  exact hex.choose_spec.unique h

/-- Values that come to outcomes come to those that are read off the graph. -/
theorem means_outcomeOf {ids : List Nat} {os : List Outcome} (h : List.Forall₂ (Means g) ids os) :
    (∀ x ∈ ids, Means g x (outcomeOf g x)) ∧ ids.map (outcomeOf g) = os := by
  induction h with
  | nil => simp
  | cons h _ ih =>
    rw [List.forall_mem_cons, List.map_cons, h.outcomeOf, ih.2]
    exact ⟨⟨h, ih.1⟩, rfl⟩

/-! ## Growing graphs -/

/-- The graph has grown, and what was there is what it was, counts of
references apart.  No views of variables and no helpers have been made. -/
structure Extends (s s' : State) : Prop where
  target : s'.target = s.target
  decls : s'.decls = s.decls
  views : s'.views = s.views
  helpers : s'.helpers = s.helpers
  size : s.size ≤ s'.size
  value : ∀ i v, s.value? i = some v → ∃ w, s'.value? i = some w ∧ w.core = v.core

theorem Extends.refl : Extends s s :=
  ⟨rfl, rfl, rfl, rfl, Nat.le_refl _, fun _ v hv => ⟨v, hv, rfl⟩⟩

theorem Extends.trans (h : Extends s s') (h' : Extends s' s'') : Extends s s'' where
  target := h'.target.trans h.target
  decls := h'.decls.trans h.decls
  views := h'.views.trans h.views
  helpers := h'.helpers.trans h.helpers
  size := Nat.le_trans h.size h'.size
  value := by
    intro i v hv
    obtain ⟨w, hw, hwv⟩ := h.value i v hv
    obtain ⟨x, hx, hxw⟩ := h'.value i w hw
    exact ⟨x, hx, hxw.trans hwv⟩

theorem node_of_core {w : Value} (h : v.core = w.core) : v.node = w.node := by
  have : v.core.node = w.core.node := by rw [h]
  exact this

/-- The nodes that were there are there. -/
theorem Extends.node? (h : Extends s s') {n : Node} (hn : s.node? i = some n) :
    s'.node? i = some n := by
  obtain ⟨v, hv, rfl⟩ := value_of_node? hn
  obtain ⟨w, hw, hwv⟩ := h.value i v hv
  rw [node?_of_value hw, node_of_core hwv]

/-- What a value comes to depends on the nodes and the target only. -/
theorem Means.keep (h : Means s id o) (ht : s'.target = s.target)
    (hs : ∀ i n, s.node? i = some n → s'.node? i = some n) : Means s' id o := by
  induction h with
  | mk hn hlt _ hproper ho ih => exact .mk (hs _ _ hn) hlt ih (ht ▸ hproper) ho

/-- What a value comes to does not change. -/
theorem Means.extend (h : Means s id o) (hs : Extends s s') : Means s' id o :=
  h.keep hs.target fun _ _ => hs.node?

/-- A value that comes to something is in the graph. -/
theorem Means.valid (h : Means s id o) : Valid s id := by
  obtain ⟨hn, -⟩ := h
  exact valid_of_node? hn

/-- The layouts of first order: that of a constant, and that of what comes to
nothing. -/
def Laid (o : Outcome) (rep : Rep) : Prop := rep = .constant ∨ rep = .error ∧ o = none

/-- A value in one of the layouts of first order. -/
structure Lowered (s : State) (id : Nat) (t : Ty) (o : Outcome) : Prop where
  means : Means s id o
  value : ∃ v, s.value? id = some v ∧ v.type = t ∧ Laid o v.rep

theorem Lowered.extend (h : Lowered s id t o) (hs : Extends s s') : Lowered s' id t o := by
  obtain ⟨hm, v, hv, rfl, hr⟩ := h
  obtain ⟨w, hw, hwv⟩ := hs.value id v hv
  have htype : w.core.type = v.core.type := by rw [hwv]
  have hrep : w.core.rep = v.core.rep := by rw [hwv]
  refine ⟨hm.extend hs, w, hw, htype, ?_⟩
  rwa [show w.rep = v.rep from hrep]

/-! ## Steps that succeed -/

/-- The step succeeds; it extends the graph and leaves the names in scope as
they are. -/
def Lands (m : LowerM α) (s : State) (post : α → State → Prop) : Prop :=
  ∃ a s', m.run s = (.ok a, s') ∧ Extends s s' ∧ s'.scope = s.scope ∧ post a s'

namespace Lands

variable {m : LowerM α} {P Q : α → State → Prop} {a : α} {f : α → LowerM β}

theorem mono (h : Lands m s P) (hpq : ∀ a s', Extends s s' → P a s' → Q a s') : Lands m s Q := by
  obtain ⟨a, s', hr, he, hs, hp⟩ := h
  exact ⟨a, s', hr, he, hs, hpq a s' he hp⟩

theorem pure (h : P a s) : Lands (Pure.pure a) s P :=
  ⟨a, s, run_pure a, .refl, rfl, h⟩

theorem bind (h : Lands m s P)
    (hf : ∀ a s', Extends s s' → s'.scope = s.scope → P a s' → Lands (f a) s' R) :
    Lands (m >>= f) s R := by
  obtain ⟨a, s1, hr, he, hs, hp⟩ := h
  obtain ⟨b, s2, hr', he', hs', hq⟩ := hf a s1 he hs hp
  exact ⟨b, s2, (run_bind_of_ok hr).trans hr', he.trans he', hs'.trans hs, hq⟩

/-- Looking something up before a step. -/
theorem read (h : m.run s = (.ok a, s)) (hf : Lands (f a) s R) : Lands (m >>= f) s R := by
  obtain ⟨b, s', hr, hrest⟩ := hf
  exact ⟨b, s', (run_bind_of_ok h).trans hr, hrest⟩

end Lands

/-- Adding a value extends the graph. -/
theorem Extends.of_adds (h : Adds s s' v) : Extends s s' where
  target := h.target
  decls := h.decls
  views := h.views
  helpers := h.helpers
  size := by rw [h.size]; exact Nat.le_succ _
  value := by
    intro i w hw
    have hi := h.value? i
    rw [if_neg, hw, Option.map_some] at hi
    · exact Option.map_eq_some_iff.1 hi
    · have := (valid_of_value hw).2
      omega

/-- A state with the same graph and scopes is an extension. -/
theorem Extends.of_quiet (h : s'.quiet = s.quiet) : Extends s s' := by
  obtain ⟨hv, hr⟩ := quiet_eq h
  refine ⟨hr.target, hr.decls, hr.views, hr.helpers,
    Nat.le_of_eq (by rw [State.size, State.size, hv]), ?_⟩
  intro i v hi
  exact ⟨v, by cases i <;> simp_all [State.value?], rfl⟩

theorem point_lands {detail : String} : Lands (point name detail) s fun _ _ => True := by
  obtain ⟨s', hr, hq⟩ := point_run s name detail
  exact ⟨(), s', hr, .of_quiet hq, (quiet_eq hq).2.scope, trivial⟩

theorem warn_lands {code : Code} {message : String} :
    Lands (warn code span message) s fun _ _ => True := by
  have hmodify : ∀ {s} (f : State → State), (f s).quiet = s.quiet →
      Lands (modify f) s fun _ _ => True := by
    intro s f hq
    exact ⟨(), f s, rfl, .of_quiet hq, (quiet_eq hq).2.scope, trivial⟩
  refine .bind (hmodify _ rfl) fun _ _ _ _ _ => .bind point_lands fun _ _ _ _ _ => ?_
  exact hmodify _ rfl

/-- What a node uses does not depend on the node itself. -/
theorem usedBy_push (n : Node) (type : Ty) (rep : Rep) (span : Span) :
    (s.push (.new n type rep span)).usedBy n = s.usedBy n := by
  have hused : (s.push (.new n type rep span)).usedOf = s.usedOf := by
    funext i
    by_cases hi : i = s.size + 1
    · rw [State.usedOf, State.usedOf, value?_push, if_pos hi,
        value?_of_size_lt (hi ▸ Nat.lt_succ_self _)]
      rfl
    · rw [State.usedOf, State.usedOf, value?_push, if_neg hi]
  simp only [State.usedBy, State.outside, State.dependsFrom, hused]

/-- A node is added. -/
theorem newNode_lands {n : Node} (h : ∀ i ∈ n.subs, Valid s i) :
    Lands (newNode n type rep span) s fun id s' => (id = s.size + 1 ∧ s'.size = id) ∧
      ∃ v, s'.value? id = some v ∧ v.node = n ∧ v.type = type ∧ v.rep = rep ∧
        v.used = s.usedBy n := by
  obtain ⟨s', hr, -⟩ := newNode_run type rep span h
  have ha := newNode_adds type rep span h
  rw [hr] at ha
  obtain ⟨v, hv, hcore⟩ := ha.exists_value
  refine ⟨_, s', hr, .of_adds ha, ha.scope, ⟨rfl, ha.size⟩, v, hv, ?_⟩
  simp only [Value.core, State.summed, usedBy_push, Value.mk.injEq] at hcore
  exact ⟨hcore.1, hcore.2.1, hcore.2.2.1, hcore.2.2.2.2.1⟩

/-- A node of first order is added. -/
theorem newNode_lowered {n : Node} {r : Nat → Outcome} (hrhs : n.rhs? = none)
    (hparts : ∀ x ∈ n.subs, Means s x (r x)) (hproper : Proper s.target r n)
    (ho : outcome? r n = some o) (hrep : Laid o rep) :
    Lands (newNode n type rep span) s fun id s' => Lowered s' id type o := by
  refine (newNode_lands fun i hi => (hparts i hi).valid).mono ?_
  rintro id s' he ⟨⟨rfl, -⟩, v, hv, hn, ht, hr, -⟩
  have hsubs : parts n = n.subs := by rw [parts, hrhs]; rfl
  refine ⟨.mk (n := n) (r := r) (by rw [node?_of_value hv, hn]) ?_ ?_ ?_ ho, v, hv, ht,
    hr ▸ hrep⟩
  · rw [hsubs]
    exact fun x hx => Nat.lt_succ_of_le (hparts x hx).valid.2
  · rw [hsubs]
    exact fun x hx => (hparts x hx).extend he
  · rwa [he.target]

/-- A constant comes to itself. -/
theorem constValue_lowered {c : Constant} :
    Lands (constValue c type span) s fun id s' => Lowered s' id type (some c) :=
  newNode_lowered (r := fun _ => none) rfl (by simp [Node.subs]) trivial rfl (.inl rfl)

/-- A failure comes to nothing. -/
theorem errorValue_lowered {message : String} :
    Lands (errorValue message type span) s fun id s' => Lowered s' id type none :=
  newNode_lowered (r := fun _ => none) rfl (by simp [Node.subs]) trivial rfl
    (.inr ⟨rfl, rfl⟩)

/-- A step for each item of a list, without results. -/
theorem Lands.forM {f : α → LowerM Unit} {xs : List α}
    (h : ∀ x ∈ xs, ∀ s', Extends s s' → Lands (f x) s' fun _ _ => True) :
    Lands (xs.forM f) s fun _ _ => True := by
  induction xs generalizing s with
  | nil => exact .pure trivial
  | cons x xs ih =>
    refine Lands.bind (f := fun _ => xs.forM f) (h x (by simp) s .refl) ?_
    intro _ s1 e1 _ _
    exact ih fun y hy s' e => h y (by simp [hy]) s' (e1.trans e)

/-! ## Types and layouts -/

/-- What a view shows comes to the same as the view. -/
theorem Means.inner (h : Means s id o) {x : Nat} (hn : s.node? id = some (.reinterpret x)) :
    Means s x o := by
  obtain ⟨hn', -, hm, -, ho⟩ := h
  rw [hn] at hn'
  cases hn'
  cases ho
  exact hm x (by simp [parts, Node.rhs?, Node.subs])

/-- A view of a value comes to what the value does. -/
theorem reinterpret_lowered (h : Lowered s id t o) (hrep : Laid o rep) :
    Lands (Graph.reinterpret id t rep) s fun id' s' => Lowered s' id' t o := by
  obtain ⟨hm, v, hv, rfl, hr⟩ := h
  refine .read (value_run hv) ?_
  extract_lets type inner
  have htype : type = v.type := by
    simp only [type]
    split <;> rfl
  split
  · exact .pure ⟨hm, v, hv, rfl, hr⟩
  · have hinner : ∀ x ∈ (Node.reinterpret inner).subs, Means s x o := ?_
    · exact (newNode_lowered (n := .reinterpret inner) rfl hinner trivial rfl hrep).mono
        fun _ _ _ h => htype ▸ h
    simp only [Node.subs, List.mem_singleton, forall_eq, inner]
    split
    · rename_i x hx
      exact hm.inner (by rw [node?_of_value hv, hx])
    · exact hm

/-- Layouts of first order fit each other. -/
theorem compatible_simple (ds : Decls) (t : Ty) {a b : Rep} (ha : Laid o a) (hb : Laid o' b) :
    ds.compatible t a b = true := by
  have : ds.alwaysCompatible t a b = true := by
    rcases ha with rfl | ⟨rfl, -⟩ <;> rcases hb with rfl | ⟨rfl, -⟩ <;>
      simp [Decls.alwaysCompatible]
  rw [Decls.compatible.eq_def, this, Bool.true_or]

/-- Another layout of a value comes to what the value does. -/
theorem toRep_lowered (h : Lowered s id t o) (hrep : Laid o rep) :
    Lands (toRep id rep) s fun id' s' => Lowered s' id' t o := by
  obtain ⟨v, hv, ht, hr⟩ := h.value
  refine .read (value_run hv) ?_
  obtain ⟨fuel, hfuel⟩ : ∃ n, conversionFuel v rep = n + 1 :=
    Nat.exists_eq_succ_of_ne_zero (by unfold conversionFuel; omega)
  rw [hfuel, toRepIn]
  refine .read (value_run hv) ?_
  split
  · exact .pure h
  · refine .read decls_run ?_
    rw [if_pos (compatible_simple _ _ hr hrep), ht]
    exact reinterpret_lowered h hrep

/-- The primitive types. -/
theorem primitive_cases (h : primitive t = true) :
    t = .integer ∨ t = .byteString ∨ t = .string ∨ t = .boolean ∨ t = .unit := by
  unfold primitive at h
  split at h
  · exact .inl rfl
  · exact .inr (.inl rfl)
  · exact .inr (.inr (.inl rfl))
  · exact .inr (.inr (.inr (.inl rfl)))
  · exact .inr (.inr (.inr (.inr rfl)))
  · cases h

theorem simple_cases (h : simple t = true) : primitive t = true ∨ t = .nothing := by
  unfold simple at h
  split at h
  · exact .inr rfl
  · exact .inl h

theorem same_of_simple (h : simple t = true) : t.same t = true := by
  obtain h | rfl := simple_cases h
  · obtain rfl | rfl | rfl | rfl | rfl := primitive_cases h <;> rfl
  · rfl

theorem ne_missing_of_simple (h : simple t = true) : t ≠ .missing := by
  rintro rfl
  cases h

/-- What comes to nothing fits every type of first order. -/
theorem fits_nothing (h : simple t = true) : fits .nothing t = true := by
  obtain h | rfl := simple_cases h
  · obtain rfl | rfl | rfl | rfl | rfl := primitive_cases h <;>
      simp [fits, Ty.unify, Ty.unifyIn, Ty.nothing, Ty.integer, Ty.byteString, Ty.string,
        Ty.boolean, Ty.unit, Ty.unwrap, Subst.resolve, Subst.resolveIn, Subst.empty]
  · simp [fits, Ty.unify, Ty.unifyIn, Ty.nothing, Ty.unwrap, Subst.resolve,
      Subst.resolveIn, Subst.empty]

/-- A wider type does not change what a value comes to. -/
theorem upcast_lowered (h : Lowered s id t o) (hfit : Fits t goal) (hgoal : simple goal = true) :
    Lands (upcast id goal span) s fun id' s' => Lowered s' id' t o := by
  obtain ⟨v, hv, ht, -⟩ := h.value
  have hv' : v.type.same goal = true ∨ fits v.type goal = true := by
    rw [ht]
    rcases hfit with rfl | rfl
    · exact .inl (same_of_simple hgoal)
    · exact .inr (fits_nothing hgoal)
  refine .read (value_run hv) ?_
  split
  · exact .pure h
  · exact .pure h
  · rw [if_pos (by simpa using hv')]
    exact .pure h

/-! ## Choices -/

/-- A case on a truth value begins without bindings. -/
theorem beginCase_lands {c : Nat} :
    Lands (beginCase .bool c span) s fun opened _ =>
      opened = ⟨.bool, isNative s.target, c, [], [[], []], span⟩ := by
  refine .read target_run ?_
  have hbool : (isNative s.target || decide (Shape.bool = .bool) ||
      decide (Shape.bool = .unit)) = true := by simp
  rw [if_pos hbool]
  refine .read (run_pure _) (.bind point_lands fun _ _ _ _ _ => .pure rfl)

/-- A choice comes to the branch that is chosen. -/
theorem ifThenElse_lowered {c yes no : Nat} {oc oy on : Outcome} (hc : Means s c oc)
    (hy : Means s yes oy) (hn : Means s no on) (hb : Has .boolean oc)
    (hrep : Laid (choose oc oy on) rep) :
    Lands (Graph.ifThenElse c yes no type rep span) s fun id s' =>
      Lowered s' id type (choose oc oy on) := by
  refine .bind beginCase_lands ?_
  rintro _ s1 he - rfl
  have hc1 := hc.extend he
  have hy1 := hy.extend he
  have hn1 := hn.extend he
  have hnode : ∀ native binders, (native = true → s1.target.hasBuiltinCase = true) →
      List.flatten binders = [] →
      Lands (newNode (.caseOf .bool native c [no, yes] [] binders) type rep span) s1
        fun id s' => Lowered s' id type (choose oc oy on) := by
    intro native binders hnative hbinders
    refine newNode_lowered (r := outcomeOf s1) rfl ?_ ⟨hnative, hbinders, ?_⟩ ?_ hrep
    · simp only [Node.subs, List.mem_cons, List.not_mem_nil, or_false]
      rintro x (rfl | rfl | rfl)
      · rwa [hc1.outcomeOf]
      · rwa [hn1.outcomeOf]
      · rwa [hy1.outcomeOf]
    · rwa [hc1.outcomeOf]
    · rw [outcome?, hc1.outcomeOf, hn1.outcomeOf, hy1.outcomeOf]
  refine .read (a := [no, yes]) rfl ?_
  split
  · rename_i h
    refine hnode true _ (fun _ => ?_) rfl
    rw [he.target]
    exact h
  · exact hnode false _ (by simp) rfl

/-- How a part of an expression is lowered: to a value that comes to the
same. -/
def LowersTo (lower : Lowerer) (e : Expr) (t : Ty) (o : Outcome) (s : State) : Prop :=
  ∀ s', Extends s s' → s'.scope = s.scope →
    Lands (lower e) s' fun id s'' => Lowered s'' id t o

theorem LowersTo.extend (h : LowersTo lower e t o s) (he : Extends s s') (hs : s'.scope = s.scope) :
    LowersTo lower e t o s' :=
  fun s'' he' hs' => h s'' (he.trans he') (hs'.trans hs)

/-- A condition comes to what it is lowered from. -/
theorem lowerBool_lowered (h : LowersTo lower e t o s) (hfit : Fits t .boolean) :
    Lands (lowerBool lower e) s fun id s' => Means s' id o := by
  refine .bind (h s .refl rfl) fun x s1 _ _ hx => ?_
  refine .bind (upcast_lowered hx hfit rfl) fun y s2 _ _ hy => ?_
  exact (toRep_lowered hy (.inl rfl)).mono fun _ _ _ h => h.means

theorem join_self (h : simple t = true) : t.join t = some t := by
  obtain h | rfl := simple_cases h
  · obtain rfl | rfl | rfl | rfl | rfl := primitive_cases h <;>
      simp [Ty.join, Ty.unify, Ty.unifyFuel, unreachableDepth, Ty.unifyIn, Ty.unifyAll, Ty.integer,
        Ty.byteString, Ty.string, Ty.boolean, Ty.unit, Ty.unwrap, Ty.isNothing, Ty.size, Ty.sizeAll,
        Subst.resolve, Subst.resolveIn, Subst.empty, Subst.apply, Subst.applyAll]
  · rfl

theorem join_nothing_left (t : Ty) : Ty.nothing.join t = some t := rfl

theorem join_nothing_right (h : simple t = true) : t.join .nothing = some t := by
  obtain h | rfl := simple_cases h
  · obtain rfl | rfl | rfl | rfl | rfl := primitive_cases h <;> rfl
  · rfl

/-- Types that fit one type have a join that fits it. -/
theorem exists_join {u : Ty} (ht : Fits t goal) (hu : Fits u goal) (hg : simple goal = true) :
    ∃ r, t.join u = some r ∧ Fits r goal := by
  rcases ht with rfl | rfl
  · rcases hu with rfl | rfl
    · exact ⟨_, join_self hg, .inl rfl⟩
    · exact ⟨_, join_nothing_right hg, .inl rfl⟩
  · exact ⟨u, join_nothing_left u, hu⟩

/-- The type of an expression is written at its root. -/
theorem Typed.type_eq (h : Typed Γ e t) : e.type = t := by
  cases h <;> rfl

theorem simple_of_primitive (h : primitive t = true) : simple t = true := by
  obtain rfl | rfl | rfl | rfl | rfl := primitive_cases h <;> rfl

theorem simple_of_primitive? {c : Constant} (h : primitive? c = some t) : simple t = true := by
  cases c <;> cases h <;> rfl

theorem Fits.ne_missing (h : Fits t goal) (hg : simple goal = true) : t ≠ .missing := by
  rcases h with rfl | rfl
  · exact ne_missing_of_simple hg
  · nofun

/-- Two branches that fit a type are of that type together. -/
theorem joinArms_run (kind : String) {u : Ty} (span : Span) {a b : Expr} (ha : a.type = t)
    (hb : b.type = u) (ht : Fits t goal) (hu : Fits u goal) (hg : simple goal = true) :
    (joinArms kind goal span [a, b]).run s = (.ok goal, s) := by
  obtain ⟨r, hr, hfit⟩ := exists_join ht hu hg
  obtain ⟨r', hr', -⟩ := exists_join hfit (.inl rfl) hg
  have htypes : (joinTypes kind .missing [a, b]).run s = (.ok r, s) := by
    rw [joinTypes, ha]
    cases t with
    | missing => exact absurd rfl (ht.ne_missing hg)
    | _ =>
      simp only [joinTypes, hb, hr]
      rfl
  rw [joinArms, run_bind_of_ok htypes]
  split
  · cases hg
  · cases hg
  · simp only [hr']
    rfl

/-- Two branches are laid out as constants unless both come to nothing. -/
theorem commonRep_run {x y : Nat} {tx ty : Ty} {ox oy : Outcome} (hx : Lowered s x tx ox)
    (hy : Lowered s y ty oy) :
    ∃ r, (commonRep [x, y] t).run s = (.ok r, s) ∧
      (r = .constant ∨ r = .error ∧ ox = none ∧ oy = none) := by
  obtain ⟨v, hv, -, hrv⟩ := hx.value
  obtain ⟨w, hw, -, hrw⟩ := hy.value
  have hmap : (([x, y] : List ValueId).mapM Graph.value).run s = (.ok [v, w], s) := by
    simp only [List.mapM_cons, List.mapM_nil, run_bind, value_run hv,
      value_run hw, run_pure]
  refine ⟨_, by rw [commonRep, run_bind_of_ok hmap,
    run_bind_of_ok decls_run, run_pure], ?_⟩
  have hlaid : Laid none .constant := .inl rfl
  have hcompat := compatible_simple s.decls t hlaid hlaid
  rw [List.map_cons, List.map_cons, List.map_nil]
  rcases hrv with hv | ⟨hv, hox⟩ <;> rcases hrw with hw | ⟨hw, hoy⟩ <;>
    simp_all [commonRepFrom]

section

variable {a b c : Expr} {u : Ty} {oa ob oc : Outcome}

/-- The second operand of a conjunction is read only if the first holds. -/
theorem and_lowered (ha : LowersTo lower a t oa s) (ht : Fits t .boolean) (hoa : Has t oa)
    (hb : LowersTo lower b u ob s) (hu : Fits u .boolean) :
    Lands (lowerOperator lower type span .and [a, b]) s fun id s' =>
      Lowered s' id .boolean (choose oa ob (some (.bool false))) := by
  refine .read rfl ?_
  refine .bind (lowerBool_lowered ha ht) fun x s1 e1 k1 hx => ?_
  refine .bind (lowerBool_lowered (hb.extend e1 k1) hu) fun y s2 e2 k2 hy => ?_
  refine .bind constValue_lowered fun no s3 e3 _ hno => ?_
  exact ifThenElse_lowered (hx.extend (e2.trans e3)) (hy.extend e3) hno.means
    (hoa.fits ht) (.inl rfl)

/-- The second operand of a disjunction is read only if the first does not hold.
-/
theorem or_lowered (ha : LowersTo lower a t oa s) (ht : Fits t .boolean) (hoa : Has t oa)
    (hb : LowersTo lower b u ob s) (hu : Fits u .boolean) :
    Lands (lowerOperator lower type span .or [a, b]) s fun id s' =>
      Lowered s' id .boolean (choose oa (some (.bool true)) ob) := by
  refine .read rfl ?_
  refine .bind (lowerBool_lowered ha ht) fun x s1 e1 k1 hx => ?_
  refine .bind (lowerBool_lowered (hb.extend e1 k1) hu) fun y s2 e2 k2 hy => ?_
  refine .bind constValue_lowered fun yes s3 e3 _ hyes => ?_
  exact ifThenElse_lowered (hx.extend (e2.trans e3)) hyes.means (hy.extend e3)
    (hoa.fits ht) (.inl rfl)

/-- A negation is a choice between the two truth values. -/
theorem not_lowered (ha : LowersTo lower a t oa s) (ht : Fits t .boolean) (hoa : Has t oa) :
    Lands (lowerOperator lower type span .not [a]) s fun id s' =>
      Lowered s' id .boolean (choose oa (some (.bool false)) (some (.bool true))) := by
  refine .read rfl ?_
  refine .bind (lowerBool_lowered ha ht) fun x s1 e1 k1 hx => ?_
  refine .bind constValue_lowered fun yes s2 e2 _ hyes => ?_
  refine .bind constValue_lowered fun no s3 e3 _ hno => ?_
  exact ifThenElse_lowered (hx.extend (e2.trans e3)) hno.means
    (hyes.means.extend e3) (hoa.fits ht) (.inl rfl)

theorem ifThenElse_operator_lowered {r : Ty} (hc : LowersTo lower c r oc s) (hr : Fits r .boolean)
    (hoc : Has r oc) (ha : LowersTo lower a t oa s) (hta : a.type = t) (ht : Fits t goal)
    (hb : LowersTo lower b u ob s) (htb : b.type = u) (hu : Fits u goal) (hg : simple goal = true) :
    Lands (lowerOperator lower goal span .ifThenElse [c, a, b]) s fun id s' =>
      Lowered s' id goal (choose oc oa ob) := by
  refine .read rfl (.read (joinArms_run _ span hta htb ht hu hg) ?_)
  refine .bind (lowerBool_lowered hc hr) fun cond s1 e1 k1 hcond => ?_
  refine .bind (ha s1 e1 k1) fun x s2 e2 k2 hx => ?_
  refine .bind (upcast_lowered hx ht hg) fun x s3 e3 k3 hx => ?_
  have k3' : s3.scope = s.scope := k3.trans (k2.trans k1)
  refine .bind (hb s3 ((e1.trans e2).trans e3) k3') fun y s4 e4 k4 hy => ?_
  refine .bind (upcast_lowered hy hu hg) fun y s5 e5 k5 hy => ?_
  have hx5 := hx.extend (e4.trans e5)
  obtain ⟨rep, hrun, hrep⟩ := commonRep_run (t := goal) hx5 hy
  have hrepa : Laid oa rep := hrep.imp_right fun h => ⟨h.1, h.2.1⟩
  have hrepb : Laid ob rep := hrep.imp_right fun h => ⟨h.1, h.2.2⟩
  refine .read hrun ?_
  refine .bind (toRep_lowered hx5 hrepa) fun x s6 e6 _ hx => ?_
  refine .bind (toRep_lowered (hy.extend e6) hrepb) fun y s7 e7 _ hy => ?_
  have e : Extends s1 s7 := e2.trans (e3.trans (e4.trans (e5.trans (e6.trans e7))))
  exact ifThenElse_lowered (hcond.extend e) (hx.means.extend e7) hy.means
    (hoc.fits hr) (hrep.imp_right fun h => ⟨h.1, by rw [h.2.1, h.2.2, choose_none]⟩)

end

/-! ## Variables -/

/-- A new variable gets its definition. -/
theorem Extends.of_defines {rhs : Nat} {r : Value} (he : Extends s s')
    (hd : Defines s' s'' id rhs r) (hid : s.size < id) : Extends s s'' where
  target := hd.target.trans he.target
  decls := hd.decls.trans he.decls
  views := hd.views.trans he.views
  helpers := hd.helpers.trans he.helpers
  size := by
    rw [hd.size]
    exact he.size
  value := by
    intro i w hw
    obtain ⟨x, hx, hxw⟩ := he.value i w hw
    have hi := hd.value? i
    rw [if_neg, hx, Option.map_some] at hi
    · obtain ⟨y, hy, hyx⟩ := Option.map_eq_some_iff.1 hi
      exact ⟨y, hy, hyx.trans hxw⟩
    · have := (valid_of_value hw).2
      omega

/-- A variable that has just been added gets its definition. -/
theorem setRhs_new {rhs : Nat} {x : Value} (ha : Adds s s' x)
    (hnone : x.node.rhs? = none) (h : Valid s rhs) :
    ∃ s'', (setRhs (s.size + 1) rhs).run s' = (.ok (), s'') ∧ Extends s s'' ∧
      s''.scope = s.scope ∧ ∃ v, s''.value? (s.size + 1) = some v ∧
        v.node = x.node.withRhs rhs ∧ v.type = x.type ∧ v.rep = x.rep ∧
        v.used = (VarSet.single (s.size + 1)).union (s.usedOf rhs) := by
  obtain ⟨v, hv, hcore⟩ := ha.exists_value
  simp only [Value.core, Value.mk.injEq] at hcore
  have hvnone : v.node.rhs? = none := by rw [hcore.1, hnone]
  have hne : rhs ≠ s.size + 1 := Nat.ne_of_lt (Nat.lt_succ_of_le h.2)
  obtain ⟨w, hw⟩ := h.exists_value
  obtain ⟨r, hr, hrcore⟩ := (Extends.of_adds ha).value rhs w hw
  obtain ⟨s'', hrun, -⟩ := setRhs_run hv hvnone hr hne
  have hd := setRhs_defines (node?_of_value hv) hvnone hr hne
  rw [hrun] at hd
  have hid := hd.value? (s.size + 1)
  rw [if_pos rfl, hv, Option.map_some] at hid
  obtain ⟨y, hy, hycore⟩ := Option.map_eq_some_iff.1 hid
  simp only [Value.core, Value.defined, Value.mk.injEq] at hycore
  refine ⟨s'', hrun, (Extends.of_adds ha).of_defines hd (Nat.lt_succ_self _),
    hd.scope.trans ha.scope, y, hy, by rw [hycore.1, hcore.1], by rw [hycore.2.1, hcore.2.1],
    by rw [hycore.2.2.1, hcore.2.2.1], ?_⟩
  have hused : r.core.used = w.core.used := by rw [hrcore]
  rw [hycore.2.2.2.2.1, usedOf_of_value hw]
  exact congrArg _ hused

/-- A variable with a definition is added. -/
theorem newVar_lands {rhs : Nat} (h : Valid s rhs) :
    Lands (newVar name type rep rhs span) s fun id s' => id = s.size + 1 ∧
      ∃ v x, s'.value? id = some v ∧ v.node = .var x (some rhs) ∧ v.type = type ∧ v.rep = rep ∧
        v.used = (VarSet.single id).union (s.usedOf rhs) := by
  have hrun := newBinder_run (s := s) name type rep span
  have ha := newBinder_adds (s := s) name type rep span
  rw [hrun] at ha
  obtain ⟨s', hset, he, hscope, v, hv, hn, ht, hr, hu⟩ := setRhs_new ha rfl h
  refine ⟨s.size + 1, s', ?_, he, hscope, rfl, v, s.nextName name, hv, hn, ht, hr, hu⟩
  rw [newVar, run_bind_of_ok hrun, run_bind_of_ok hset]
  rfl

/-- A variable comes to what its definition does. -/
theorem newVar_lowered {rhs : Nat} (h : Means s rhs o) (hrep : Laid o rep) :
    Lands (newVar name type rep rhs span) s fun id s' => Lowered s' id type o := by
  refine (newVar_lands h.valid).mono ?_
  rintro id s' he ⟨rfl, v, x, hv, hnode, htype, hvrep, -⟩
  have hn : s'.node? (s.size + 1) = some (.var x (some rhs)) := by
    rw [node?_of_value hv, hnode]
  refine ⟨.mk (r := fun _ => o) hn ?_ ?_ trivial rfl, v, hv, htype, by rwa [hvrep]⟩
  · simpa [parts, Node.rhs?, Node.subs] using Nat.lt_succ_of_le h.valid.2
  · simpa [parts, Node.rhs?, Node.subs] using h.extend he

/-- The variable of a binding comes to what the bound expression does. -/
theorem lowerBinding_lowered {b : Binding} {u : Ty} (h : LowersTo lower b.value t o s)
    (hfit : Fits t u) (hb : Binds b u) (hu : simple u = true) :
    Lands (lowerBinding lower b) s fun id s' => Lowered s' id u o := by
  unfold lowerBinding
  extract_lets type
  have htype : type = u := by
    simp only [type]
    rcases hb with rfl | ⟨hm, rfl⟩
    · split
      · rename_i hm
        exact absurd hm (ne_missing_of_simple hu)
      · rfl
    · rw [hm]
  clear_value type
  subst htype
  refine .bind (h s .refl rfl) fun x s1 e1 k1 hx => ?_
  refine .bind (upcast_lowered hx hfit hu) fun y s2 e2 k2 hy => ?_
  obtain ⟨v, hv, -, hr⟩ := hy.value
  exact .read (value_run hv) (newVar_lowered hy.means hr)

/-- Names with their types, outcomes and values. -/
inductive Owns (s : State) :
    List (String × Ty) → List (String × Outcome) → List (String × ValueId) → Prop where
  | nil : Owns s [] [] []
  | cons {x t o Γ env names} {id : Nat} : simple t = true → Lowered s id t o → Owns s Γ env names →
      Owns s ((x, t) :: Γ) ((x, o) :: env) ((x, id) :: names)

namespace Owns

variable {env' : List (String × Outcome)} {names names' : List (String × ValueId)}

theorem extend (h : Owns s Γ env names) (he : Extends s s') : Owns s' Γ env names := by
  induction h with
  | nil => exact .nil
  | cons ht h _ ih => exact .cons ht (h.extend he) ih

theorem append (h : Owns s Γ env names) (h' : Owns s Δ env' names') :
    Owns s (Γ ++ Δ) (env ++ env') (names ++ names') := by
  induction h with
  | nil => exact h'
  | cons ht h _ ih => exact .cons ht h ih

theorem reverse (h : Owns s Γ env names) : Owns s Γ.reverse env.reverse names.reverse := by
  induction h with
  | nil => exact .nil
  | cons ht h _ ih =>
    rw [List.reverse_cons, List.reverse_cons, List.reverse_cons]
    exact ih.append (.cons ht h .nil)

theorem mem (h : Owns s Γ env names) {x : String} (hx : (x, id) ∈ names) :
    ∃ t o, Lowered s id t o := by
  induction h with
  | nil => cases hx
  | cons _ h _ ih =>
    rcases List.mem_cons.1 hx with heq | hx
    · cases heq
      exact ⟨_, _, h⟩
    · exact ih hx

/-- A name in scope stands for a value of its type, which comes to what the name
does. -/
theorem lookup (h : Owns s Γ env names) {x : String} (hx : Γ.lookup x = some t) :
    simple t = true ∧
      ∃ id, names.lookup x = some id ∧ Lowered s id t ((env.lookup x).getD none) := by
  induction h with
  | nil => cases hx
  | cons ht h _ ih =>
    rw [List.lookup_cons] at hx ⊢
    rw [List.lookup_cons]
    split at hx
    · cases hx
      exact ⟨ht, _, rfl, h⟩
    · exact ih hx

end Owns

/-! ## Lets -/

/-- The names in scope have their types, outcomes and values. -/
structure InScope (s : State) (Γ : List (String × Ty)) (env : List (String × Outcome)) :
    Prop where
  target : s.target ≠ .unknown
  agree : Agree Γ env
  ne : s.scope ≠ []
  owns : Owns s Γ env s.scope.flatten

theorem InScope.extend (h : InScope s Γ env) (he : Extends s s') (hs : s'.scope = s.scope) :
    InScope s' Γ env := by
  refine ⟨by rw [he.target]; exact h.target, h.agree, by rw [hs]; exact h.ne, ?_⟩
  rw [hs]
  exact h.owns.extend he

/-- The names of bindings with the values of their variables. -/
def named (bs : List Binding) (owned : List ValueId) : List (String × ValueId) :=
  (bs.zip owned).map fun p => (p.1.name, p.2)

/-- Names are put in front of the frame, the last one first. -/
theorem defines_run (ps : List (Binding × ValueId)) {frame : List (String × ValueId)}
    {rest : List (List (String × ValueId))} (h : s.scope = frame :: rest) :
    (ps.forM fun (b, id) => define b.name id).run s =
      (.ok (), { s with
        scope := ((ps.map fun p => (p.1.name, p.2)).reverse ++ frame) :: rest }) := by
  induction ps generalizing s frame with
  | nil =>
    rw [List.map_nil, List.reverse_nil, List.nil_append, ← h]
    rfl
  | cons p ps ih =>
    have hdefine : (define p.1.name p.2).run s =
        (.ok (), { s with scope := ((p.1.name, p.2) :: frame) :: rest }) := by
      rw [define, run_modify]
      simp only [h]
    refine (run_bind_of_ok hdefine).trans ?_
    rw [ih rfl, List.map_cons, List.reverse_cons, List.append_assoc]
    rfl

theorem Extends.of_scope (frames : List (List (String × ValueId))) :
    Extends s { s with scope := frames } :=
  ⟨rfl, rfl, rfl, rfl, Nat.le_refl _, fun _ v hv => ⟨v, hv, rfl⟩⟩

theorem warnUnused_lands {b : Binding} (h : Lowered s id t o) :
    Lands (warnUnused b id) s fun _ _ => True := by
  obtain ⟨v, hv, -⟩ := h.value
  refine .read (value_run hv) ?_
  split
  · rename_i rhs _ hrhs
    obtain ⟨hn, -, hm, -⟩ := h.means
    rw [node?_of_value hv] at hn
    cases hn
    refine .read (effortless_run (hm rhs (by simp [parts, hrhs])).valid) ?_
    split
    · exact warn_lands
    · exact .pure trivial
  · exact .pure trivial

theorem warnAll_lands {owned : List ValueId} (h : Owns s Δ env (named bs owned)) :
    Lands ((bs.zip owned).forM fun (b, id) => warnUnused b id) s fun _ _ => True := by
  refine .forM fun p hp s' he => ?_
  obtain ⟨t, o, hid⟩ := h.mem (List.mem_map_of_mem (f := fun p => (p.1.name, p.2)) hp)
  exact warnUnused_lands (hid.extend he)

/-- A let comes to what its body does. -/
theorem letIn_lowered {owned : List ValueId} {body : Nat} (h : Lowered s body t o) :
    Lands (Graph.letIn owned none body span) s fun id s' => Lowered s' id t o := by
  obtain ⟨v, hv, rfl, hr⟩ := h.value
  refine .read (value_run hv) ?_
  refine newNode_lowered (r := fun _ => o) rfl ?_ trivial rfl hr
  simpa [Node.subs] using h.means

/-- A let is lowered to what its body comes to with the bindings in scope. -/
theorem lowerLet_lowered {envΔ : List (String × Outcome)} {bs : List Binding} {body : Expr}
    (hs : InScope s Γ env) (hagree : Agree Δ envΔ)
    (hbs : Lands (bs.mapM (lowerBinding lower)) s fun owned s' => Owns s' Δ envΔ (named bs owned))
    (hbody : ∀ s', InScope s' (Δ.reverse ++ Γ) (envΔ.reverse ++ env) →
      Lands (lower body) s' fun id s'' => Lowered s'' id t o) :
    Lands (lowerLet lower span bs body) s fun id s' => Lowered s' id t o := by
  refine .bind hbs fun owned s1 e1 k1 ho => ?_
  have hs1 := hs.extend e1 k1
  -- inside, the names of the bindings stand in a frame of their own
  let s2 : State := { s1 with scope := (named bs owned).reverse :: s1.scope }
  have hdefine : ((bs.zip owned).forM fun (b, id) => define b.name id).run
      { s1 with scope := [] :: s1.scope } = (.ok (), s2) := by
    rw [defines_run _ rfl, List.append_nil]
    rfl
  have hin : InScope s2 (Δ.reverse ++ Γ) (envΔ.reverse ++ env) :=
    ⟨hs1.target, List.rel_append (List.rel_reverse hagree) hs1.agree, List.cons_ne_nil _ _,
      (ho.extend (.of_scope _)).reverse.append (hs1.owns.extend (.of_scope _))⟩
  obtain ⟨x, s3, hx, e3, k3, hlow⟩ := hbody s2 hin
  obtain ⟨frame, rest, hrest⟩ := List.exists_cons_of_ne_nil hs1.ne
  let s4 : State := { s3 with scope := s1.scope }
  have hpop : popScope.run s3 = (.ok (), s4) := by
    rw [popScope, run_modify, k3]
    simp only [s2, hrest, s4]
  have e4 : Extends s1 s4 := (Extends.of_scope _).trans (e3.trans (.of_scope _))
  have hafter : Lands (do
      (bs.zip owned).forM fun (b, id) => warnUnused b id
      Graph.letIn owned none x span) s4 fun id s' => Lowered s' id t o := by
    refine .bind (warnAll_lands (ho.extend e4)) fun _ s5 e5 _ _ => ?_
    exact letIn_lowered (hlow.extend ((Extends.of_scope _).trans e5))
  obtain ⟨id, s6, hrun, e6, k6, hid⟩ := hafter
  refine ⟨id, s6, ?_, e4.trans e6, k6, hid⟩
  have hpush : pushScope.run s1 = (.ok (), { s1 with scope := [] :: s1.scope }) := rfl
  rw [run_bind_of_ok hpush, run_bind_of_ok hdefine, run_bind_of_ok hx,
    run_bind_of_ok hpop, hrun]

/-! ## Calls -/

section

variable {f : Builtin}

/-- A builtin takes as many arguments as its signature has. -/
theorem arity_eq (f : Builtin) : (Signature.parts f).1.length = f.arity := by
  cases f <;> rfl

theorem availableIn_of_since (hk : f.isKnown = true) (hs : f.since = .v1) (hw : w ≠ .unknown) :
    f.availableIn w = true := by
  have hrank : Version.v1.rank ≤ w.rank := by
    cases w <;> first | exact absurd rfl hw | decide
  simp only [Builtin.availableIn, hk, hs, Bool.true_and]
  exact decide_eq_true hrank

/-- Builtins on primitives are available in every known version. -/
theorem availableIn_of_onPrimitives (hf : onPrimitives f = true) (hw : w ≠ .unknown) :
    f.availableIn w = true := by
  have hsince : f.isKnown = true ∧ f.since = .v1 := by
    cases f <;> first | exact ⟨rfl, rfl⟩ | cases hf
  exact availableIn_of_since hsince.1 hsince.2 hw

theorem primitive_inputs (hf : onPrimitives f = true) (ht : t ∈ (Signature.parts f).1) :
    primitive t = true := by
  rw [onPrimitives, Bool.and_eq_true, List.all_eq_true] at hf
  exact hf.1 t ht

theorem primitive_output (hf : onPrimitives f = true) : primitive (Signature.parts f).2 = true := by
  rw [onPrimitives, Bool.and_eq_true] at hf
  exact hf.2

end

theorem lowerBuiltinArg_lowered {param output : Ty} (h : LowersTo lower e t o s)
    (hp : primitive param = true) :
    Lands (lowerBuiltinArg lower type output .constant e param) s fun id s' =>
      Means s' id o := by
  refine .bind (h s .refl rfl) fun x s1 e1 k1 hx => ?_
  have hvar : isResultVar param output = false := by
    obtain rfl | rfl | rfl | rfl | rfl := primitive_cases hp <;> rfl
  have hdata : param.unwrap.isData = false ∧ param.isVar = false := by
    obtain rfl | rfl | rfl | rfl | rfl := primitive_cases hp <;> exact ⟨rfl, rfl⟩
  obtain ⟨v, hv, -, hr⟩ := hx.value
  rw [hvar, if_neg Bool.false_ne_true]
  refine .read (value_run hv) (.read decls_run ?_)
  split
  · exact .pure hx.means
  · rw [hdata.1, hdata.2]
    exact (toRep_lowered hx (.inl rfl)).mono fun _ _ _ h => h.means

/-- A node for a call comes to the result of the call. -/
theorem builtin_lowered {f : Builtin} {args : List ValueId} {os : List Outcome}
    (hf : onPrimitives f = true) (ht : s.target ≠ .unknown)
    (hn : args.length = (Signature.parts f).1.length) (h : List.Forall₂ (Means s) args os) :
    Lands (Graph.builtin f type .constant span args) s fun id s' =>
      Lowered s' id type (call f os) := by
  refine .read target_run ?_
  rw [availableIn_of_onPrimitives hf ht]
  obtain ⟨hmeans, rfl⟩ := means_outcomeOf h
  exact newNode_lowered (r := outcomeOf s) rfl hmeans ⟨hf, hn⟩ rfl (.inl rfl)

/-- Arguments that are lowered one after the other. -/
inductive LowersAll (lower : Lowerer) (s : State) :
    List Expr → List Ty → List Outcome → Prop where
  | nil : LowersAll lower s [] [] []
  | cons {e es t p ps o os} : Fits t p → LowersTo lower e t o s → LowersAll lower s es ps os →
      LowersAll lower s (e :: es) (p :: ps) (o :: os)

theorem LowersAll.append {es' : List Expr} {ps' : List Ty} {os os' : List Outcome}
    (h : LowersAll lower s es ps os) (h' : LowersAll lower s es' ps' os') :
    LowersAll lower s (es ++ es') (ps ++ ps') (os ++ os') := by
  induction h with
  | nil => exact h'
  | cons hfit ht _ ih => exact .cons hfit ht ih

theorem LowersAll.length_eq {os : List Outcome} (h : LowersAll lower s es ps os) :
    es.length = ps.length ∧ os.length = ps.length := by
  induction h with
  | nil => exact ⟨rfl, rfl⟩
  | cons _ _ _ ih => simp [ih]

theorem lowerArgs_lowered {os : List Outcome} {output : Ty} (h : LowersAll lower s es ps os)
    (hp : ∀ p ∈ ps, primitive p = true) (he : Extends s s') (hs : s'.scope = s.scope) :
    Lands ((es.zip ps).mapM fun (e, param) =>
        lowerBuiltinArg lower type output .constant e param) s' fun ids s'' =>
      List.Forall₂ (Means s'') ids os := by
  induction h generalizing s' with
  | nil => exact .pure .nil
  | cons hfit ht _ ih =>
    rw [List.forall_mem_cons] at hp
    rw [List.zip_cons_cons, List.mapM_cons]
    refine .bind (lowerBuiltinArg_lowered (ht.extend he hs) hp.1) fun x s1 e1 k1 hx => ?_
    refine .bind (ih hp.2 (he.trans e1) (k1.trans hs)) fun xs s2 e2 k2 hxs => ?_
    exact .pure (.cons (hx.extend e2) hxs)

/-- A call of a builtin is lowered to its result. -/
theorem lowerBuiltinCall_lowered {f : Builtin} {os : List Outcome} (hf : onPrimitives f = true)
    (ht : s.target ≠ .unknown) (h : LowersAll lower s es (Signature.parts f).1 os) :
    Lands (lowerBuiltinCall lower f es type span) s fun id s' =>
      Lowered s' id type (call f os) := by
  have hvar : (Signature.parts f).2.isVar = false := by
    obtain h | h | h | h | h := primitive_cases (primitive_output hf) <;> rw [h] <;> rfl
  simp only [lowerBuiltinCall, hvar, if_neg Bool.false_ne_true]
  refine .read (run_pure _) ?_
  refine .bind (lowerArgs_lowered h (fun p hp => primitive_inputs hf hp) .refl rfl) ?_
  intro ids s1 e1 _ hids
  refine builtin_lowered hf (by rw [e1.target]; exact ht) ?_ hids
  rw [hids.length_eq, h.length_eq.2]

/-- A builtin that has all its arguments is called. -/
theorem lowerApply_call {fn a : Expr} {f : Builtin} {args : List (Expr × Ty × Span)}
    (hspine : spine (.node t span (.apply fn a)) = (.node type span' (.builtin f), args))
    (hlen : args.length = f.arity) :
    lowerApply lower t span fn a =
      lowerBuiltinCall lower f (args.reverse.map (·.1)) t span := by
  obtain ⟨rest, rfl⟩ : ∃ rest, args = (a, t, span) :: rest := by
    rw [spine, Prod.mk.injEq] at hspine
    exact ⟨_, hspine.2.symm⟩
  have hlast : (((a, t, span) :: rest).reverse)[f.arity - 1]? = some (a, t, span) := by
    rw [List.reverse_cons, ← hlen, List.length_cons, Nat.add_sub_cancel, ← List.length_reverse,
      List.getElem?_concat_length]
  have hall : f.arity = ((a, t, span) :: rest).reverse.length := by
    rw [List.length_reverse, hlen]
  have hne : f.arity ≠ 0 := by
    rw [← hlen, List.length_cons]
    exact Nat.succ_ne_zero _
  unfold lowerApply
  rw [hspine]
  simp only [hlast, if_neg hne]
  rw [hall, List.take_length, List.drop_length]
  exact bind_pure _

theorem call_lowered {fn a : Expr} {f : Builtin} {args : List (Expr × Ty × Span)}
    {os : List Outcome} (hf : onPrimitives f = true) (ht : s.target ≠ .unknown)
    (hspine : spine (.node t span (.apply fn a)) = (.node type span' (.builtin f), args))
    (h : LowersAll lower s (args.reverse.map (·.1)) (Signature.parts f).1 os) :
    Lands (lowerApply lower t span fn a) s fun id s' => Lowered s' id t (call f os) := by
  have hlen : args.length = f.arity := by
    rw [← arity_eq, ← h.length_eq.1, List.length_map, List.length_reverse]
  rw [lowerApply_call hspine hlen]
  exact lowerBuiltinCall_lowered hf ht h

/-! ## Expressions -/

theorem con_of_simple (h : simple t = true) : ∃ c args, t = .con c args := by
  cases t with
  | con c args => exact ⟨c, args, rfl⟩
  | _ => cases h

theorem TypedBindings.simple (h : TypedBindings Γ bs Δ) : ∀ p ∈ Δ, simple p.2 = true := by
  induction bs generalizing Δ with
  | nil =>
    cases h
    simp
  | cons b bs ih =>
    cases h with
    | cons _ _ _ ht h => exact List.forall_mem_cons.2 ⟨ht, ih h⟩

/-- Expressions of first order have types of first order. -/
theorem Typed.simple {Γ : List (String × Ty)} {e : Expr} {t : Ty} :
    Typed Γ e t → (∀ p ∈ Γ, FirstOrder.simple p.2 = true) → FirstOrder.simple t = true
  | .var (x := x) hx, hΓ => by
    obtain ⟨l1, l2, rfl, -⟩ := List.lookup_eq_some_iff.1 hx
    exact hΓ (x, _) (by simp)
  | .const hc, _ => simple_of_primitive? hc
  | .error ht, _ => ht
  | .letIn hbs hbody, hΓ => by
    refine hbody.simple (List.forall_mem_append.2 ⟨fun p hp => ?_, hΓ⟩)
    exact hbs.simple p (List.mem_reverse.1 hp)
  | .and .., _ | .or .., _ | .not .., _ => rfl
  | .ifThenElse _ _ _ _ _ _ hg, _ => hg
  | .call hf ht _, _ => ht ▸ simple_of_primitive (primitive_output hf)

theorem Owns.simple {names : List (String × ValueId)} (h : Owns s Γ env names) :
    ∀ p ∈ Γ, FirstOrder.simple p.2 = true := by
  induction h with
  | nil => simp
  | cons ht _ _ ih => exact List.forall_mem_cons.2 ⟨ht, ih⟩

/-- Expressions of first order that are less than `n` deep are lowered to
values that come to the same. -/
def LowersTyped (lower : Lowerer) (n : Nat) : Prop :=
  ∀ {Γ env e t s}, Typed Γ e t → e.depth < n → InScope s Γ env →
    Lands (lower e) s fun id s' => Lowered s' id t (meaning env [] e)

section

variable {n : Nat}

theorem LowersTyped.lowersTo (hl : LowersTyped lower n) (h : Typed Γ e t) (hn : e.depth < n)
    (hs : InScope s Γ env) : LowersTo lower e t (meaning env [] e) s :=
  fun _ he hk => hl h hn (hs.extend he hk)

/-- The arguments of a call are lowered one after the other. -/
theorem TypedCall.lowered (hl : LowersTyped lower n) {e : Expr} {f : Builtin} {ts : List Ty}
    (h : TypedCall Γ e f ts) (hn : e.depth ≤ n) (hs : InScope s Γ env) :
    ∃ type span args os, spine e = (.node type span (.builtin f), args) ∧
      LowersAll lower s (args.reverse.map (·.1)) ts os ∧
      ∀ rest, meaning env rest e = call f (os ++ rest) := by
  match h with
  | .head => exact ⟨_, _, [], [], rfl, .nil, fun _ => rfl⟩
  | @TypedCall.arg _ _ a _ _ _ _ t sp hfn ha hfit =>
    simp only [Expr.depth] at hn
    have ha := hl.lowersTo ha (by omega) hs
    obtain ⟨type, span, args, os, hspine, hargs, hmeaning⟩ := hfn.lowered hl (by omega) hs
    refine ⟨type, span, (a, t, sp) :: args, os ++ [meaning env [] a], ?_, ?_, fun rest => ?_⟩
    · rw [spine, hspine]
    · rw [List.reverse_cons, List.map_append]
      exact hargs.append (.cons hfit ha .nil)
    · rw [meaning, hmeaning, List.append_assoc]
      rfl

/-- The bindings of a let are lowered one after the other. -/
theorem TypedBindings.lowered (hl : LowersTyped lower n) {s : State} {Δ : List (String × Ty)}
    {bs : List Binding} (h : TypedBindings Γ bs Δ) (hn : Expr.depthBindings bs < n)
    (hs : InScope s Γ env) :
    Lands (bs.mapM (lowerBinding lower)) s fun owned s' =>
      Owns s' Δ (meanings env bs) (named bs owned) := by
  match h with
  | .nil => exact .pure .nil
  | .cons hv hfit hb ht hbs =>
    simp only [Expr.depthBindings] at hn
    have hv := hl.lowersTo hv (by omega) hs
    rw [List.mapM_cons]
    refine .bind (lowerBinding_lowered hv hfit hb ht) fun x s1 e1 k1 hx => ?_
    refine .bind (hbs.lowered hl (by omega) (hs.extend e1 k1)) fun xs s2 e2 k2 hxs => ?_
    exact .pure (.cons ht (hx.extend e2) hxs)

/-- One step down an expression. -/
theorem LowersTyped.step (hl : LowersTyped lower n) : LowersTyped (lowerStep lower) (n + 1) := by
  intro Γ env e t s h hn hs
  have hsimple := h.simple hs.owns.simple
  cases h with
  | var hx =>
    obtain ⟨-, id, hid, hlow⟩ := hs.owns.lookup hx
    obtain ⟨c, args, rfl⟩ := con_of_simple hsimple
    refine .bind point_lands fun _ s1 e1 k1 _ => .read (lookupName_run _) ?_
    rw [k1, hid]
    exact .pure (hlow.extend e1)
  | const hc =>
    obtain ⟨c, args, rfl⟩ := con_of_simple hsimple
    exact .bind point_lands fun _ _ _ _ _ => constValue_lowered
  | error ht =>
    obtain ⟨c, args, rfl⟩ := con_of_simple hsimple
    exact .bind point_lands fun _ _ _ _ _ => errorValue_lowered
  | letIn hbs hbody =>
    obtain ⟨c, args, rfl⟩ := con_of_simple hsimple
    simp only [Expr.depth] at hn
    refine .bind point_lands fun _ s1 e1 k1 _ => ?_
    have hs1 := hs.extend e1 k1
    exact lowerLet_lowered hs1 (hbs.agree hs.agree) (hbs.lowered hl (by omega) hs1)
      fun s' hs' => hl hbody (by omega) hs'
  | and ha ht hb hu =>
    simp only [Expr.depth, Expr.depthAll] at hn
    refine .bind point_lands fun _ s1 e1 k1 _ => ?_
    have hs1 := hs.extend e1 k1
    exact and_lowered (hl.lowersTo ha (by omega) hs1) ht (ha.has hs.agree)
      (hl.lowersTo hb (by omega) hs1) hu
  | or ha ht hb hu =>
    simp only [Expr.depth, Expr.depthAll] at hn
    refine .bind point_lands fun _ s1 e1 k1 _ => ?_
    have hs1 := hs.extend e1 k1
    exact or_lowered (hl.lowersTo ha (by omega) hs1) ht (ha.has hs.agree)
      (hl.lowersTo hb (by omega) hs1) hu
  | not ha ht =>
    simp only [Expr.depth, Expr.depthAll] at hn
    refine .bind point_lands fun _ s1 e1 k1 _ => ?_
    exact not_lowered (hl.lowersTo ha (by omega) (hs.extend e1 k1)) ht (ha.has hs.agree)
  | ifThenElse hc hr ha ht hb hu hg =>
    obtain ⟨c, args, rfl⟩ := con_of_simple hsimple
    simp only [Expr.depth, Expr.depthAll] at hn
    refine .bind point_lands fun _ s1 e1 k1 _ => ?_
    have hs1 := hs.extend e1 k1
    exact ifThenElse_operator_lowered (hl.lowersTo hc (by omega) hs1) hr (hc.has hs.agree)
      (hl.lowersTo ha (by omega) hs1) ha.type_eq ht (hl.lowersTo hb (by omega) hs1) hb.type_eq
      hu hg
  | call hf ht h =>
    obtain ⟨c, cs, rfl⟩ := con_of_simple hsimple
    refine .bind point_lands fun _ s1 e1 k1 _ => ?_
    have hs1 := hs.extend e1 k1
    obtain ⟨type, span', args, os, hspine, hargs, hmeaning⟩ := h.lowered hl (by omega) hs1
    rw [hmeaning, List.append_nil]
    exact call_lowered hf hs1.target hspine hargs

end

/-- **Lowering an expression of first order succeeds** and gives a value that
comes to what the expression comes to. -/
theorem lowerExprIn_lowersTyped (fuel : Nat) : LowersTyped (lowerExprIn fuel) fuel := by
  induction fuel with
  | zero => exact fun _ hn _ => absurd hn (Nat.not_lt_zero _)
  | succ fuel ih => exact ih.step

/-! ## The nodes of first order -/

/-- A node of first order, with what its parts come to. -/
inductive Reads (g : State) (id : Nat) : Node → Outcome → Prop where
  | const (c : Constant) : Reads g id (.const c) (some c)
  | error (message : String) : Reads g id (.error message) none
  | var {rhs : Nat} {o : Outcome} (name : String) : rhs < id → Means g rhs o →
      Reads g id (.var name (some rhs)) o
  | letIn {body : Nat} {o : Outcome} (owned : List ValueId) : body < id → Means g body o →
      Reads g id (.letIn owned none body) o
  | reinterpret {x : Nat} {o : Outcome} : x < id → Means g x o → Reads g id (.reinterpret x) o
  | choice {c no yes : Nat} {binders : List (List ValueId)} {native : Bool} {oc on oy : Outcome}
      (owned : List ValueId) : (native = true → g.target.hasBuiltinCase = true) →
      binders.flatten = [] → Has .boolean oc → c < id → Means g c oc → no < id →
      Means g no on → yes < id → Means g yes oy →
      Reads g id (.caseOf .bool native c [no, yes] owned binders) (choose oc oy on)
  | builtin {f : Builtin} {args : List ValueId} {r : Nat → Outcome} : onPrimitives f = true →
      args.length = f.arity → (∀ a : Nat, a ∈ args → a < id) →
      (∀ a : Nat, a ∈ args → Means g a (r a)) → Reads g id (.builtin f args) (call f (args.map r))

/-- A value that comes to something is one of first order. -/
theorem Means.reads {n : Node} (h : Means g id o) (hn : g.node? id = some n) : Reads g id n o := by
  obtain ⟨hn', hlt, hm, hproper, ho⟩ := h
  rw [hn] at hn'
  cases hn'
  rename_i r
  unfold outcome? at ho
  split at ho
  all_goals cases ho
  · exact .const _
  · exact .error _
  · exact .var _ (hlt _ (by simp [parts, Node.rhs?])) (hm _ (by simp [parts, Node.rhs?]))
  · exact .letIn _ (hlt _ (by simp [parts, Node.rhs?, Node.subs]))
      (hm _ (by simp [parts, Node.rhs?, Node.subs]))
  · exact .reinterpret (hlt _ (by simp [parts, Node.rhs?, Node.subs]))
      (hm _ (by simp [parts, Node.rhs?, Node.subs]))
  · simp only [parts, Node.rhs?, Node.subs, Option.toList_none, List.nil_append,
      List.forall_mem_cons] at hlt hm
    exact .choice _ hproper.1 hproper.2.1 hproper.2.2 hlt.1 hm.1 hlt.2.1 hm.2.1 hlt.2.2.1
      hm.2.2.1
  · rename_i f args
    exact .builtin hproper.1 (hproper.2.trans (arity_eq f)) hlt hm

/-- The parts of a value come before it and come to something too. -/
theorem Means.sub {n : Node} (h : Means g id o) (hn : g.node? id = some n) {x : Nat}
    (hx : x ∈ n.subs) : x < id ∧ ∃ ox, Means g x ox := by
  obtain ⟨hn', hlt, hm, -⟩ := h
  rw [hn] at hn'
  cases hn'
  have hpart : x ∈ parts n := List.mem_append_right _ hx
  exact ⟨hlt x hpart, _, hm x hpart⟩

/-- A definition comes to what its variable comes to. -/
theorem Means.rhs {n : Node} (h : Means g id o) (hn : g.node? id = some n) {r : Nat}
    (hr : n.rhs? = some r) : r < id ∧ Means g r o := by
  cases h.reads hn with
  | var _ hlt hm =>
    cases hr
    exact ⟨hlt, hm⟩
  | _ => cases hr

theorem isSome_rhs_of_reads {n : Node} (h : Reads g id n o) (hid : n.isIdentifiable = true) :
    n.rhs?.isSome = true := by
  cases h with
  | var => rfl
  | _ => cases hid

/-! ## The root -/

/-- What a value uses are variables that come to something and are defined. -/
theorem Means.used (h : Means g id o) (hu : UsedInside g) {u : Nat} (hmem : u ∈ (g.usedOf id).ids) :
    (∃ o, Means g u o) ∧ u ≤ id ∧ Defined g u := by
  induction h with
  | @mk id n os o hn hlt hm hproper ho ih =>
    rcases hu id n u hn hmem with ⟨rfl, hid⟩ | ⟨x, hx, hux⟩
    · have h : Means g u o := .mk hn hlt hm hproper ho
      exact ⟨⟨o, h⟩, Nat.le_refl _, n, hn, isSome_rhs_of_reads (h.reads hn) hid⟩
    · have hx : x ∈ parts n := by
        rw [parts, List.mem_append, Option.mem_toList]
        exact hx
      obtain ⟨h1, h2, h3⟩ := ih x hx hux
      exact ⟨h1, Nat.le_trans h2 (Nat.le_of_lt (hlt x hx)), h3⟩

/-- The standard layout of a type of first order is one of first order. -/
theorem standardRep_simple (ds : Decls) (h : simple t = true) (ho : Has t o) :
    Laid o (ds.standardRep t) := by
  obtain h | rfl := simple_cases h
  · obtain rfl | rfl | rfl | rfl | rfl := primitive_cases h <;> exact .inl rfl
  · exact .inr ⟨rfl, ho.eq_none⟩

theorem checkDefined_run {u : Nat} (h : Defined s u) : (checkDefined u).run s = (.ok (), s) := by
  obtain ⟨n, hn, hsome⟩ := h
  obtain ⟨v, hv, rfl⟩ := value_of_node? hn
  rw [checkDefined, run_bind_of_ok (value_run hv), if_neg]
  · rfl
  · cases hr : v.node.rhs? <;> simp_all

theorem checkAll_run {us : List ValueId} (h : ∀ u ∈ us, Defined s u) :
    (us.forM checkDefined).run s = (.ok (), s) := by
  induction us with
  | nil => rfl
  | cons u us ih =>
    rw [List.forall_mem_cons] at h
    exact (run_bind_of_ok (checkDefined_run h.1)).trans (ih h.2)

/-- A new lowering has no names in scope. -/
theorem inScope_new (target : Version) (decls : Decls) (debug : Bool) :
    InScope (State.new target decls debug) [] [] := by
  refine ⟨?_, .nil, by simp [State.new], .nil⟩
  cases target <;> simp [State.new, Version.orStandard, Version.standard]

/-- **Building an expression of first order succeeds**, and the value of the
root comes to what the expression comes to. -/
theorem build_means (h : Typed [] e t) (target : Version) (decls : Decls) (debug : Bool) :
    ∃ id g, (build e).run (State.new target decls debug) = (.ok id, g) ∧
      g.target = target.orStandard ∧ UsedInside g ∧ Means g id (meaning [] [] e) := by
  have hsimple := h.simple (by simp)
  have hi0 := Graph.Inv.new target decls debug
  obtain ⟨x, s1, hr1, e1, -, hx⟩ :=
    lowerExprIn_lowersTyped _ h (Nat.lt_succ_self _) (inScope_new target decls debug)
  rw [← lowerExpr] at hr1
  obtain ⟨t1, k1⟩ := (lowerExpr_kept e).run hi0
  rw [hr1] at t1 k1
  obtain ⟨y, s2, hr2, e2, -, hy⟩ := upcast_lowered hx (.inl rfl) hsimple
  obtain ⟨t2, k2⟩ := (upcast_kept (k1 x rfl).2).run (t1.inv hi0)
  rw [hr2] at t2 k2
  obtain ⟨z, s3, hr3, e3, -, hz⟩ :=
    toRep_lowered hy (standardRep_simple s2.decls hsimple (h.has .nil))
  obtain ⟨t3, -⟩ := (toRep_kept (k2 y rfl).2).run (t2.inv (t1.inv hi0))
  rw [hr3] at t3
  have hused := t3.usedInside (t2.usedInside (t1.usedInside (.new target decls debug)))
  have hcheck := checkAll_run fun u hu => (hz.means.used hused hu).2.2
  refine ⟨z, s3, ?_, (e1.trans (e2.trans e3)).target, hused, hz.means⟩
  have hrun : (do
      let id ← lowerExpr e
      let id ← upcast id e.type e.span
      let id ← toRep id (← standardRep e.type)
      ((← get).usedOf id).ids.forM checkDefined
      return id : LowerM ValueId).run (State.new target decls debug) = (.ok z, s3) := by
    rw [h.type_eq, run_bind_of_ok hr1, run_bind_of_ok hr2,
      run_bind_of_ok (standardRep_run t), run_bind_of_ok hr3,
      run_bind_of_ok run_get, run_bind_of_ok hcheck, run_pure]
  rw [build, reporting, run_tryCatch, hrun]

end CoreLowering.FirstOrder
