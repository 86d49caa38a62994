import CoreLowering.Proofs.Graph.Arena

/-!
# How a lowering grows its graph

A lowering goes from state to state by a few kinds of changes: it adds a
node whose parts exist, adds a variable with a name of its own, defines a
variable, opens and closes scopes, and remembers views and helpers.  `Change`
lists them with what holds when they are made, and every invariant of the
graph is a consequence.

A recursive function closes a part of the graph off: the values between the
variable of the function and the function itself may use the variable before it
has its definition (`Closed`).  The hypotheses of `Change.node` say that such
values stay inside: the parts of a node that is the scope of a variable use, of
the variables that have no earlier definition, only those from before it, those
of the node and helpers.
-/

namespace CoreLowering.Graph

variable {s s' s'' : State} {id i : Nat} {v : Value} {n : Node} {l : Nat}
  {fs : List (List (String × ValueId))} {x f : Nat} {p : String × ValueId}
  {extra : List (String × ValueId)} {r v' : Value}

/-! ## Nodes -/

/-- The node of a value. -/
def State.node? (s : State) (id : Nat) : Option Node :=
  (s.value? id).map (·.node)

theorem node?_of_value (h : s.value? id = some v) : s.node? id = some v.node := by
  rw [State.node?, h, Option.map_some]

theorem value_of_node? (h : s.node? id = some n) : ∃ v, s.value? id = some v ∧ v.node = n :=
  Option.map_eq_some_iff.1 h

theorem valid_of_node? (h : s.node? id = some n) : Valid s id := by
  obtain ⟨v, hv, -⟩ := value_of_node? h
  exact valid_of_value hv

theorem value?_congr (h : s'.values = s.values) (i : Nat) : s'.value? i = s.value? i := by
  cases i <;> simp only [State.value?, h]

theorem node?_congr (h : s'.values = s.values) (i : Nat) : s'.node? i = s.node? i := by
  rw [State.node?, State.node?, value?_congr h]

/-- A variable that stands for the recursive function `F`. -/
def Closed (s : State) (f F : Nat) : Prop :=
  f < F ∧ ∃ n, s.node? f = some n ∧ n.rhs? = some F

/-- A helper function. -/
def IsHelper (s : State) (id : Nat) : Prop := ∃ key, (key, id) ∈ s.helpers

/-- The variables that a node gives values to when it is evaluated: the
parameter of a function, a recursive function in itself, and what a native
case takes out of its scrutinee. -/
def Node.binds : Node → List ValueId
  | .lambda param _ _ => param.toList
  | .fix self _ => [self]
  | .caseOf _ _ _ _ _ binders => binders.flatten
  | _ => []

theorem Node.scopeOf_of_binds {x : ValueId} (h : x ∈ n.binds) : x ∈ n.scopeOf := by
  cases n <;> simp_all [Node.binds, Node.scopeOf]

/-- A variable that no node gives a value to yet. -/
def Unclaimed (s : State) (id : Nat) : Prop :=
  ∀ i n, s.node? i = some n → id ∉ n.binds

/-- A variable without a definition. -/
def Blank (s : State) (id : Nat) : Prop := ∃ x, s.node? id = some (.var x none)

/-- A variable that is defined by a value from before it. -/
def Settled (s : State) (id : Nat) : Prop :=
  ∃ n r, s.node? id = some n ∧ n.rhs? = some r ∧ r < id

/-- A value that uses, of the variables that are not settled, helpers and those
in `K` only. -/
def UsesOnly (K : Nat → Prop) (s : State) (id : Nat) : Prop :=
  ∀ u : Nat, u ∈ (s.usedOf id).ids → Settled s u ∨ IsHelper s u ∨ K u

/-- A value that is no variable, or one that has been defined. -/
def Final (s : State) (id : Nat) : Prop :=
  ∃ n, s.node? id = some n ∧ (n.isIdentifiable = true → n.rhs?.isSome = true)

/-- A variable past `b` that a node may be made the scope of: no helper, and
nothing has been closed off around it. -/
structure Past (b x : Nat) (s : State) : Prop where
  lt : b < x
  valid : Valid s x
  around : ∀ f F, Closed s f F → f < x → F < x
  not_helper : ¬IsHelper s x

/-- A variable that is no alias. -/
def Node.isPlain : Node → Bool
  | .var _ _ => true
  | _ => false

/-- The variable that an alias is made of. -/
def Node.origin? : Node → Option ValueId
  | .aliased _ origin _ => some origin
  | _ => none

/-- The variable that a scope evaluates first is one of its own. -/
def Node.StrictOwned : Node → Prop
  | .letIn owned (some x) _ => x ∈ owned
  | _ => True

/-- What a view of `root` is: a constant, or an alias. -/
def Node.isViewOf (root : Nat) : Node → Bool
  | .const _ => true
  | .aliased _ origin _ => origin = root
  | _ => false

/-- A value made of a plain variable, of the same type. -/
def Stems (s : State) (id root : Nat) : Prop :=
  root < id ∧ ∃ v r, s.value? id = some v ∧ s.value? root = some r ∧ r.node.isPlain = true ∧
    v.type = r.type

/-- A value that shows a plain variable in the layout of a key. -/
def Shows (s : State) (root : Nat) (key : String) (id : Nat) : Prop :=
  Stems s id root ∧ ∃ v, s.value? id = some v ∧ v.node.isViewOf root = true ∧ v.rep.key = key

/-- What a helper is: a plain variable that has been defined. -/
def DefinedVar (s : State) (id : Nat) : Prop :=
  ∃ n, s.node? id = some n ∧ n.isPlain = true ∧ n.rhs?.isSome = true

/-! ## Names at the top -/

/-- The names of the outermost scope. -/
def State.globals (s : State) : List (String × ValueId) := s.scope.getLast?.getD []

/-- Names added to the last of the frames. -/
def addAllToLast (extra : List (String × ValueId)) (frames : List (List (String × ValueId))) :
    List (List (String × ValueId)) :=
  extra.foldr (fun p fs => addToLast p.1 p.2 fs) frames

theorem addToLast_ne_nil (x : String) (id : ValueId) (fs : List (List (String × ValueId))) :
    addToLast x id fs ≠ [] := by
  rcases fs with _ | ⟨_, _ | _⟩ <;> simp [addToLast]

theorem addAllToLast_ne_nil (extra : List (String × ValueId)) (h : fs ≠ []) :
    addAllToLast extra fs ≠ [] := by
  cases extra with
  | nil => exact h
  | cons p extra => exact addToLast_ne_nil _ _ _

/-- A name in the outermost frame is one from before or the new one. -/
theorem mem_addToLast {x : String} {id : ValueId} (h : p ∈ (addToLast x id fs).flatten) :
    p = (x, id) ∨ p ∈ fs.flatten := by
  induction fs with
  | nil => simpa [addToLast] using h
  | cons frame fs ih =>
    cases fs with
    | nil => simpa [addToLast] using h
    | cons frame' fs =>
      rw [addToLast, List.flatten_cons, List.mem_append] at h
      rw [List.flatten_cons, List.mem_append]
      · rcases h with h | h
        · exact .inr (.inl h)
        · exact (ih h).imp_right .inr
      · simp

theorem mem_addAllToLast (h : p ∈ (addAllToLast extra fs).flatten) :
    p ∈ extra ∨ p ∈ fs.flatten := by
  induction extra with
  | nil => exact .inr h
  | cons q extra ih =>
    rcases mem_addToLast h with rfl | h
    · exact .inl (by simp)
    · exact (ih h).imp_left (List.mem_cons_of_mem _)

theorem last_addToLast (x : String) (id : ValueId) (fs : List (List (String × ValueId))) :
    (addToLast x id fs).getLast?.getD [] = (x, id) :: fs.getLast?.getD [] := by
  induction fs with
  | nil => rfl
  | cons frame fs ih =>
    cases fs with
    | nil => rfl
    | cons frame' fs =>
      obtain ⟨a, as, h⟩ := List.exists_cons_of_ne_nil (addToLast_ne_nil x id (frame' :: fs))
      rw [addToLast, h, List.getLast?_cons_cons, ← h, ih, List.getLast?_cons_cons]
      simp

theorem mem_globals_addAllToLast (h : p ∈ (addAllToLast extra fs).getLast?.getD []) :
    p ∈ extra ∨ p ∈ fs.getLast?.getD [] := by
  induction extra with
  | nil => exact .inr h
  | cons q extra ih =>
    rw [addAllToLast, List.foldr_cons, last_addToLast] at h
    rcases List.mem_cons.1 h with rfl | h
    · exact .inl (List.mem_cons_self ..)
    · exact (ih h).imp_left (List.mem_cons_of_mem _)

/-! ## Changes -/

/-- The parts of a state that the graph and the scopes are made of. -/
def State.quiet (s : State) : State :=
  { s with
    aliases := 0
    bindings := 0
    inlined := 0
    warnings := 0
    reported := []
    points := [] }

/-- A change that a lowering makes.  It defines variables past `l` and makes
nodes their scopes only. -/
inductive Change (l : Nat) : State → State → Prop where
  /-- A node is added. -/
  | node {s : State} {node : Node} (type : Ty) (rep : Rep) (span : Span) :
      node.isIdentifiable = false →
      (∀ i ∈ node.subs, Valid s i) →
      (∀ i : Nat, i ∈ node.scopeOf →
        Past l i s ∧ (i ∈ node.binds → Unclaimed s i ∧ Blank s i) ∧
          ∀ j ∈ node.subs, UsesOnly (fun u => u ≤ i ∨ u ∈ node.scopeOf ∨ Blank s u) s j) →
      node.StrictOwned → Change l s ((newNode node type rep span).run s).2
  /-- A variable is added. -/
  | binder {s : State} (name : String) (type : Ty) (rep : Rep) (span : Span) :
      Change l s ((newBinder name type rep span).run s).2
  /-- An alias is added, of the type of its variable. -/
  | aliased {s : State} {root : Nat} {r : Value} (base : String) (rep : Rep) (span : Span) :
      s.value? root = some r → r.node.isPlain = true →
      Change l s ((freshName base >>= fun name =>
        allocVar (.aliased name root none) r.type rep span).run s).2
  /-- The last variable is defined by a value that was there before it. -/
  | define {s : State} {n : Node} {id rhs : Nat} : l < id → id = s.size → s.node? id = some n →
      n.isIdentifiable = true → n.rhs? = none → Unclaimed s id → Valid s rhs → rhs < id →
      Change l s ((setRhs id rhs).run s).2
  /-- A variable is defined by a recursive function that uses it. -/
  | close {s : State} {n : Node} {self rec F : Nat} : l < self → self < F → F = s.size →
      (∀ f G, Closed s f G → f < self → G < self) → s.node? self = some n →
      n.isPlain = true → n.rhs? = none → s.node? F = some (.fix self rec) →
      Change l s ((setRhs self F).run s).2
  /-- Something is noted down that has no bearing on the graph. -/
  | quiet {s s' : State} : s'.quiet = s.quiet → Change l s s'
  /-- Names get other meanings, those at the top apart. -/
  | scope {s : State} (frames : List (List (String × ValueId))) : frames ≠ [] →
      frames.getLast? = s.scope.getLast? → (∀ p ∈ frames.flatten, Valid s p.2) →
      Change l s { s with scope := frames }
  /-- A view is remembered. -/
  | view {s : State} {root id : Nat} (key : String) : Shows s root key id → Final s id →
      UsesOnly (fun u => u ∈ (s.usedOf root).ids) s id →
      Change l s { s with views := ((root, key), id) :: s.views }
  /-- A helper that has just been closed off is remembered, and its name may be
  given a meaning at the top. -/
  | helper {s : State} {id : Nat} (key : String) {names : List (String × ValueId)} :
      l < id → DefinedVar s id → Closed s id s.size → UsesOnly (fun u => u = id) s id →
      (∀ k, (k, id) ∉ s.helpers) → (∀ p ∈ names, p = (key, id)) →
      Change l s { s with
        scope := addAllToLast names s.scope
        helpers := (key, id) :: s.helpers }

/-- Some changes, one after the other. -/
inductive Trace (l : Nat) : State → State → Prop where
  | refl {s : State} : Trace l s s
  | step {s s' s'' : State} : Change l s s' → Trace l s' s'' → Trace l s s''

theorem Past.weaken {b b' x : Nat} (h : Past b x s) (hb : b' ≤ b) : Past b' x s :=
  { h with lt := Nat.lt_of_le_of_lt hb h.lt }

theorem Change.weaken {l' : Nat} (hl : l' ≤ l) (h : Change l s s') : Change l' s s' := by
  cases h with
  | node type rep span h1 h2 h3 h4 =>
    exact .node type rep span h1 h2 (fun i hi => ⟨(h3 i hi).1.weaken hl, (h3 i hi).2⟩) h4
  | binder name type rep span => exact .binder name type rep span
  | aliased base rep span h1 h2 => exact .aliased base rep span h1 h2
  | define h1 h2 h3 h4 h5 h6 h7 h8 => exact .define (by omega) h2 h3 h4 h5 h6 h7 h8
  | close h1 h2 h3 h4 h5 h6 h7 h8 => exact .close (by omega) h2 h3 h4 h5 h6 h7 h8
  | quiet h => exact .quiet h
  | scope frames h1 h2 h3 => exact .scope frames h1 h2 h3
  | view key h1 h2 h3 => exact .view key h1 h2 h3
  | helper key h1 h2 h3 h4 h5 h6 => exact .helper key (by omega) h2 h3 h4 h5 h6

theorem Trace.weaken {l' : Nat} (h : Trace l s s') (hl : l' ≤ l) : Trace l' s s' := by
  induction h with
  | refl => exact .refl
  | step h _ ih => exact .step (h.weaken hl) ih

theorem Trace.trans (h : Trace l s s') (h' : Trace l s' s'') : Trace l s s'' := by
  induction h with
  | refl => exact h'
  | step h _ ih => exact .step h (ih h')

theorem Trace.one (h : Change l s s') : Trace l s s' := .step h .refl

/-- What changes keep, traces keep. -/
theorem Trace.keeps {P : State → Prop} (h : Trace l s s')
    (hp : ∀ {s s'}, Change l s s' → P s → P s') : P s → P s' := by
  induction h with
  | refl => exact id
  | step h _ ih => exact ih ∘ hp h

/-! ## What a change does to the values -/

/-- The states agree on everything but the values and the names given
away. -/
structure SameRest (s s' : State) : Prop where
  target : s'.target = s.target
  decls : s'.decls = s.decls
  debug : s'.debug = s.debug
  usesFix : s'.usesFix = s.usesFix
  scope : s'.scope = s.scope
  views : s'.views = s.views
  helpers : s'.helpers = s.helpers

theorem Counted.sameRest (h : Counted s s') : SameRest s s' := by
  obtain ⟨h1, h2, h3, -, h4, h5, h6, -, -, h7, -⟩ := State.mk.inj h.rest
  exact ⟨h1, h2, h3, h7, h4, h5, h6⟩

/-- One value is added, and nothing else changes but counts of references. -/
structure Adds (s s' : State) (v : Value) : Prop extends SameRest s s' where
  size : s'.size = s.size + 1
  value? : ∀ i : Nat, (s'.value? i).map Value.core =
    if i = s.size + 1 then some v.core else (s.value? i).map Value.core

/-- One variable is defined, and nothing else changes but counts of
references. -/
structure Defines (s s' : State) (id rhs : Nat) (r : Value) : Prop
    extends SameRest s s' where
  size : s'.size = s.size
  value? : ∀ i : Nat, (s'.value? i).map Value.core =
    if i = id then (s.value? i).map fun x => (Value.defined id rhs r x).core
    else (s.value? i).map Value.core

theorem newNode_adds {node : Node} (type : Ty) (rep : Rep) (span : Span)
    (h : ∀ i ∈ node.subs, Valid s i) :
    Adds s ((newNode node type rep span).run s).2 (s.summed node type rep span) := by
  obtain ⟨s', hr, hc⟩ := newNode_run type rep span h
  rw [hr]
  refine { hc.sameRest with size := by rw [hc.size, size_push], value? := ?_ }
  intro i
  rw [hc.value? i, value?_push]
  split <;> rfl

/-- A value is added under a name that is not taken. -/
theorem named_push_adds (base : String) (v : Value) : Adds s ((s.named base).push v) v := by
  refine { target := rfl, decls := rfl, debug := rfl, usesFix := rfl, scope := rfl, views := rfl
           helpers := rfl, size := size_push _, value? := ?_ }
  intro i
  rw [value?_push]
  split <;> rename_i hi <;> simp_all

theorem newBinder_adds (name : String) (type : Ty) (rep : Rep) (span : Span) :
    Adds s ((newBinder name type rep span).run s).2
      (s.variable (.var (s.nextName name) none) type rep span) := by
  rw [newBinder_run]
  exact named_push_adds name _

theorem aliased_adds (base : String) (root : Nat) (type : Ty) (rep : Rep) (span : Span) :
    Adds s ((freshName base >>= fun name =>
        allocVar (.aliased name root none) type rep span).run s).2
      (s.variable (.aliased (s.nextName base) root none) type rep span) := by
  rw [run_bind_of_ok (freshName_run base), allocVar_run]
  exact named_push_adds base _

theorem setRhs_defines {rhs : Nat} (hn : s.node? id = some n) (hnone : n.rhs? = none)
    (hr : s.value? rhs = some r) (hne : rhs ≠ id) :
    Defines s ((setRhs id rhs).run s).2 id rhs r := by
  obtain ⟨x, hx, rfl⟩ := value_of_node? hn
  obtain ⟨s', hrun, hc⟩ := setRhs_run hx hnone hr hne
  rw [hrun]
  have hs := hc.sameRest
  refine ⟨⟨hs.target, hs.decls, hs.debug, hs.usesFix, hs.scope, hs.views, hs.helpers⟩, ?_, ?_⟩
  · rw [hc.size, size_bump]
  · intro i
    rw [hc.value? i, value?_bump (valid_of_value hx).1]
    split
    · rw [Option.map_map]
      rfl
    · rfl

theorem node?_eq_core : s.node? id = ((s.value? id).map Value.core).map (·.node) := by
  rw [Option.map_map]
  rfl

theorem Adds.node? (h : Adds s s' v) (i : Nat) :
    s'.node? i = if i = s.size + 1 then some v.node else s.node? i := by
  rw [node?_eq_core, h.value? i]
  split
  · rfl
  · rw [node?_eq_core]

theorem Defines.node? {rhs : Nat} (h : Defines s s' id rhs r) (i : Nat) :
    s'.node? i = if i = id then (s.node? i).map (Node.withRhs rhs) else s.node? i := by
  rw [node?_eq_core, h.value? i]
  split
  · simp only [State.node?, Option.map_map]
    rfl
  · rw [node?_eq_core]

theorem Node.rhs?_withRhs {rhs r : Nat} (h : (n.withRhs rhs).rhs? = some r) :
    r = rhs ∨ n.rhs? = some r := by
  cases n <;> simp_all [Node.withRhs, Node.rhs?]

theorem Node.binds_withRhs (n : Node) (rhs : Nat) : (n.withRhs rhs).binds = n.binds := by
  cases n <;> rfl

theorem Node.scopeOf_withRhs (n : Node) (rhs : Nat) : (n.withRhs rhs).scopeOf = n.scopeOf := by
  cases n <;> rfl

theorem Node.subs_withRhs (n : Node) (rhs : Nat) : (n.withRhs rhs).subs = n.subs := by
  cases n <;> rfl

theorem Node.isIdentifiable_withRhs (n : Node) (rhs : Nat) :
    (n.withRhs rhs).isIdentifiable = n.isIdentifiable := by
  cases n <;> rfl

theorem Node.isPlain_withRhs (n : Node) (rhs : Nat) : (n.withRhs rhs).isPlain = n.isPlain := by
  cases n <;> rfl

theorem Node.isViewOf_withRhs (root : Nat) (n : Node) (rhs : Nat) :
    (n.withRhs rhs).isViewOf root = n.isViewOf root := by
  cases n <;> rfl

/-! ## What stays -/

/-- Views and helpers are only added, and so are their names at the top. -/
structure Remembers (s s' : State) : Prop where
  views : ∀ p ∈ s.views, p ∈ s'.views
  helpers : ∀ p ∈ s.helpers, p ∈ s'.helpers
  globals : ∀ p ∈ s'.globals, p ∈ s.globals ∨ p ∈ s'.helpers

theorem SameRest.remembers (h : SameRest s s') : Remembers s s' :=
  ⟨by simp [h.views], by simp [h.helpers], fun p hp => .inl (by rwa [State.globals, ← h.scope])⟩

theorem IsHelper.mono (h : IsHelper s id) (hs : Remembers s s') : IsHelper s' id := by
  obtain ⟨key, hk⟩ := h
  exact ⟨key, hs.helpers _ hk⟩

theorem Adds.closed (h : Adds s s' v) (hv : v.node.rhs? = none) {F : Nat} (hc : Closed s' f F) :
    Closed s f F := by
  obtain ⟨hlt, n, hn, hr⟩ := hc
  rw [h.node?] at hn
  split at hn
  · cases hn
    simp [hv] at hr
  · exact ⟨hlt, n, hn, hr⟩

theorem Adds.valid (h : Adds s s' v) (hid : Valid s id) : Valid s' id :=
  ⟨hid.1, by have := hid.2; rw [h.size]; omega⟩

theorem Defines.closed {rhs : Nat} (h : Defines s s' x rhs r) {F : Nat} (hc : Closed s' f F) :
    Closed s f F ∨ f = x ∧ F = rhs := by
  obtain ⟨hlt, n, hn, hr⟩ := hc
  rw [h.node?] at hn
  split at hn
  · obtain ⟨m, hm, rfl⟩ := Option.map_eq_some_iff.1 hn
    rcases Node.rhs?_withRhs hr with rfl | hr
    · exact .inr ⟨by assumption, rfl⟩
    · exact .inl ⟨hlt, m, hm, hr⟩
  · exact .inl ⟨hlt, n, hn, hr⟩

theorem Defines.valid {rhs : Nat} (h : Defines s s' x rhs r) : Valid s' id ↔ Valid s id := by
  rw [Valid, Valid, h.size]

/-! ## How values evolve -/

/-- What becomes of a value: it keeps all that describes it, and a variable
without a definition may get one. -/
structure Value.Evolves (v v' : Value) : Prop where
  type : v'.type = v.type
  rep : v'.rep = v.rep
  span : v'.span = v.span
  direct : v'.direct = v.direct
  node : v'.node = v.node ∧ v'.used = v.used ∨
    v.node.rhs? = none ∧ ∃ rhs, v'.node = v.node.withRhs rhs

theorem Value.Evolves.refl (v : Value) : v.Evolves v :=
  ⟨rfl, rfl, rfl, rfl, .inl ⟨rfl, rfl⟩⟩

theorem Value.Evolves.of_core (h : v'.core = v.core) : v.Evolves v' := by
  simp only [Value.core, Value.mk.injEq] at h
  obtain ⟨h1, h2, h3, h4, h5, h6, -⟩ := h
  exact ⟨h2, h3, h4, h6, .inl ⟨h1, h5⟩⟩

theorem Node.withRhs_withRhs {a b : Nat} (h : (n.withRhs a).rhs? = none) :
    (n.withRhs a).withRhs b = n.withRhs b := by
  cases n <;> simp_all [Node.withRhs, Node.rhs?]

theorem Value.Evolves.trans {v'' : Value} (h : v.Evolves v') (h' : v'.Evolves v'') :
    v.Evolves v'' := by
  refine ⟨h'.type.trans h.type, h'.rep.trans h.rep, h'.span.trans h.span,
    h'.direct.trans h.direct, ?_⟩
  rcases h.node with ⟨hn, hu⟩ | ⟨hn, a, ha⟩ <;> rcases h'.node with ⟨hn', hu'⟩ | ⟨hn', b, hb⟩
  · exact .inl ⟨hn'.trans hn, hu'.trans hu⟩
  · exact .inr ⟨hn ▸ hn', b, hn ▸ hb⟩
  · exact .inr ⟨hn, a, hn'.trans ha⟩
  · rw [ha] at hn' hb
    exact .inr ⟨hn, b, hb.trans (Node.withRhs_withRhs hn')⟩

theorem Value.Evolves.isPlain (h : v.Evolves v') : v'.node.isPlain = v.node.isPlain := by
  rcases h.node with ⟨hn, -⟩ | ⟨-, a, ha⟩
  · rw [hn]
  · rw [ha, Node.isPlain_withRhs]

theorem Value.Evolves.isViewOf (h : v.Evolves v') (root : Nat) :
    v'.node.isViewOf root = v.node.isViewOf root := by
  rcases h.node with ⟨hn, -⟩ | ⟨-, a, ha⟩
  · rw [hn]
  · rw [ha, Node.isViewOf_withRhs]

/-- Every value evolves. -/
structure Evolves (s s' : State) : Prop where
  target : s'.target = s.target
  decls : s'.decls = s.decls
  debug : s'.debug = s.debug
  usesFix : s'.usesFix = s.usesFix
  size : s.size ≤ s'.size
  value? : ∀ (i : Nat) v, s.value? i = some v → ∃ v', s'.value? i = some v' ∧ v.Evolves v'

theorem Evolves.refl : Evolves s s :=
  ⟨rfl, rfl, rfl, rfl, Nat.le_refl _, fun _ v hv => ⟨v, hv, .refl v⟩⟩

theorem Evolves.trans (h : Evolves s s') (h' : Evolves s' s'') : Evolves s s'' := by
  refine ⟨h'.target.trans h.target, h'.decls.trans h.decls, h'.debug.trans h.debug,
    h'.usesFix.trans h.usesFix, Nat.le_trans h.size h'.size, fun i v hv => ?_⟩
  obtain ⟨v', hv', he⟩ := h.value? i v hv
  obtain ⟨v'', hv'', he'⟩ := h'.value? i v' hv'
  exact ⟨v'', hv'', he.trans he'⟩

theorem Evolves.valid (h : Evolves s s') (hid : Valid s id) : Valid s' id :=
  ⟨hid.1, Nat.le_trans hid.2 h.size⟩

theorem Adds.evolves (h : Adds s s' v) : Evolves s s' := by
  refine ⟨h.target, h.decls, h.debug, h.usesFix, by rw [h.size]; omega, fun i w hw => ?_⟩
  have hi := h.value? i
  have : i ≠ s.size + 1 := by have := (valid_of_value hw).2; omega
  rw [if_neg this, hw, Option.map_some] at hi
  obtain ⟨w', hw', hcore⟩ := Option.map_eq_some_iff.1 hi
  exact ⟨w', hw', .of_core hcore⟩

theorem Defines.evolves {rhs : Nat} (h : Defines s s' id rhs r) (hn : s.node? id = some n)
    (hnone : n.rhs? = none) : Evolves s s' := by
  refine ⟨h.target, h.decls, h.debug, h.usesFix, Nat.le_of_eq h.size.symm, fun i w hw => ?_⟩
  have hi := h.value? i
  split at hi <;> rename_i hid
  · subst hid
    rw [hw, Option.map_some] at hi
    obtain ⟨w', hw', hcore⟩ := Option.map_eq_some_iff.1 hi
    rw [node?_of_value hw, Option.some.injEq] at hn
    simp only [Value.core, Value.defined, Value.mk.injEq] at hcore
    obtain ⟨h1, h2, h3, h4, -, h6, -⟩ := hcore
    exact ⟨w', hw', h2, h3, h4, h6, .inr ⟨hn ▸ hnone, rhs, h1⟩⟩
  · rw [hw, Option.map_some] at hi
    obtain ⟨w', hw', hcore⟩ := Option.map_eq_some_iff.1 hi
    exact ⟨w', hw', .of_core hcore⟩

theorem Stems.mono {root : Nat} (h : Stems s id root) (he : Evolves s s') : Stems s' id root := by
  obtain ⟨hlt, v, r, hv, hr, hp, hty⟩ := h
  obtain ⟨v', hv', hev⟩ := he.value? _ _ hv
  obtain ⟨r', hr', her⟩ := he.value? _ _ hr
  exact ⟨hlt, v', r', hv', hr', her.isPlain.trans hp, hev.type.trans (hty.trans her.type.symm)⟩

theorem Shows.mono {root : Nat} {key : String} (h : Shows s root key id)
    (he : Evolves s s') : Shows s' root key id := by
  obtain ⟨hs, v, hv, hvo, hrep⟩ := h
  obtain ⟨v', hv', hev⟩ := he.value? _ _ hv
  exact ⟨hs.mono he, v', hv', (hev.isViewOf root).trans hvo, hev.rep ▸ hrep⟩

/-! ## What is added -/

theorem quiet_eq (h : s'.quiet = s.quiet) : s'.values = s.values ∧ SameRest s s' := by
  obtain ⟨h1, h2, h3, h4, h5, h6, h7, -, -, h8, -⟩ := State.mk.inj h
  exact ⟨h4, h1, h2, h3, h8, h5, h6, h7⟩

theorem Evolves.of_values (hv : s'.values = s.values) (ht : s'.target = s.target)
    (hd : s'.decls = s.decls) (hb : s'.debug = s.debug) (hf : s'.usesFix = s.usesFix) :
    Evolves s s' :=
  ⟨ht, hd, hb, hf, Nat.le_of_eq (by rw [State.size, State.size, hv]),
    fun i v h => ⟨v, (value?_congr hv i).trans h, .refl v⟩⟩

/-- A value that is added: a node, or a variable with a name of its own. -/
inductive Added (s s' : State) : Value → Prop where
  | node {node : Node} (type : Ty) (rep : Rep) (span : Span) : node.isIdentifiable = false →
      s'.taken = s.taken → Added s s' (s.summed node type rep span)
  | var {node : Node} (base : String) (type : Ty) (rep : Rep) (span : Span) :
      node.isIdentifiable = true → node.rhs? = none → node.name = s.nextName base →
      s'.taken = node.name :: s.taken → Added s s' (s.variable node type rep span)

theorem Added.rhs? (h : Added s s' v) : v.node.rhs? = none := by
  cases h with
  | @node node _ _ _ hid => cases node <;> first | rfl | cases hid
  | var _ _ _ _ _ hnone => exact hnone

theorem Counted.taken (h : Counted s s') : s'.taken = s.taken :=
  (congrArg State.taken h.rest :)

theorem setRhs_taken {rhs : Nat} (hn : s.node? id = some n) (hnone : n.rhs? = none)
    (hr : s.value? rhs = some r) (hne : rhs ≠ id) : ((setRhs id rhs).run s).2.taken = s.taken := by
  obtain ⟨x, hx, rfl⟩ := value_of_node? hn
  obtain ⟨s', hrun, hc⟩ := setRhs_run hx hnone hr hne
  rw [hrun]
  exact hc.taken

theorem Node.isIdentifiable_of_plain (h : n.isPlain = true) : n.isIdentifiable = true := by
  cases n <;> first | rfl | cases h

end CoreLowering.Graph
