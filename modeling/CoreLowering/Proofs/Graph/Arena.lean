import CoreLowering.Proofs.Graph.Run

/-!
# The values of the graph and how they change

Values are numbered from one on.  Once there, a value keeps its type, its
layout, its span and its node, except that a variable without a definition
may get one.  `Value.Evolves` says so for one value and `Evolves` for the
whole graph.

Main statements: `newNode_run`, `newBinder_run` and `setRhs_run`, what the
three ways to change the graph do when the values they refer to exist.
-/

namespace CoreLowering.Graph

variable {s s' s'' : State} {id i : Nat} {v : Value} {f : Value → Value}

/-! ## Looking up values -/

/-- A number that some value has. -/
def Valid (s : State) (id : Nat) : Prop := 0 < id ∧ id ≤ s.size

theorem value?_eq_some_iff : s.value? id = some v ↔ ∃ n, id = n + 1 ∧ s.values[n]? = some v := by
  cases id with
  | zero => simp [State.value?]
  | succ n => simp [State.value?]

theorem Valid.exists_value (h : Valid s id) : ∃ v, s.value? id = some v := by
  obtain ⟨h0, h1⟩ := h
  obtain ⟨n, rfl⟩ : ∃ n, id = n + 1 := ⟨id - 1, by omega⟩
  have hn : n < s.values.size := h1
  exact ⟨s.values[n], by simp [State.value?, hn]⟩

theorem valid_of_value (h : s.value? id = some v) : Valid s id := by
  obtain ⟨n, rfl, hn⟩ := value?_eq_some_iff.1 h
  obtain ⟨hlt, -⟩ := Array.getElem?_eq_some_iff.1 hn
  exact ⟨by omega, hlt⟩

theorem value?_of_size_lt (h : s.size < id) : s.value? id = none := by
  cases hv : s.value? id with
  | none => rfl
  | some v => exact absurd (valid_of_value hv).2 (by omega)

theorem value_run (h : s.value? id = some v) : (value id).run s = (.ok v, s) := by
  simp only [value, run_bind, run_get, h, run_pure]

theorem run_value_ok : (value id).run s = (.ok v, s') ↔ s.value? id = some v ∧ s' = s := by
  cases h : s.value? id with
  | some w => rw [value_run h]; simp [eq_comm]
  | none =>
    simp only [value, run_bind, run_get, h, failAt, fail]
    simp [point]

/-! ## Changing one value -/

/-- The state with the value of a number changed. -/
def State.bump (s : State) (id : Nat) (f : Value → Value) : State :=
  { s with values := s.values.modify (id - 1) f }

@[simp]
theorem update_run (f : Value → Value) : (update id f).run s = (.ok (), s.bump id f) := rfl

@[simp]
theorem size_bump (f : Value → Value) : (s.bump id f).size = s.size := by
  simp [State.bump, State.size]

theorem value?_bump (h : 0 < id) (f : Value → Value) :
    (s.bump id f).value? i = if i = id then (s.value? i).map f else s.value? i := by
  cases i with
  | zero =>
    have : ¬0 = id := by omega
    simp [State.value?, this]
  | succ n =>
    simp only [State.value?, State.bump, Array.getElem?_modify]
    by_cases hn : id - 1 = n
    · have : n + 1 = id := by omega
      simp [hn, this]
    · have : ¬n + 1 = id := by omega
      simp [hn, this]

/-! ## Adding a value -/

/-- The state with one more value. -/
def State.push (s : State) (v : Value) : State :=
  { s with values := s.values.push v }

@[simp]
theorem alloc_run (v : Value) : (alloc v).run s = (.ok (s.size + 1), s.push v) := rfl

@[simp]
theorem size_push (v : Value) : (s.push v).size = s.size + 1 := by
  simp [State.push, State.size]

theorem value?_push (v : Value) :
    (s.push v).value? i = if i = s.size + 1 then some v else s.value? i := by
  cases i with
  | zero => simp [State.value?]
  | succ n =>
    simp only [State.value?, State.push, Array.getElem?_push, State.size]
    by_cases hn : n = s.values.size <;> simp [hn]

/-! ## Counting references -/

/-- A value without its counts of references. -/
def Value.core (v : Value) : Value :=
  { v with refs := 0, slots := 0, dependedBy := [] }

/-- Two states that differ in counts of references only. -/
structure Counted (s s' : State) : Prop where
  cores : s'.values.map Value.core = s.values.map Value.core
  rest : { s' with values := #[] } = { s with values := #[] }

namespace Counted

theorem refl : Counted s s := ⟨rfl, rfl⟩

theorem trans (h : Counted s s') (h' : Counted s' s'') : Counted s s'' :=
  ⟨h'.cores.trans h.cores, h'.rest.trans h.rest⟩

theorem size (h : Counted s s') : s'.size = s.size := by
  simpa only [State.size, Array.size_map] using congrArg Array.size h.cores

theorem value? (h : Counted s s') (id : Nat) :
    (s'.value? id).map Value.core = (s.value? id).map Value.core := by
  cases id with
  | zero => rfl
  | succ n =>
    have hn := congrArg (·[n]?) h.cores
    simpa only [State.value?, Array.getElem?_map] using hn

/-- A value has the same core in both states. -/
theorem exists_value (h : Counted s s') (hv : s.value? id = some v) :
    ∃ v', s'.value? id = some v' ∧ v'.core = v.core := by
  have hc := h.value? id
  rw [hv, Option.map_some] at hc
  exact Option.map_eq_some_iff.1 hc

theorem valid (h : Counted s s') : Valid s' id ↔ Valid s id := by
  rw [Valid, Valid, h.size]

/-- Changing counts of one value. -/
theorem bump (hf : ∀ v, (f v).core = v.core) : Counted s (s.bump id f) := by
  refine ⟨?_, rfl⟩
  apply Array.ext
  · simp [State.bump]
  · intro k h1 h2
    simp only [State.bump, Array.getElem_map, Array.getElem_modify]
    split
    · exact hf _
    · rfl

/-- One and the same change of a value in both states. -/
theorem bump_both (h : Counted s s') (id : Nat)
    (hf : ∀ v v', v'.core = v.core → (f v').core = (f v).core) :
    Counted (s.bump id f) (s'.bump id f) := by
  refine ⟨?_, by simpa only [State.bump] using h.rest⟩
  apply Array.ext
  · simpa [State.bump] using congrArg Array.size h.cores
  · intro k h1 h2
    simp only [Array.size_map, State.bump, Array.size_modify] at h1 h2
    have hk : (s'.values[k]).core = (s.values[k]).core := by
      have := congrArg (·[k]?) h.cores
      simpa [h1, h2] using this
    simp only [State.bump, Array.getElem_map, Array.getElem_modify]
    split
    · exact hf _ _ hk
    · exact hk

end Counted

/-- Steps each of which changes counts only, one after the other. -/
theorem forM_counted {α : Type} {f : α → LowerM Unit} {l : List α}
    (h : ∀ a ∈ l, ∀ s₁, Counted s s₁ →
      ∃ s₂, (f a).run s₁ = (.ok (), s₂) ∧ Counted s₁ s₂) :
    ∃ s', (l.forM f).run s = (.ok (), s') ∧ Counted s s' := by
  induction l generalizing s with
  | nil => exact ⟨s, rfl, .refl⟩
  | cons a l ih =>
    obtain ⟨s₁, hr, hc⟩ := h a (by simp) s .refl
    obtain ⟨s', hr', hc'⟩ := ih fun b hb s₂ hs2 =>
      h b (by simp [hb]) s₂ (hc.trans hs2)
    have hcons : ((a :: l).forM f).run s = (l.forM f).run s₁ := run_bind_of_ok hr
    exact ⟨s', hcons.trans hr', hc.trans hc'⟩

theorem addRefs_run (n : Nat) : ∃ s', (addRefs id n).run s = (.ok (), s') ∧ Counted s s' :=
  ⟨_, rfl, .bump fun _ => rfl⟩

theorem noteSlot_run (h : Valid s id) :
    ∃ s', (noteSlot id).run s = (.ok (), s') ∧ Counted s s' := by
  obtain ⟨v, hv⟩ := h.exists_value
  simp only [noteSlot, run_bind_of_ok (value_run hv)]
  split
  · exact addRefs_run 1
  · rw [run_bind_of_ok (update_run _)]
    have h1 : Counted s (s.bump id fun v => { v with slots := v.slots + 1 }) :=
      .bump fun _ => rfl
    split
    · obtain ⟨s', hr, hc⟩ := forM_counted (f := fun (p : ValueId × Nat) => addRefs p.1 p.2)
        (l := v.direct.entries) fun p _ s1 _ => addRefs_run p.2
      exact ⟨s', hr, h1.trans hc⟩
    · exact ⟨_, rfl, h1⟩

/-! ## Adding a node -/

/-- Looking at values changes nothing. -/
theorem forM_value_run {ids : List ValueId} (h : ∀ i ∈ ids, Valid s i) :
    (ids.forM fun i => do let _ ← value i).run s = (.ok (), s) := by
  induction ids with
  | nil => rfl
  | cons i ids ih =>
    obtain ⟨v, hv⟩ := (h i (by simp)).exists_value
    have hi : (do let _ ← value i : LowerM Unit).run s = (.ok (), s) :=
      run_bind_of_ok (value_run hv)
    have hcons := run_bind_of_ok (f := fun _ => ids.forM fun i => do let _ ← value i) hi
    exact hcons.trans (ih fun j hj => h j (by simp [hj]))

/-- A node that is added, summed up from its parts. -/
def State.summed (s : State) (node : Node) (type : Ty) (rep : Rep) (span : Span) : Value :=
  let s := s.push (.new node type rep span)
  { Value.new node type rep span with used := s.usedBy node, direct := s.directBy node }

theorem push_bump (v : Value) (f : Value → Value) :
    (s.push v).bump (s.size + 1) f = s.push (f v) := by
  have : (s.values.push v).modify s.values.size f = s.values.push (f v) := by
    apply Array.ext
    · simp
    · intro k h1 h2
      simp only [Array.getElem_modify, Array.getElem_push]
      split <;> rename_i hk
      · subst hk
        simp
      · have : k < s.values.size := by
          simp only [Array.size_push] at h2
          omega
        simp [this]
  simp only [State.bump, State.push, State.size, Nat.add_sub_cancel, this]

/-- **Adding a node** whose parts exist: it gets the next number, and apart
from it only counts of references change. -/
theorem newNode_run {node : Node} (type : Ty) (rep : Rep) (span : Span)
    (h : ∀ i ∈ node.subs, Valid s i) :
    ∃ s', (newNode node type rep span).run s = (.ok (s.size + 1), s') ∧
      Counted (s.push (s.summed node type rep span)) s' := by
  have hp : ∀ i ∈ node.subs, Valid (s.push (.new node type rep span)) i := fun i hi =>
    ⟨(h i hi).1, by have := (h i hi).2; simp only [size_push]; omega⟩
  obtain ⟨s1, hr, hc⟩ := forM_counted (f := noteSlot) (l := node.subs) fun i hi s1 hs1 =>
    noteSlot_run (hs1.valid.2 (hp i hi))
  let sum : Value → Value := fun v => { v with
    used := (s.push (.new node type rep span)).usedBy node
    direct := (s.push (.new node type rep span)).directBy node }
  have hsum : ∀ v v', Value.core v' = Value.core v → (sum v').core = (sum v).core := by
    intro v v' hv
    simp only [Value.core, Value.mk.injEq, sum] at hv ⊢
    simp_all
  refine ⟨s1.bump (s.size + 1) sum, ?_, ?_⟩
  · rw [newNode, run_bind_of_ok (alloc_run _), run_bind_of_ok (forM_value_run hp),
      run_bind_of_ok run_get, run_bind_of_ok hr, run_bind_of_ok (update_run _), run_pure]
  · have hb := hc.bump_both (s.size + 1) hsum
    rwa [push_bump] at hb

/-! ## Adding a variable -/

/-- The name that is given away next for a base name. -/
def State.nextName (s : State) (base : String) : String :=
  numbered (Name.clean base) (firstFree s.taken (Name.clean base) (s.taken.length + 1)
    ((s.counters.lookup (Name.clean base)).getD 0))

/-- The state after a name has been given away. -/
def State.named (s : State) (base : String) : State :=
  ((freshName base).run s).2

theorem freshName_run (base : String) :
    (freshName base).run s = (.ok (s.nextName base), s.named base) := rfl

@[simp]
theorem named_values (base : String) : (s.named base).values = s.values := rfl

@[simp]
theorem named_taken (base : String) : (s.named base).taken = s.nextName base :: s.taken := rfl

@[simp]
theorem size_named (base : String) : (s.named base).size = s.size := rfl

@[simp]
theorem value?_named (base : String) : (s.named base).value? id = s.value? id := rfl

/-- A variable that is added. -/
def State.variable (s : State) (node : Node) (type : Ty) (rep : Rep) (span : Span) : Value :=
  { Value.new node type rep span with used := .single (s.size + 1) }

/-- **Adding a variable.** -/
theorem allocVar_run (node : Node) (type : Ty) (rep : Rep) (span : Span) :
    (allocVar node type rep span).run s =
      (.ok (s.size + 1), s.push (s.variable node type rep span)) := by
  rw [allocVar, run_bind_of_ok (alloc_run _), run_bind_of_ok (update_run _), run_pure,
    push_bump]
  rfl

theorem newBinder_run (name : String) (type : Ty) (rep : Rep) (span : Span) :
    (newBinder name type rep span).run s =
      (.ok (s.size + 1),
        (s.named name).push (s.variable (.var (s.nextName name) none) type rep span)) := by
  rw [newBinder, run_bind_of_ok (freshName_run name), allocVar_run]
  rfl

/-! ## Defining a variable -/

/-- The variables that a definition refers to. -/
def depsOf (rhs : ValueId) (r : Value) : List ValueId :=
  if r.node.isIdentifiable then [rhs]
  else (VarSet.ofList (r.direct.entries.map (·.1))).ids.filter r.used.has

/-- A variable with its definition. -/
def Value.defined (id rhs : ValueId) (r x : Value) : Value :=
  { x with
    node := x.node.withRhs rhs
    used := (VarSet.single id).union r.used
    dependsOn := depsOf rhs r }

theorem depsOf_core {rhs : ValueId} {r r' : Value} (h : r'.core = r.core) :
    depsOf rhs r' = depsOf rhs r := by
  simp only [Value.core, Value.mk.injEq] at h
  obtain ⟨h1, -, -, -, h2, h3, -⟩ := h
  simp only [depsOf, h1, h2, h3]

theorem bump_bump (f g : Value → Value) : (s.bump id f).bump id g = s.bump id fun v => g (f v) := by
  have : (s.values.modify (id - 1) f).modify (id - 1) g =
      s.values.modify (id - 1) fun v => g (f v) := by
    apply Array.ext
    · simp
    · intro k h1 h2
      simp only [Array.getElem_modify]
      split <;> rfl
  simp only [State.bump, this]

/-- How a variable is defined: it gets its node, the definition is counted, and
what it uses is noted down at both ends. -/
theorem setRhs_steps {rhs : Nat} {x r : Value} (hx : s.value? id = some x)
    (hnone : x.node.rhs? = none) (hr : s.value? rhs = some r) (hne : rhs ≠ id) :
    let s₁ := s.bump id fun v => { v with node := v.node.withRhs rhs }
    ∃ s₂ r', (noteSlot rhs).run s₁ = (.ok (), s₂) ∧ Counted s₁ s₂ ∧ r'.core = r.core ∧
      (setRhs id rhs).run s = ((depsOf rhs r').forM fun d =>
        update d fun v => { v with dependedBy := v.dependedBy ++ [id] }).run (s₂.bump id fun v =>
          { v with used := (VarSet.single id).union r'.used, dependsOn := depsOf rhs r' }) := by
  intro s₁
  have hr1 : s₁.value? rhs = some r := by
    rw [value?_bump (valid_of_value hx).1, if_neg hne, hr]
  obtain ⟨s₂, hn, hc⟩ := noteSlot_run (valid_of_value hr1)
  obtain ⟨r', hr', hcore⟩ := hc.exists_value hr1
  refine ⟨s₂, r', hn, hc, hcore, ?_⟩
  rw [setRhs, run_bind_of_ok (value_run hx), hnone]
  simp only [Option.isSome_none, Bool.false_eq_true, if_false]
  rw [run_bind_of_ok (update_run _), run_bind_of_ok hn, recordDeps,
    run_bind_of_ok (value_run hr'), run_bind_of_ok (update_run _)]
  rfl

/-- **Defining a variable** by another value: only the variable and counts of
references change. -/
theorem setRhs_run {rhs : Nat} {x r : Value} (hx : s.value? id = some x)
    (hnone : x.node.rhs? = none) (hr : s.value? rhs = some r) (hne : rhs ≠ id) :
    ∃ s', (setRhs id rhs).run s = (.ok (), s') ∧
      Counted (s.bump id (Value.defined id rhs r)) s' := by
  obtain ⟨s2, r', -, hc, hcore, hrun⟩ := setRhs_steps hx hnone hr hne
  let f : Value → Value := fun v => { v with node := v.node.withRhs rhs }
  let g : Value → Value := fun v =>
    { v with used := (VarSet.single id).union r'.used, dependsOn := depsOf rhs r' }
  obtain ⟨s3, hd, hc3⟩ := forM_counted (s := s2.bump id g) (l := depsOf rhs r')
    (f := fun d => update d fun v => { v with dependedBy := v.dependedBy ++ [id] })
    fun d _ s1 _ => ⟨_, update_run _, .bump fun _ => rfl⟩
  refine ⟨s3, hrun.trans hd, ?_⟩
  have hused : r'.used = r.used := by
    simpa only [Value.core] using congrArg Value.used hcore
  have hb := hc.bump_both id (f := g) fun v v' hv => by
    simp only [Value.core, Value.mk.injEq, g] at hv ⊢
    simp_all
  rw [bump_bump] at hb
  have heq : (fun v => g (f v)) = Value.defined id rhs r := by
    funext v
    simp only [g, f, Value.defined, hused, depsOf_core hcore]
  rw [heq] at hb
  exact hb.trans hc3

end CoreLowering.Graph
