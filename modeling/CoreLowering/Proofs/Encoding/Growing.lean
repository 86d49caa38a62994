import CoreLowering.Proofs.Encoding.Shape

/-!
# Values of graphs that grow

While a graph grows a value keeps its node, its type, its layout and what it
uses, unless it is a variable that gets its definition.  `Later lo s g` says
so of all values past `lo`.  What is read off a graph under construction is
therefore stated for every later graph at once, the finished one among them.

`Is` is the record of a value that uses what its parts use; all values do that
are the scope of no variable.
-/

namespace CoreLowering

open CoreLowering.Graph
open CoreLowering.FirstOrder (Extends Lands)

variable {α β : Type} {g s s' s'' : State} {lo id i u : Nat} {n : Node} {t : Ty} {r : Rep}
  {c : Constant} {a : α} {name : String}

namespace Encoding

/-- A later graph, in which the values past `lo` are what they were, counts of
references apart. -/
structure Later (lo : Nat) (s g : State) : Prop where
  target : g.target = s.target
  decls : g.decls = s.decls
  size : s.size ≤ g.size
  value : ∀ i v, lo < i → s.value? i = some v → ∃ w, g.value? i = some w ∧ w.core = v.core

end Encoding

theorem FirstOrder.Extends.later (h : Extends s s') : Encoding.Later lo s s' :=
  ⟨h.target, h.decls, h.size, fun i v _ => h.value i v⟩

theorem FirstOrder.Extends.valid (h : Extends s s') (hv : Valid s id) : Valid s' id :=
  ⟨hv.1, Nat.le_trans hv.2 h.size⟩

namespace Encoding

namespace Later

theorem refl : Later lo s s :=
  ⟨rfl, rfl, Nat.le_refl _, fun _ v _ hv => ⟨v, hv, rfl⟩⟩

theorem trans (h : Later lo s s') (h' : Later lo s' s'') : Later lo s s'' where
  target := h'.target.trans h.target
  decls := h'.decls.trans h.decls
  size := Nat.le_trans h.size h'.size
  value := by
    intro i v hi hv
    obtain ⟨w, hw, hwv⟩ := h.value i v hi hv
    obtain ⟨x, hx, hxw⟩ := h'.value i w hi hw
    exact ⟨x, hx, hxw.trans hwv⟩

theorem anti {hi : Nat} (h : Later lo s s') (hlo : lo ≤ hi) : Later hi s s' :=
  ⟨h.target, h.decls, h.size, fun i v hlt => h.value i v (Nat.lt_of_le_of_lt hlo hlt)⟩

theorem of_values (ht : s'.target = s.target) (hd : s'.decls = s.decls)
    (hv : s'.values = s.values) : Later lo s s' := by
  refine ⟨ht, hd, Nat.le_of_eq (congrArg Array.size hv.symm), fun i v _ hi => ⟨v, ?_, rfl⟩⟩
  cases i with
  | zero => exact hi
  | succ n => simpa only [State.value?, hv] using hi

/-- A variable gets its definition. -/
theorem of_defines {rhs : Nat} {r : Value} (h : Defines s s' id rhs r)
    (hid : id ≤ lo) : Later lo s s' := by
  refine ⟨h.target, h.decls, Nat.le_of_eq h.size.symm, fun i v hi hv => ?_⟩
  have hvalue := h.value? i
  rw [if_neg (by omega), hv, Option.map_some] at hvalue
  exact Option.map_eq_some_iff.1 hvalue

/-- A variable that was not there before gets its definition. -/
theorem defines {rhs : Nat} {r : Value} (h : Later lo s s')
    (hd : Defines s' s'' id rhs r) (hid : s.size < id) : Later lo s s'' := by
  refine ⟨hd.target.trans h.target, hd.decls.trans h.decls, hd.size ▸ h.size, ?_⟩
  intro i v hi hv
  obtain ⟨w, hw, hcore⟩ := h.value i v hi hv
  have hne : i ≠ id := by
    have := (valid_of_value hv).2
    omega
  have hvalue := hd.value? i
  rw [if_neg hne, hw, Option.map_some] at hvalue
  obtain ⟨x, hx, hxw⟩ := Option.map_eq_some_iff.1 hvalue
  exact ⟨x, hx, hxw.trans hcore⟩

theorem valid (h : Later lo s g) (hv : Valid s id) : Valid g id :=
  ⟨hv.1, Nat.le_trans hv.2 h.size⟩

theorem node? (h : Later lo s g) (hid : lo < id) (hn : s.node? id = some n) :
    g.node? id = some n := by
  obtain ⟨v, hv, rfl⟩ := value_of_node? hn
  obtain ⟨w, hw, hcore⟩ := h.value id v hid hv
  rw [Graph.node?_of_value hw, FirstOrder.node_of_core hcore]

theorem usedOf (h : Later lo s g) (hid : lo < id) (hv : Valid s id) :
    g.usedOf id = s.usedOf id := by
  obtain ⟨v, hv⟩ := hv.exists_value
  obtain ⟨w, hw, hcore⟩ := h.value id v hid hv
  have hused : w.core.used = v.core.used := by rw [hcore]
  rw [usedOf_of_value hw, usedOf_of_value hv]
  exact hused

end Later

/-! ## What is known of a value -/

/-- The value has the node, the type and the layout. -/
def At (s : State) (id : Nat) (n : Node) (t : Ty) (r : Rep) : Prop :=
  ∃ v, s.value? id = some v ∧ v.node = n ∧ v.type = t ∧ v.rep = r

namespace At

theorem node (h : At s id n t r) : s.node? id = some n := by
  obtain ⟨v, hv, rfl, -⟩ := h
  exact Graph.node?_of_value hv

theorem valid (h : At s id n t r) : Valid s id :=
  valid_of_node? h.node

theorem later (h : At s id n t r) (hl : Later lo s g) (hid : lo < id) : At g id n t r := by
  obtain ⟨v, hv, rfl, rfl, rfl⟩ := h
  obtain ⟨w, hw, hcore⟩ := hl.value id v hid hv
  simp only [Value.core, Value.mk.injEq] at hcore
  exact ⟨w, hw, hcore.1, hcore.2.1, hcore.2.2.1⟩

end At

/-- Whether a node is an operation, so that its value is neither known nor a
view of another one. -/
def isOperation : Node → Bool
  | .builtin _ _ | .caseOf _ _ _ _ _ _ | .letIn _ _ _ => true
  | _ => false

theorem At.constant?_of_operation (h : At s id n t r) (hn : isOperation n = true) :
    s.constant? id = none := by
  obtain ⟨v, hv, rfl, -, -⟩ := h
  rw [State.constant?, State.constantReach, State.constantIn, hv]
  cases hnode : v.node <;> rw [hnode] at hn <;> first | simp only [hnode]; done | cases hn

/-- A variable without a definition is no known constant. -/
theorem constant?_of_blank (h : Blank s id) : s.constant? id = none := by
  obtain ⟨x, hx⟩ := h
  obtain ⟨v, hv, hn⟩ := value_of_node? hx
  simp [State.constant?, State.constantReach, State.constantIn, hv, hn]

/-- Variables are there already, operations have to be done. -/
theorem At.isEffortless (h : At s id n t r) (hn : n.isIdentifiable = true ∨ isOperation n = true) :
    s.isEffortless id = n.isIdentifiable := by
  obtain ⟨v, hv, rfl, -, -⟩ := h
  rw [State.isEffortless, State.underViews, State.underViewsIn, hv]
  cases hnode : v.node <;> simp_all [Node.isIdentifiable, isOperation]

/-- The values that a node is put together from. -/
def Part (n : Node) (x : Nat) : Prop := n.rhs? = some x ∨ x ∈ n.subs

section

variable {x y : Nat}

@[simp]
theorem part_const : ¬Part (.const c) x := by
  simp [Part, Node.rhs?, Node.subs]

@[simp]
theorem part_var : Part (.var name (some y)) x ↔ x = y := by
  simp [Part, Node.rhs?, Node.subs, eq_comm]

@[simp]
theorem part_aliased {o : ValueId} : Part (.aliased name o (some y)) x ↔ x = y := by
  simp [Part, Node.rhs?, Node.subs, eq_comm]

@[simp]
theorem part_builtin {f : Builtin} {args : List ValueId} : Part (.builtin f args) x ↔ x ∈ args := by
  simp [Part, Node.rhs?, Node.subs]

@[simp]
theorem part_apply {fn arg : Nat} : Part (.apply fn arg) x ↔ x = fn ∨ x = arg := by
  simp [Part, Node.rhs?, Node.subs]

@[simp]
theorem part_reinterpret : Part (.reinterpret y) x ↔ x = y := by
  simp [Part, Node.rhs?, Node.subs]

end

/-- The value has the node, the type and the layout, it comes after its parts,
and it uses what they use, and itself if it is a variable. -/
structure Is (s : State) (id : Nat) (n : Node) (t : Ty) (r : Rep) : Prop where
  known : At s id n t r
  parts : ∀ x, Part n x → Valid s x
  before : ∀ x, Part n x → x < id
  used : ∀ u : Nat, u ∈ (s.usedOf id).ids ↔
    u = id ∧ n.isIdentifiable = true ∨ ∃ x, Part n x ∧ u ∈ (s.usedOf x).ids

namespace Is

theorem node (h : Is s id n t r) : s.node? id = some n := h.known.node

theorem valid (h : Is s id n t r) : Valid s id := h.known.valid

theorem later_of_used (h : Is s id n t r) (hl : Later lo s g) (hid : lo < id)
    (hparts : ∀ x, Part n x → g.usedOf x = s.usedOf x) : Is g id n t r := by
  refine ⟨h.known.later hl hid, fun x hx => hl.valid (h.parts x hx), h.before, fun u => ?_⟩
  rw [hl.usedOf hid h.valid, h.used]
  refine or_congr_right (exists_congr fun x => and_congr_right fun hx => ?_)
  rw [hparts x hx]

theorem later (h : Is s id n t r) (hl : Later lo s g) (hid : lo < id)
    (hparts : ∀ x, Part n x → lo < x) : Is g id n t r :=
  h.later_of_used hl hid fun x hx => hl.usedOf (hparts x hx) (h.parts x hx)

theorem grow (h : Is s id n t r) (hl : Later 0 s g) : Is g id n t r :=
  h.later hl h.valid.1 fun x hx => (h.parts x hx).1

/-- A value that binds nothing is tidy if its parts are. -/
theorem tidy {Δ : List ValueId} (h : Is g id n t r) (hflat : isFlat n = true)
    (hstrict : strict? n = none) (hparts : ∀ x, Part n x → Tidy g Δ x) : Tidy g Δ id := by
  refine .node h.node hflat fun x hx => hparts x ?_
  rw [reach, hstrict, Option.toList_none, List.nil_append, List.mem_append, Option.mem_toList] at hx
  exact hx

end Is

/-! ## Steps -/

section

variable {type : Ty} {rep : Rep} {span : Span} {rhs : Nat}

theorem newNode_at (h : ∀ i ∈ n.subs, Valid s i) :
    Lands (newNode n type rep span) s fun id s' =>
      (id = s.size + 1 ∧ s'.size = id) ∧ At s' id n type rep ∧ s'.usedOf id = s.usedBy n := by
  refine (FirstOrder.newNode_lands h).mono ?_
  rintro id s' - ⟨hid, v, hv, hn, ht, hr, hu⟩
  exact ⟨hid, ⟨v, hv, hn, ht, hr⟩, by rw [usedOf_of_value hv, hu]⟩

/-- A node that is the scope of no variable. -/
theorem newNode_is (hid : n.isIdentifiable = false) (hscope : n.scopeOf = [])
    (h : ∀ i ∈ n.subs, Valid s i) :
    Lands (newNode n type rep span) s fun id s' => s.size < id ∧ Is s' id n type rep := by
  have hrhs : n.rhs? = none := by
    cases n <;> first | rfl | cases hid
  refine (newNode_at h).mono ?_
  rintro id s' he ⟨⟨rfl, -⟩, hat, hu⟩
  have hlt := Nat.lt_succ_self s.size
  have hpart : ∀ x, Part n x ↔ x ∈ n.subs := fun x => by simp [Part, hrhs]
  refine ⟨hlt, hat, fun x hx => ?_, fun x hx => ?_, fun u => ?_⟩
  · have hv := h x ((hpart x).1 hx)
    exact ⟨hv.1, Nat.le_trans hv.2 he.size⟩
  · exact Nat.lt_of_le_of_lt (h x ((hpart x).1 hx)).2 hlt
  · rw [hu, mem_usedBy, hscope]
    simp only [hid, hpart, List.not_mem_nil, false_imp_iff, forall_const, and_true,
      Bool.false_eq_true, and_false, false_or]
    refine exists_congr fun x => and_congr_right fun hx => ?_
    rw [he.later.usedOf (h x hx).1 (h x hx)]

theorem constIn_is :
    Lands (constIn c type rep span) s fun id s' =>
      s.size < id ∧ Is s' id (.const c) type rep :=
  newNode_is rfl rfl (by simp [Node.subs])

theorem apply_is {f a : Nat} (hf : Valid s f) (ha : Valid s a) :
    Lands (apply f a type rep span) s fun id s' =>
      s.size < id ∧ Is s' id (.apply f a) type rep :=
  newNode_is rfl rfl (by simpa [Node.subs] using ⟨hf, ha⟩)

theorem builtin_is {f : Builtin} {args : List ValueId} (hf : f.availableIn s.target = true)
    (h : ∀ a ∈ args, Valid s a) :
    Lands (builtin f type rep span args) s fun id s' =>
      s.size < id ∧ Is s' id (.builtin f args) type rep := by
  refine .read target_run ?_
  rw [hf]
  exact newNode_is rfl rfl h

/-- A view of a value that is no view itself. -/
theorem reinterpret_is (h : At s id n t r) (hn : ∀ x, n ≠ .reinterpret x) (ht : type ≠ .missing)
    (hr : r ≠ rep) :
    Lands (reinterpret id type rep) s fun id' s' =>
      s.size < id' ∧ Is s' id' (.reinterpret id) type rep := by
  have hid := h.valid
  obtain ⟨v, hv, rfl, rfl, rfl⟩ := h
  refine .read (value_run hv) ?_
  extract_lets type' inner
  have htype : type' = type := by simp only [type']
  have hinner : inner = id := by simp only [inner]
  rw [if_neg (fun hsame => hr hsame.1), htype, hinner]
  exact newNode_is rfl rfl (by simpa [Node.subs] using hid)

/-- A value is its own view where nothing differs. -/
theorem reinterpret_self (h : At s id n t r) (ht : t.same t = true) :
    (reinterpret id t r).run s = (.ok id, s) := by
  obtain ⟨v, hv, rfl, rfl, rfl⟩ := h
  rw [reinterpret, run_bind_of_ok (value_run hv)]
  extract_lets type' inner
  have htype : type' = v.type := by
    simp only [type']
    split <;> rfl
  rw [if_pos ⟨rfl, by rwa [htype]⟩]
  rfl

theorem newBinder_at :
    Lands (newBinder name type rep span) s fun id s' =>
      s.size < id ∧ ∃ x, At s' id (.var x none) type rep ∧
        ∀ u : Nat, u ∈ (s'.usedOf id).ids ↔ u = id := by
  have hrun := newBinder_run (s := s) name type rep span
  have ha := newBinder_adds (s := s) name type rep span
  rw [hrun] at ha
  obtain ⟨v, hv, hcore⟩ := ha.exists_value
  simp only [Value.core, State.variable, Value.mk.injEq] at hcore
  refine ⟨_, _, hrun, .of_adds ha, ha.scope, Nat.lt_succ_self _, s.nextName name,
    ⟨v, hv, hcore.1, hcore.2.1, hcore.2.2.1⟩, fun u => ?_⟩
  rw [usedOf_of_value hv, hcore.2.2.2.2.1]
  exact List.mem_singleton

/-- A variable with its definition. -/
theorem Is.of_definition {v : Value} (hl : Later 0 s s') (h : Valid s rhs) (hlt : s.size < id)
    (hv : s'.value? id = some v) (hid : v.node.isIdentifiable = true)
    (hrhs : v.node.rhs? = some rhs) (hu : v.used = (VarSet.single id).union (s.usedOf rhs)) :
    Is s' id v.node v.type v.rep := by
  have hpart : ∀ y, Part v.node y ↔ y = rhs := fun y => by
    have hsubs : v.node.subs = [] := by
      cases hn : v.node <;> simp_all [Node.isIdentifiable, Node.subs]
    simp [Part, hrhs, hsubs, eq_comm]
  refine ⟨⟨v, hv, rfl, rfl, rfl⟩, fun y hy => ?_, fun y hy => ?_, fun u => ?_⟩
  · rw [(hpart y).1 hy]
    exact hl.valid h
  · rw [(hpart y).1 hy]
    exact Nat.lt_of_le_of_lt h.2 hlt
  · rw [usedOf_of_value hv, hu, VarSet.mem_union]
    simp only [hpart, exists_eq_left, hl.usedOf h.1 h, hid, and_true]
    exact or_congr_left List.mem_singleton

theorem newVar_is (h : Valid s rhs) :
    Lands (newVar name type rep rhs span) s fun id s' =>
      s.size < id ∧ ∃ x, Is s' id (.var x (some rhs)) type rep := by
  refine (FirstOrder.newVar_lands h).mono ?_
  rintro id s' he ⟨rfl, v, x, hv, hn, rfl, rfl, hu⟩
  refine ⟨Nat.lt_succ_self _, x, hn ▸ .of_definition he.later h (Nat.lt_succ_self _) hv ?_ ?_ hu⟩
  · rw [hn]; rfl
  · rw [hn]; rfl

/-- A view of a variable in another layout. -/
theorem newAlias_is {root : Nat} {base : String} (h : Valid s rhs) :
    Lands (do
        let name ← freshName base
        let id ← allocVar (.aliased name root none) type rep span
        setRhs id rhs
        return id) s fun id s' =>
      s.size < id ∧ ∃ x, Is s' id (.aliased x root (some rhs)) type rep := by
  have hname := freshName_run (s := s) base
  have hrun := allocVar_run (s := s.named base) (.aliased (s.nextName base) root none) type
    rep span
  have ha := aliased_adds (s := s) base root type rep span
  rw [run_bind_of_ok hname, hrun] at ha
  obtain ⟨s', hset, he, hscope, v, hv, hn, rfl, rfl, hu⟩ := FirstOrder.setRhs_new ha rfl h
  have hn : v.node = .aliased (s.nextName base) root (some rhs) := hn
  refine ⟨s.size + 1, s', ?_, he, hscope, Nat.lt_succ_self _, s.nextName base,
    hn ▸ .of_definition he.later h (Nat.lt_succ_self _) hv ?_ ?_ hu⟩
  · rw [run_bind_of_ok hname, run_bind_of_ok hrun]
    exact run_bind_of_ok hset
  · rw [hn]; rfl
  · rw [hn]; rfl

end

/-! ## Changing the layout of built values -/

/-- Whether a node is neither a variable nor a view. -/
def isBuilt : Node → Bool
  | .var _ _ | .aliased _ _ _ | .reinterpret _ => false
  | _ => true

theorem isBuilt_of_operation (hn : isOperation n = true) : isBuilt n = true := by
  cases n <;> first | rfl | cases hn

section

variable {convert : Converter} {goal : Rep} (hat : At s id n t r)

include hat

/-- A change of layout has enough steps for all nested ones. -/
theorem toRep_step : ∃ k, t.size ≤ k ∧
    (toRep id goal).run s = (toRepStep (toRepIn k) id goal).run s := by
  obtain ⟨v, hv, -, rfl, -⟩ := hat
  obtain ⟨k, hk⟩ : ∃ k, conversionFuel v goal = k + 1 :=
    Nat.exists_eq_succ_of_ne_zero (by unfold conversionFuel; omega)
  refine ⟨k, by unfold conversionFuel at hk; omega, ?_⟩
  rw [toRep, run_bind_of_ok (value_run hv), hk, toRepIn]

/-- A value in the layout already is left as it is. -/
theorem toRep_same : (toRep id r).run s = (.ok id, s) := by
  obtain ⟨k, -, hrun⟩ : ∃ k, _ ∧ (toRep id r).run s = _ := toRep_step hat
  obtain ⟨v, hv, -, -, rfl⟩ := hat
  rw [hrun, toRepStep, run_bind_of_ok (value_run hv), if_pos rfl, run_pure]

variable (hne : r ≠ goal)

include hne

/-- Layouts that can be used as each other need a view only. -/
theorem toRepStep_view (hc : s.decls.compatible t r goal = true) (hn : ∀ x, n ≠ .reinterpret x)
    (ht : t ≠ .missing) :
    Lands (toRepStep convert id goal) s fun out s' =>
      s.size < out ∧ Is s' out (.reinterpret id) t goal := by
  have hview : Lands (reinterpret id t goal) s _ := reinterpret_is hat hn ht hne
  obtain ⟨v, hv, -, rfl, rfl⟩ := hat
  rw [Lands, toRepStep, run_bind_of_ok (value_run hv), if_neg hne,
    run_bind_of_ok decls_run, if_pos hc]
  exact hview

/-- A built value in any other layout is converted. -/
theorem toRepStep_convert (hn : isBuilt n = true) (hc : s.decls.compatible t r goal = false) :
    (toRepStep convert id goal).run s = (convertValue convert id goal).run s := by
  obtain ⟨v, hv, rfl, rfl, rfl⟩ := hat
  have hroot : (rootVar id).run s = (.ok none, s) := by
    rw [rootVar, run_bind_of_ok (value_run hv)]
    cases hnode : v.node <;> first | rfl | (rw [hnode] at hn; cases hn)
  rw [toRepStep, run_bind_of_ok (value_run hv), if_neg hne,
    run_bind_of_ok decls_run, hc, if_neg Bool.false_ne_true,
    run_bind_of_ok hroot]

theorem toRep_view (hc : s.decls.compatible t r goal = true) (hn : ∀ x, n ≠ .reinterpret x)
    (ht : t ≠ .missing) :
    Lands (toRep id goal) s fun out s' =>
      s.size < out ∧ Is s' out (.reinterpret id) t goal := by
  obtain ⟨k, -, hrun⟩ := toRep_step hat
  rw [Lands, hrun]
  exact toRepStep_view hat hne hc hn ht

end

/-! ## Steps that may remember views and helpers -/

/-- The step succeeds, and the graph has grown. -/
def Makes (m : LowerM α) (s : State) (post : α → State → Prop) : Prop :=
  ∃ a s', m.run s = (.ok a, s') ∧ Later 0 s s' ∧ post a s'

namespace Makes

variable {m : LowerM α} {P Q : α → State → Prop} {f : α → LowerM β} {R : β → State → Prop}

theorem of_lands (h : Lands m s P) : Makes m s P := by
  obtain ⟨a, s', hr, he, -, hp⟩ := h
  exact ⟨a, s', hr, he.later, hp⟩

theorem mono (h : Makes m s P) (hpq : ∀ a s', Later 0 s s' → P a s' → Q a s') : Makes m s Q := by
  obtain ⟨a, s', hr, hl, hp⟩ := h
  exact ⟨a, s', hr, hl, hpq a s' hl hp⟩

theorem pure (h : P a s) : Makes (Pure.pure a) s P :=
  ⟨a, s, run_pure a, .refl, h⟩

theorem bind (h : Makes m s P) (hf : ∀ a s', Later 0 s s' → P a s' → Makes (f a) s' R) :
    Makes (m >>= f) s R := by
  obtain ⟨a, s1, hr, hl, hp⟩ := h
  obtain ⟨b, s2, hr', hl', hq⟩ := hf a s1 hl hp
  exact ⟨b, s2, (run_bind_of_ok hr).trans hr', hl.trans hl', hq⟩

/-- A step that remembers nothing before one that may. -/
theorem after (h : Lands m s P) (hf : ∀ a s', Extends s s' → P a s' → Makes (f a) s' R) :
    Makes (m >>= f) s R := by
  obtain ⟨a, s1, hr, he, -, hp⟩ := h
  obtain ⟨b, s2, hr', hl', hq⟩ := hf a s1 he hp
  exact ⟨b, s2, (run_bind_of_ok hr).trans hr', he.later.trans hl', hq⟩

/-- Looking something up before a step. -/
theorem read (h : m.run s = (.ok a, s)) (hf : Makes (f a) s R) : Makes (m >>= f) s R := by
  obtain ⟨b, s', hr, hrest⟩ := hf
  exact ⟨b, s', (run_bind_of_ok h).trans hr, hrest⟩

/-- Something is noted down that is no part of the graph. -/
theorem modify {f : State → State} (ht : (f s).target = s.target) (hd : (f s).decls = s.decls)
    (hv : (f s).values = s.values) : Makes (modify f) s fun _ s' => s' = f s :=
  ⟨(), f s, rfl, .of_values ht hd hv, rfl⟩

end Makes

end Encoding

end CoreLowering
