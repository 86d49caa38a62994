import CoreLowering.Proofs.Graph.Emission

/-!
# Where variables are bound

What emission finds out about a value, it finds out from the graph alone:
which variables are certain of it, by the rules of `Certain`, and which
variables are bound at it, by `Placed`.

Main statement: `dominating_places`.
-/

namespace CoreLowering.Graph

variable {g s s' : State} {id i u : Nat} {sets : List VarSet} {xs ids : List ValueId}
  {w : Value} {x : Nat} {r : Result} {n : Node}

/-! ## Sets of variables -/

theorem mem_unions : u ∈ (unions sets).ids ↔ ∃ t ∈ sets, u ∈ t.ids := by
  rw [unions, mem_foldl_union]
  simp [VarSet.empty]

theorem mem_foldl_inter {s : VarSet} :
    u ∈ (sets.foldl VarSet.inter s).ids ↔ u ∈ s.ids ∧ ∀ t ∈ sets, u ∈ t.ids := by
  induction sets generalizing s with
  | nil => simp
  | cons t sets ih =>
    rw [List.foldl_cons, ih, VarSet.mem_inter]
    simp only [List.forall_mem_cons, and_assoc]

theorem mem_common (h : u ∈ (common sets).ids) : sets ≠ [] ∧ ∀ t ∈ sets, u ∈ t.ids := by
  cases sets with
  | nil => simp [common, VarSet.empty] at h
  | cons t sets =>
    rw [common, mem_foldl_inter] at h
    exact ⟨by simp, List.forall_mem_cons.2 h⟩

/-! ## What is certain -/

/-- Whether evaluating a node evaluates all its parts. -/
def Node.isEager : Node → Bool
  | .apply _ _ => true
  | .builtin _ _ => true
  | .force _ => true
  | .reinterpret _ => true
  | _ => false

/-- Rules by which `sure id u` can be told: whenever the value `id` is
evaluated, so is the variable `u`. -/
structure SureRules (g : State) (sure : Nat → Nat → Prop) : Prop where
  self : ∀ id n, g.node? id = some n → n.isIdentifiable = true → sure id id
  rhs : ∀ id n r u, g.node? id = some n → n.rhs? = some r → sure r u → sure id u
  barrier : ∀ id p body u, g.node? id = some (.lambda p body true) → sure body u →
    u ∈ (g.usedBy (.lambda p body true)).ids → sure id u
  forceDelay : ∀ id x y u, g.node? id = some (.force x) → g.node? x = some (.delay y) →
    sure y u → sure id u
  scrutinee : ∀ id sh nat x bs ow bi u, g.node? id = some (.caseOf sh nat x bs ow bi) →
    sure x u → sure id u
  branches : ∀ id sh nat x bs ow bi u, g.node? id = some (.caseOf sh nat x bs ow bi) →
    bs ≠ [] → (∀ b ∈ bs, sure b u) → sure id u
  letIn : ∀ id ow st body u, g.node? id = some (.letIn ow st body) → sure body u →
    (∀ o ∈ ow, u ≠ o ∧ g.dependsFrom u o = false) → sure id u
  sub : ∀ id n x u, g.node? id = some n → n.isEager = true → x ∈ n.subs → sure x u → sure id u

/-- No rule is broken where everything is sure. -/
theorem SureRules.all : SureRules g fun _ _ => True := by
  constructor <;> intros <;> trivial

section

variable {sure : Nat → Nat → Prop} {here : ValueId → List ValueId → Prop} {v : Value}
  {J : Array Value → Prop} {safe : Prop} {kept : Nat → Option (List ValueId) → Prop}

theorem node_of_bare (h : w.bare = v.bare) : w.node = v.node := by
  have : w.bare.node = v.bare.node := by rw [h]
  exact this

theorem node?_of_bare (hw : g.value? id = some w) (h : w.bare = v.bare) :
    g.node? id = some v.node := by
  rw [node?_of_value hw, node_of_bare h]

/-- Something holds of each value. -/
def Each (K : Nat → Value → Prop) (values : Array Value) : Prop :=
  ∀ (n : Nat) v, values[n]? = some v → K (n + 1) v

/-- What is certain of a value is right, and what is bound at it is kept. -/
def Value.Holds (sure : Nat → Nat → Prop) (kept : Nat → Option (List ValueId) → Prop) (id : Nat)
    (v : Value) : Prop :=
  (∀ set, v.certain = some set → ∀ u ∈ set.ids, sure id u) ∧ kept id v.placed

/-- What has been filled in of the values is right. -/
abbrev Filled (sure : Nat → Nat → Prop) (here : ValueId → List ValueId → Prop) :
    Array Value → Prop :=
  Each (Value.Holds sure fun id placed => ∀ xs, placed = some xs → here id xs)

section

variable {K K' : Nat → Value → Prop} {f : Value → Value}

theorem Each.value? (h : Each K s.values) (hv : s.value? id = some v) : K id v := by
  obtain ⟨n, rfl, hn⟩ := value?_eq_some_iff.1 hv
  exact h n v hn

theorem eachValue_gives (h : safe → Valid g id) : Gives (Each K) g (value id) (fun v b =>
    b = false ∧ K id v ∧ ∃ w, g.value? id = some w ∧ w.bare = v.bare) safe :=
  (Gives.valueKept h).mono fun _ _ ⟨hb, _, hs, hj, hv⟩ => ⟨hb, hj.value? hv, hs.exists_value hv⟩

theorem Each.bump (h : Each K s.values) (hid : 0 < id) (hout : ∀ i v, i ≠ id → K i v → K' i v)
    (hin : ∀ v, K id v → K' id (f v)) : Each K' (s.bump id f).values := by
  intro n v hv
  simp only [State.bump, Array.getElem?_modify] at hv
  split at hv
  case isTrue hn =>
    obtain ⟨w, hw, rfl⟩ := Option.map_eq_some_iff.1 hv
    obtain rfl : id = n + 1 := by omega
    exact hin w (h n w hw)
  case isFalse hn => exact hout _ v (by omega) (h n v hv)

theorem SameGraph.bump (hf : ∀ v, (f v).bare = v.bare) : SameGraph s (s.bump id f) := by
  refine congrArg (fun values => { s.bare with values }) (Array.ext_getElem? fun n => ?_)
  simp only [State.bump, Array.getElem?_map, Array.getElem?_modify]
  split
  · cases s.values[n]? <;> simp [hf]
  · rfl

theorem eachFill_gives (hid : 0 < id) (hf : ∀ v, (f v).bare = v.bare)
    (hfill : ∀ v, K id v → K id (f v)) :
    Gives (Each K) g (update id f) (fun _ b => b = false) safe :=
  .modify (fun _ => .bump hf) (fun _ hj => hj.bump hid (fun _ _ _ h => h) hfill)
    fun _ => (Bool.or_false _).symm

end

/-- What comes out is certain of a value. -/
def SureOf (sure : Nat → Nat → Prop) (id : Nat) (set : VarSet) (b : Bool) : Prop :=
  b = false ∧ ∀ u ∈ set.ids, sure id u

/-- The graph is in order and the value is there. -/
def Sane (g : State) (id : Nat) : Prop := Inv g ∧ Valid g id

theorem Sane.part (h : Sane g id) (hn : g.node? id = some n) (hx : n.rhs? = some x ∨ x ∈ n.subs) :
    Sane g x := by
  refine ⟨h.1, ?_⟩
  rcases hx with hx | hx
  · exact (h.1.rhs id x n hn hx).1
  · have hlt := h.1.subs id n hn x hx
    exact ⟨hlt.1, Nat.le_trans (Nat.le_of_lt hlt.2) h.2.2⟩

theorem freshUsed_gives (v : Value) :
    Gives J g (freshUsed v) (fun set b => b = false ∧ set = g.usedBy v.node) safe :=
  .look .get fun _ hs => .pure ⟨rfl, hs.usedBy v.node⟩

theorem certainAll_gives {certain : ValueId → LowerM VarSet}
    (hc : ∀ id ∈ ids, Gives J g (certain id) (SureOf sure id) safe) :
    Gives J g (ids.mapM certain) (fun sets b =>
      b = false ∧ List.Forall₂ (fun id set => ∀ u ∈ VarSet.ids set, sure id u) ids sets) safe := by
  induction ids with
  | nil =>
    rw [List.mapM_nil]
    exact .pure ⟨rfl, .nil⟩
  | cons x ids ih =>
    rw [List.forall_mem_cons] at hc
    rw [List.mapM_cons]
    exact .look hc.1 fun set hset => .look (ih hc.2) fun sets hsets => .pure ⟨rfl, .cons hset hsets⟩

theorem exists_of_forall₂
    (h : List.Forall₂ (fun id set => ∀ u ∈ VarSet.ids set, sure id u) ids sets)
    (hu : ∃ t ∈ sets, u ∈ t.ids) : ∃ x ∈ ids, sure x u := by
  induction h with
  | nil => simp at hu
  | cons hx _ ih =>
    obtain ⟨t, ht, hu⟩ := hu
    rcases List.mem_cons.1 ht with rfl | ht
    · exact ⟨_, List.mem_cons_self .., hx u hu⟩
    · obtain ⟨y, hy, hs⟩ := ih ⟨t, ht, hu⟩
      exact ⟨y, List.mem_cons_of_mem _ hy, hs⟩

theorem forall_of_forall₂
    (h : List.Forall₂ (fun id set => ∀ u ∈ VarSet.ids set, sure id u) ids sets)
    (hu : ∀ t ∈ sets, u ∈ t.ids) : ∀ x ∈ ids, sure x u := by
  induction h with
  | nil => simp
  | cons hx _ ih =>
    rw [List.forall_mem_cons] at hu ⊢
    exact ⟨hx u hu.1, ih hu.2⟩

/-- A variable is sure of itself and of what its definition is sure of. -/
theorem certainVar_gives {certain : ValueId → LowerM VarSet} {rhs : Option ValueId}
    (hsure : SureRules g sure) (hc : ∀ id, Gives J g (certain id) (SureOf sure id) (Sane g id))
    (hn : g.node? id = some n) (hid : n.isIdentifiable = true) (hr : n.rhs? = rhs) :
    Gives J g (match rhs with
      | some rhs => do return (VarSet.single id).union (← certain rhs)
      | none => pure (VarSet.single id)) (SureOf sure id) (Sane g id) := by
  have hself := hsure.self id _ hn hid
  split
  · rename_i r
    refine .look ((hc r).when (·.part hn (.inl hr))) fun set hset => .pure ⟨rfl, fun u hu => ?_⟩
    rcases VarSet.mem_union.1 hu with hu | hu
    · rw [List.mem_singleton.1 hu]
      exact hself
    · exact hsure.rhs id _ r u hn hr (hset u hu)
  · refine .pure ⟨rfl, fun u hu => ?_⟩
    rw [List.mem_singleton.1 hu]
    exact hself

theorem certainStep_gives {certain : ValueId → LowerM VarSet} (hsure : SureRules g sure)
    (hc : ∀ id, Gives J g (certain id) (SureOf sure id) (Sane g id))
    (hv : g.node? id = some v.node) :
    Gives J g (certainStep certain id v) (SureOf sure id) (Sane g id) := by
  have part {n} (hn : g.node? id = some n) (x) (hx : x ∈ n.subs) :
      Gives J g (certain x) (SureOf sure x) (Sane g id) := (hc x).when (·.part hn (.inr hx))
  have hsubs : ∀ n, g.node? id = some n → (∀ x ∈ n.subs, n.isEager = true) → Gives J g (do
      let sets ← n.subs.mapM certain
      return unions sets) (SureOf sure id) (Sane g id) := by
    intro n hn heager
    refine .look (certainAll_gives (part hn)) fun sets hsets => .pure ⟨rfl, fun u hu => ?_⟩
    obtain ⟨x, hx, hs⟩ := exists_of_forall₂ hsets (mem_unions.1 hu)
    exact hsure.sub id n x u hn (heager x hx) hx hs
  unfold certainStep
  cases hn : v.node with
  | var x rhs => exact certainVar_gives hsure hc hv (by rw [hn]; rfl) (by rw [hn]; rfl)
  | aliased x o rhs => exact certainVar_gives hsure hc hv (by rw [hn]; rfl) (by rw [hn]; rfl)
  | delay x => exact .pure ⟨rfl, by simp [VarSet.empty]⟩
  | fix self rec => exact .pure ⟨rfl, by simp [VarSet.empty]⟩
  | lambda p body barrier =>
    have part := part (hn ▸ hv)
    cases barrier with
    | true =>
      refine .look (freshUsed_gives v) fun used hused => ?_
      refine .look (part body (by simp [Node.subs])) fun set hset => .pure ⟨rfl, fun u hu => ?_⟩
      obtain ⟨h1, h2⟩ := VarSet.mem_inter.1 hu
      rw [hused, hn] at h2
      exact hsure.barrier id p body u (hn ▸ hv) (hset u h1) h2
    | false => exact .pure ⟨rfl, by simp [VarSet.empty]⟩
  | force x =>
    rw [hn] at hv
    have hx : x ∈ (Node.force x).subs := by simp [Node.subs]
    refine .look (.value fun h => (h.part hv (.inr hx)).2) fun w hw => ?_
    split
    · rename_i y hy
      rw [hy] at hw
      refine ((hc y).when fun h => (h.part hv (.inr hx)).part hw (by simp [Node.subs])).mono ?_
      rintro set b ⟨hb, hset⟩
      exact ⟨hb, fun u hu => hsure.forceDelay id x y u hv hw (hset u hu)⟩
    · refine (part hv x hx).mono ?_
      rintro set b ⟨hb, hset⟩
      exact ⟨hb, fun u hu => hsure.sub id _ x u hv rfl hx (hset u hu)⟩
  | caseOf shape native x branches owned binders =>
    have part := part (hn ▸ hv)
    refine .look (part x (by simp [Node.subs])) fun first hfirst => ?_
    refine .look (certainAll_gives fun b (hb : b ∈ branches) => part b (by simp [Node.subs, hb])) ?_
    refine fun sets hsets => .pure ⟨rfl, fun u hu => ?_⟩
    rcases VarSet.mem_union.1 hu with hu | hu
    · exact hsure.scrutinee id _ _ _ _ _ _ u (hn ▸ hv) (hfirst u hu)
    · obtain ⟨hne, hall⟩ := mem_common hu
      refine hsure.branches id _ _ _ _ _ _ u (hn ▸ hv) ?_ (forall_of_forall₂ hsets hall)
      rintro rfl
      cases hsets
      exact hne rfl
  | letIn owned strict body =>
    refine .look (part (hn ▸ hv) body (by simp [Node.subs])) fun all hall => ?_
    refine .look .get fun s hs => .pure ⟨rfl, fun u hu => ?_⟩
    rw [hs.outside, mem_outside] at hu
    exact hsure.letIn id owned strict body u (hn ▸ hv) (hall u hu.1) hu.2
  | const c => exact hsubs _ (hn ▸ hv) (by simp [Node.subs])
  | builtinRef f => exact hsubs _ (hn ▸ hv) (by simp [Node.subs])
  | error m => exact hsubs _ (hn ▸ hv) (by simp [Node.subs])
  | typeError m => exact hsubs _ (hn ▸ hv) (by simp [Node.subs])
  | apply f a => exact hsubs _ (hn ▸ hv) fun _ _ => rfl
  | builtin f args => exact hsubs _ (hn ▸ hv) fun _ _ => rfl
  | reinterpret x => exact hsubs _ (hn ▸ hv) fun _ _ => rfl

theorem certainIn_gives (hsure : SureRules g sure) (fuel id : Nat) :
    Gives (Each (Value.Holds sure kept)) g (certainIn fuel id) (SureOf sure id) (Sane g id) := by
  induction fuel generalizing id with
  | zero => exact .pure ⟨rfl, by simp [VarSet.empty]⟩
  | succ fuel ih =>
    refine .look (eachValue_gives And.right) fun v ⟨hfill, w, hw, hbare⟩ => ?_
    have hid := (valid_of_value hw).1
    have hnode := node?_of_bare hw hbare
    split
    · rename_i set hset
      exact .pure ⟨rfl, hfill.1 set hset⟩
    · refine .bind (eachFill_gives hid (fun _ => rfl) fun v hv => ?_) fun _ b hb => ?_
      · refine ⟨?_, hv.2⟩
        rintro _ ⟨⟩
        simp [VarSet.empty]
      subst hb
      refine .bind (certainStep_gives hsure (fun i => ih i) hnode) fun set b ⟨hb, hset⟩ => ?_
      subst hb
      refine .bind (eachFill_gives hid (fun _ => rfl) fun v hv => ?_) fun _ b hb => ?_
      · refine ⟨?_, hv.2⟩
        rintro _ ⟨⟩
        exact hset
      subst hb
      exact .pure ⟨rfl, hset⟩

/-- What is found to be certain of a value is so. -/
theorem certain_gives (hsure : SureRules g sure) (id : Nat) :
    Gives (Each (Value.Holds sure kept)) g (certain id) (SureOf sure id) (Sane g id) :=
  .look .get fun _ _ => certainIn_gives hsure _ id

/-! ## What is bound at a value -/

theorem SameGraph.isInlined (h : SameGraph g s) (v : Value) : s.isInlined v = g.isInlined v := by
  simp only [State.isInlined, h.underViews]

theorem isInlined_bare (h : w.bare = v.bare) : g.isInlined w = g.isInlined v := by
  rw [State.isInlined, State.isInlined, node_of_bare h]

theorem SameGraph.bindable? (h : SameGraph g s) (u : Nat) : s.bindable? u = g.bindable? u := by
  have hv := h.value? u
  unfold State.bindable?
  cases hs : s.value? u <;> cases hg : g.value? u <;> simp only [hs, hg] at hv ⊢ <;>
    try simp at hv
  rename_i v w
  have hbare : v.bare = w.bare := by simpa using hv
  rw [h.isInlined, isInlined_bare hbare, node_of_bare hbare]

theorem SameGraph.sharedIn (h : SameGraph g s) (n : Node) : s.sharedIn n = g.sharedIn n := by
  have hu : s.usedOf = g.usedOf := funext h.usedOf
  simp only [State.sharedIn, hu]

theorem SameGraph.topoOrder (h : SameGraph g s) (set : VarSet) :
    s.topoOrder set = g.topoOrder set := by
  have hready : ∀ all, s.firstReady all = g.firstReady all := by
    intro all
    simp only [State.firstReady, h.dependsFrom]
  have hin : ∀ fuel pending, s.topoOrderIn fuel pending = g.topoOrderIn fuel pending := by
    intro fuel
    induction fuel with
    | zero => exact fun _ => rfl
    | succ fuel ih =>
      intro pending
      simp only [State.topoOrderIn, hready, ih]
  rw [State.topoOrder, State.topoOrder, hin]

theorem topoOrderIn_perm (g : State) (fuel : Nat) (pending : List ValueId) :
    (g.topoOrderIn fuel pending).Perm pending := by
  induction fuel generalizing pending with
  | zero => exact .refl _
  | succ fuel ih =>
    rw [State.topoOrderIn]
    split
    case h_1 x hx =>
      exact ((ih _).cons x).trans (List.perm_cons_erase (List.mem_of_find?_eq_some hx)).symm
    case h_2 => exact .refl _

theorem mem_topoOrder {set : VarSet} : u ∈ g.topoOrder set ↔ u ∈ set.ids :=
  (topoOrderIn_perm g _ _).mem_iff

/-- What every view hands down holds of what is under the views of a value. -/
theorem underViewsIn_of_view {P : Nat → Prop} {fuel : Nat} {n : Node}
    (hview : ∀ x y : Nat, g.node? x = some (.reinterpret y) → P x → P y) (h : P id)
    (hn : g.underViewsIn fuel id = some n) : ∃ x : Nat, g.node? x = some n ∧ P x := by
  induction fuel generalizing id with
  | zero => cases hn
  | succ fuel ih =>
    unfold State.underViewsIn at hn
    split at hn
    · cases hn
    · rename_i v hv
      have hnode := node?_of_value hv
      split at hn
      · rename_i y hy
        exact ih (hview id y (hy ▸ hnode) h) hn
      · cases hn
        exact ⟨id, hnode, h⟩

/-- A variable that costs nothing to bind. -/
def Cheap (g : State) (u : Nat) : Prop :=
  ∃ rhs, g.bindable? u = some rhs ∧ g.isEffortless rhs = true

/-- A variable that is shared by parts of a value and bound at it. -/
structure SharedAt (g : State) (sure : Nat → Nat → Prop) (id : Nat) (n : Node) (u : Nat) :
    Prop where
  shared : u ∈ (g.sharedIn n).ids
  refs : 2 ≤ g.refsOf u
  bindable : (g.bindable? u).isSome = true
  harmless : Cheap g u ∨ sure id u

/-- A variable that a barrier binds outside its body. -/
structure HoistedAt (g : State) (sure : Nat → Nat → Prop) (n : Node) (u : Nat) : Prop where
  bindable : (g.bindable? u).isSome = true
  barrier : ∃ p body, n = .lambda p body true ∧ sure body u
  used : u ∈ (g.usedBy n).ids

/-- The variables bound at a value, in the order in which they are bound. -/
def Placed (g : State) (sure : Nat → Nat → Prop) (id : Nat) (xs : List ValueId) : Prop :=
  ∃ n set, g.node? id = some n ∧ xs = g.topoOrder set ∧
    ∀ u : Nat, u ∈ set.ids → SharedAt g sure id n u ∨ HoistedAt g sure n u

theorem cheap_of_effortless (hs : SameGraph g s)
    (hu : (match s.bindable? u with | some rhs => s.isEffortless rhs | none => false) = true) :
    Cheap g u := by
  rw [hs.bindable?] at hu
  split at hu
  · rename_i rhs hr
    exact ⟨rhs, hr, hs.isEffortless rhs ▸ hu⟩
  · cases hu

theorem sharedBinds_gives (hsure : SureRules g sure) :
    Gives (Each (Value.Holds sure kept)) g (sharedBinds id v) (fun set b =>
      b = false ∧ ∀ u : Nat, u ∈ set.ids → SharedAt g sure id v.node u) (Sane g id) := by
  refine .look .get fun s hs => ?_
  have hshared : ∀ u : Nat, u ∈ ((s.sharedIn v.node).filter fun u =>
      2 ≤ s.refsOf u && (s.bindable? u).isSome).ids → (Cheap g u ∨ sure id u) →
      SharedAt g sure id v.node u := by
    intro u hu hharm
    rw [VarSet.mem_filter, hs.sharedIn, hs.refsOf, hs.bindable?] at hu
    obtain ⟨h1, h2⟩ := hu
    rw [Bool.and_eq_true, decide_eq_true_eq] at h2
    exact ⟨h1, h2.1, h2.2, hharm⟩
  refine .ite (fun hall => .pure ⟨rfl, fun u hu => ?_⟩) fun _ => ?_
  · exact hshared u hu (.inl (cheap_of_effortless hs (List.all_eq_true.1 hall u hu)))
  · refine .look (certain_gives hsure id) fun set hset => .pure ⟨rfl, fun u hu => ?_⟩
    obtain ⟨h1, h2⟩ := VarSet.mem_filter.1 hu
    rw [Bool.or_eq_true] at h2
    exact hshared u h1 (h2.imp (cheap_of_effortless hs) fun h => hset u (VarSet.has_iff.1 h))

theorem barrierBinds_gives (hsure : SureRules g sure) {p : Option ValueId} {body : ValueId}
    (hv : v.node = .lambda p body true) :
    Gives (Each (Value.Holds sure kept)) g (barrierBinds v body) (fun set b =>
      b = false ∧ ∀ u : Nat, u ∈ set.ids → HoistedAt g sure v.node u) (Sane g body) := by
  refine .look (freshUsed_gives v) fun used hused => .look (certain_gives hsure body) ?_
  intro sureSet hsureSet
  refine .look .get fun s hs => .pure ⟨rfl, fun u hu => ?_⟩
  obtain ⟨h1, h2⟩ := VarSet.mem_filter.1 hu
  rw [hs.bindable?] at h2
  split at h2
  · rename_i rhs hr
    rw [Bool.and_eq_true] at h2
    refine ⟨by rw [hr]; rfl, ⟨p, body, hv, hsureSet u (VarSet.has_iff.1 h2.1)⟩, ?_⟩
    rw [← hused]
    exact h1
  · cases h2

theorem place_gives (hsure : SureRules g sure) (hv : g.node? id = some v.node) :
    Gives (Each (Value.Holds sure kept)) g (place id v)
      (fun xs b => b = false ∧ Placed g sure id xs) (Sane g id) := by
  refine .ite (fun _ => .pure ⟨rfl, v.node, .empty, hv, rfl, by simp [VarSet.empty]⟩) fun _ => ?_
  refine .look (sharedBinds_gives hsure) fun shared hshared => ?_
  have hlast : ∀ hoisted : VarSet, (∀ u : Nat, u ∈ hoisted.ids → HoistedAt g sure v.node u) →
      Gives (Each (Value.Holds sure kept)) g (do return (← get).topoOrder (shared.union hoisted))
        (fun xs b => b = false ∧ Placed g sure id xs) (Sane g id) := by
    intro hoisted hh
    refine .look .get fun s hs => .pure ⟨rfl, v.node, shared.union hoisted, hv, ?_, ?_⟩
    · exact hs.topoOrder _
    · intro u hu
      exact (VarSet.mem_union.1 hu).imp (hshared u) (hh u)
  split
  · rename_i p body hn
    exact .look ((barrierBinds_gives hsure hn).when
      (·.part hv (.inr (by simp [hn, Node.subs])))) hlast
  · exact .look (.pure ⟨rfl, by simp [VarSet.empty]⟩) hlast

theorem dominating_gives (hsure : SureRules g sure)
    (hh : ∀ id xs, Placed g sure id xs → here id xs) :
    PlacesWell (Filled sure here) g here dominating (Sane g) := by
  intro id
  refine .look (eachValue_gives And.right) fun v ⟨hfill, w, hw, hbare⟩ => ?_
  have hnode := node?_of_bare hw hbare
  split
  · rename_i xs hxs
    exact .pure ⟨rfl, hfill.2 xs hxs⟩
  · refine .look (place_gives hsure hnode) fun xs hxs => ?_
    refine .bind (eachFill_gives (valid_of_value hw).1 (fun _ => rfl) fun v hv => ?_)
      fun _ b hb => ?_
    · refine ⟨hv.1, ?_⟩
      rintro _ ⟨⟩
      exact hh id xs hxs
    subst hb
    exact .pure ⟨rfl, hh id xs hxs⟩

/-- **What is bound at a value is found from the graph alone.** -/
theorem dominating_places (hsure : SureRules g sure) :
    PlacesWell (Filled sure (Placed g sure)) g (Placed g sure) dominating (Sane g) :=
  dominating_gives hsure fun _ _ h => h

end

/-- Inside of definitions their variables are bound as well. -/
theorem EmitsBinds.mem_inside {bound inside : Bound} {binds : List (ValueId × Marked)}
    {here : ValueId → List ValueId → Prop} (h : EmitsBinds g here bound xs binds inside) :
    u ∈ inside ↔ u ∈ xs ∨ u ∈ bound := by
  induction xs generalizing bound binds with
  | nil =>
    cases h
    simp
  | cons y xs ih =>
    cases h with
    | skip hy h =>
      rw [ih h, List.mem_cons, or_assoc]
      exact (or_iff_right_of_imp fun hu => .inr (hu ▸ hy)).symm
    | bind _ _ _ _ h =>
      rw [ih h, List.mem_cons, List.mem_cons]
      tauto

/-! ## Before emission -/

/-- Nothing has been filled in yet. -/
def Unfilled (s : State) : Prop :=
  ∀ (i : Nat) v, s.value? i = some v → v.certain = none ∧ v.placed = none

theorem Unfilled.filled (h : Unfilled s) {sure : Nat → Nat → Prop}
    {here : ValueId → List ValueId → Prop} : Filled sure here s.values := by
  intro n v hv
  obtain ⟨h1, h2⟩ := h (n + 1) v hv
  exact ⟨by simp [h1], by simp [h2]⟩

theorem Value.core_unfilled {v : Value} (h : v.core = w.core)
    (hw : w.certain = none ∧ w.placed = none) : v.certain = none ∧ v.placed = none := by
  simp only [Value.core, Value.mk.injEq] at h
  simp_all

theorem Adds.unfilled {v : Value} (h : Adds s s' v) (hs : Unfilled s)
    (hv : v.certain = none ∧ v.placed = none) : Unfilled s' := by
  intro i w hw
  have hi := h.value? i
  rw [hw, Option.map_some] at hi
  split at hi
  · exact Value.core_unfilled (Option.some.inj hi) hv
  · obtain ⟨x, hx, heq⟩ := Option.map_eq_some_iff.1 hi.symm
    exact Value.core_unfilled heq.symm (hs i x hx)

theorem Defines.unfilled {rhs : Nat} {r : Value} (h : Defines s s' x rhs r) (hs : Unfilled s) :
    Unfilled s' := by
  intro i w hw
  have hi := h.value? i
  rw [hw, Option.map_some] at hi
  split at hi
  · obtain ⟨y, hy, heq⟩ := Option.map_eq_some_iff.1 hi.symm
    exact Value.core_unfilled heq.symm (hs i y hy)
  · obtain ⟨y, hy, heq⟩ := Option.map_eq_some_iff.1 hi.symm
    exact Value.core_unfilled heq.symm (hs i y hy)

theorem Change.unfilled {l : Nat} (h : Change l s s') (hs : Unfilled s) : Unfilled s' := by
  cases h.effect with
  | adds h hv => exact h.unfilled hs (by cases hv <;> exact ⟨rfl, rfl⟩)
  | defines h => exact h.unfilled hs
  | same hv => exact fun i v hi => hs i v (value?_congr hv i ▸ hi)

/-- Building fills in nothing. -/
theorem Trace.unfilled {l : Nat} (h : Trace l s s') (hs : Unfilled s) : Unfilled s' :=
  h.keeps (fun h => h.unfilled) hs

theorem Unfilled.new (target : Version) (decls : Decls) (debug : Bool) :
    Unfilled (State.new target decls debug) :=
  fun i v hv => by cases i <;> simp [State.new, State.value?] at hv

/-! ## Lowering a unit -/

/-- The graph `g` has been built for the root of a unit and `id` is its
value. -/
structure Built (target : Version) (decls : Decls) (debug : Bool) (root : Expr) (g : State)
    (id : Nat) : Prop where
  run : (build root).run (State.new target decls debug) = (.ok id, g)
  trace : Trace 0 (State.new target decls debug) g
  valid : Valid g id
  defined : ∀ x ∈ (g.usedOf id).ids, Defined g x

theorem Built.of_run {target : Version} {decls : Decls} {debug : Bool} {root : Expr}
    (h : (build root).run (State.new target decls debug) = (.ok id, g)) :
    Built target decls debug root g id := by
  obtain ⟨ht, hr⟩ := (build_kept root).run (Inv.new target decls debug)
  rw [h] at ht hr
  exact ⟨h, ht.weaken (Nat.zero_le _), (hr id rfl).2.1, (hr id rfl).2.2⟩

section

variable {target : Version} {decls : Decls} {debug : Bool} {root : Expr}

theorem Built.inv (h : Built target decls debug root g id) : Inv g := h.trace.inv (.new ..)

theorem Built.named (h : Built target decls debug root g id) : Named g := h.trace.named (.new ..)

theorem Built.unfilled (h : Built target decls debug root g id) : Unfilled g :=
  h.trace.unfilled (.new target decls debug)

theorem Built.usesFix (h : Built target decls debug root g id) : g.usesFix = false :=
  h.trace.evolves.usesFix

/-- What a lowering gives: the term of the value of the root, linked. -/
structure Yields (target : Version) (decls : Decls) (debug : Bool) (root : Expr) (r : Result)
    (g : State) (id : Nat) : Prop where
  built : Built target decls debug root g id
  term : r.term = link r.unlinked r.usesFix
  unlinked : ∀ sure, SureRules g sure →
    TermOf g (Emits g (Placed g sure) [] id) r.unlinked r.usesFix
  value : ∃ v, g.value? id = some v ∧ r.type = v.type ∧ r.rep = v.rep

/-- **Lowering builds a graph and emits the term of its root.** -/
theorem run_yields (h : ((run root).run (State.new target decls debug)).1 = .ok r) :
    ∃ g id, Yields target decls debug root r g id := by
  obtain ⟨s', hrun⟩ : ∃ s', (run root).run (State.new target decls debug) = (.ok r, s') :=
    ⟨_, Prod.ext h rfl⟩
  obtain ⟨id, g, hbuild, h1⟩ := run_bind_ok.1 hrun
  obtain ⟨t, s2, hemit, h2⟩ := run_bind_ok.1 h1
  obtain ⟨v, s3, hvalue, h3⟩ := run_bind_ok.1 h2
  obtain ⟨hv, rfl⟩ := run_value_ok.1 hvalue
  obtain ⟨s4, s5, hget, hpure⟩ := run_bind_ok.1 h3
  rw [run_get, Prod.mk.injEq, Except.ok.injEq] at hget
  obtain ⟨rfl, rfl⟩ := hget
  rw [run_pure, Prod.mk.injEq, Except.ok.injEq] at hpure
  obtain ⟨rfl, -⟩ := hpure
  have hb := Built.of_run hbuild
  have hgives : ∀ sure, SureRules g sure → SameGraph g s3 ∧
      TermOf g (Emits g (Placed g sure) [] id) t s3.usesFix := by
    intro sure hsure
    obtain ⟨h1, -, b, h2, h3⟩ := (emitWith_gives (dominating_places hsure) id).ok .refl
      hb.unfilled.filled (run_reporting_ok.1 hemit)
    rw [hb.usesFix, Bool.false_or] at h2
    exact ⟨h1, h2 ▸ h3⟩
  refine ⟨g, id, hb, rfl, fun sure hsure => (hgives sure hsure).2, ?_⟩
  obtain ⟨w, hw, hbare⟩ := (hgives _ SureRules.all).1.exists_value hv
  have htype : w.bare.type = v.bare.type := by rw [hbare]
  have hrep : w.bare.rep = v.bare.rep := by rw [hbare]
  exact ⟨w, hw, htype.symm, hrep.symm⟩

theorem lowerWith_ok (h : (lowerWith decls root target debug).result = .ok r) :
    ((run root).run (State.new target decls debug)).1 = .ok r := by
  simp only [lowerWith] at h
  cases hr : ((run root).run (State.new target decls debug)).1 with
  | ok a => simpa [hr, Except.mapError] using h
  | error e => simp [hr, Except.mapError] at h

theorem lowerModule_ok {m : Module} (h : (lowerModule m target debug).result = .ok r) :
    ∃ decls, m.scope = .ok decls ∧
      ((run m.root).run (State.new target decls debug)).1 = .ok r := by
  unfold lowerModule at h
  split at h
  · cases h
  · split at h
    · cases h
    · rename_i decls hd
      exact ⟨decls, hd, lowerWith_ok h⟩

end

end CoreLowering.Graph
