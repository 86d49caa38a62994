import CoreLowering.Proofs.Encoding.Denotation
import CoreLowering.Proofs.FirstOrder.Emitting

/-!
# Graphs that recur over lists only

`Tidy g Δ id` says that the value `id` is built without functions of its own,
from the variables `Δ`, which are bound around it, from variables with
definitions, and from helpers: recursive functions that take a list apart.

Main statements: `Tidy.used`, what a tidy value uses is tidy in the same
place; `Tidy.boundAt`, so is what is bound at it.
-/

namespace CoreLowering.Encoding

open CoreLowering.Graph

variable {g : State} {id u : Nat} {Δ : List ValueId} {n : Node} {x : Nat}

/-- Whether a node binds nothing in its parts. -/
def isFlat : Node → Bool
  | .var _ rhs => rhs.isSome
  | .aliased _ _ rhs => rhs.isSome
  | .caseOf _ true _ _ _ binders => binders.flatten.isEmpty
  | .caseOf sh false _ bs _ _ => (chooser? sh bs).isSome
  | .lambda _ _ _ => false
  | .fix _ _ => false
  | .delay _ => false
  | .force _ => false
  | _ => true

/-- The variable that a scope evaluates first. -/
def strict? : Node → Option ValueId
  | .letIn _ strict _ => strict
  | _ => none

/-- All values that the term of a node is made from. -/
def reach (n : Node) : List ValueId := (strict? n).toList ++ n.rhs?.toList ++ n.subs

/-- A value that is known to be a constant, under views. -/
inductive Settled (g : State) : Nat → Prop where
  | const {id : Nat} {c : Constant} : g.node? id = some (.const c) → Settled g id
  | view {id x : Nat} : g.node? id = some (.reinterpret x) → Settled g x → Settled g id

mutual

/-- A value that is built from the variables `Δ`, from definitions and from
helpers. -/
inductive Tidy (g : State) : List ValueId → Nat → Prop where
  /-- A variable that is bound around the value. -/
  | given {Δ : List ValueId} {id : Nat} {n : Node} : id ∈ Δ → g.node? id = some n →
      n.isIdentifiable = true →
      (∀ u : Nat, u ∈ (g.usedOf id).ids → u ≠ id → Free g u) → Tidy g Δ id
  | free {Δ : List ValueId} {id : Nat} : Free g id → Tidy g Δ id
  | node {Δ : List ValueId} {id : Nat} {n : Node} : g.node? id = some n → isFlat n = true →
      (∀ x : Nat, x ∈ reach n → Tidy g Δ x) → Tidy g Δ id
  /-- A native case that takes data apart; one branch only is of interest. -/
  | unpack {id x b : Nat} {bs owned ys : List ValueId} {binders : List (List ValueId)} :
      g.node? id = some (.caseOf .data true x (b :: bs) owned (ys :: binders)) →
      (∀ b' : Nat, b' ∈ bs → ∃ n, g.node? b' = some n ∧ n.isLeaf = true) →
      (∀ y : Nat, y ∈ ys ++ binders.flatten → Blank g y) → Tidy g [] x → Tidy g ys b →
      (∀ u : Nat, u ∈ (g.usedOf id).ids → u ∉ (g.usedOf x).ids → Free g u) → Tidy g [] id

/-- A variable that can be used anywhere. -/
inductive Free (g : State) : Nat → Prop where
  | loop {f : Loop} {ys : List ValueId} : Helper g f ys → Free g f.self
  /-- A variable for a constant. -/
  | loose {id r : Nat} {n : Node} : g.node? id = some n → n.rhs? = some r → Settled g r → Free g id

/-- A recursive function that takes its parameter apart, a list, with the
variables that it binds to the first item and the rest, if it binds any. -/
inductive Helper (g : State) : Loop → List ValueId → Prop where
  | mk {f : Loop} {ys owned : List ValueId} {native : Bool} {cons nil : Nat} {m : Node}
      {binders : List (List ValueId)} : f.In g →
      g.node? f.body = some (.caseOf .list native f.param [cons, nil] owned binders) →
      (native = true ∧ binders = [ys, []] ∨ native = false ∧ binders = [] ∧ ys = []) →
      (∀ y : Nat, y ∈ ys → Blank g y) → g.node? nil = some m → m.isLeaf = true →
      Tidy g (ys ++ [f.param, f.self]) cons →
      (∀ u : Nat, u ∈ (g.usedOf f.whole).ids → Free g u) → Helper g f ys

end

theorem Helper.loop {f : Loop} {ys : List ValueId} (h : Helper g f ys) : f.In g := by
  cases h with
  | mk hf => exact hf

/-- A value without parts. -/
theorem Tidy.leaf (hn : g.node? id = some n) (hl : n.isLeaf = true) : Tidy g Δ id := by
  refine .node hn ?_ ?_
  · cases n <;> first | rfl | cases hl
  · cases n <;> simp_all [Node.isLeaf, reach, strict?, Node.rhs?, Node.subs]

theorem Settled.tidy (h : Settled g id) : Tidy g Δ id := by
  induction h with
  | const hn => exact .leaf hn rfl
  | view hn _ ih =>
    exact .node hn rfl (by simpa [reach, strict?, Node.rhs?, Node.subs] using ih)

/-- A variable without a definition that is bound around the value. -/
theorem Tidy.blank (hu : UsedInside g) (hΔ : id ∈ Δ) (hb : Blank g id) : Tidy g Δ id := by
  obtain ⟨x, hx⟩ := hb
  refine .given hΔ hx rfl fun u hmem hne => ?_
  rcases hu id _ u hx hmem with ⟨heq, -⟩ | ⟨y, hy, -⟩
  · exact absurd heq hne
  · simp [Node.rhs?, Node.subs] at hy

/-- A value of first order is made of nodes that bind nothing. -/
theorem tidy_of_means {o : FirstOrder.Outcome} (h : FirstOrder.Means g id o) : Tidy g Δ id := by
  induction id using Nat.strongRecOn generalizing o with
  | ind id ih =>
    obtain ⟨v, hv⟩ := h.valid.exists_value
    have hn := node?_of_value hv
    have hflat : isFlat v.node = true ∧ strict? v.node = none := by
      generalize v.node = n at hn
      cases h.reads hn with
      | @choice _ _ _ binders native _ _ _ _ _ hb =>
        cases native with
        | true => exact ⟨List.isEmpty_iff.2 hb, rfl⟩
        | false => exact ⟨rfl, rfl⟩
      | _ => exact ⟨rfl, rfl⟩
    refine .node hn hflat.1 fun x hx => ?_
    rw [reach, hflat.2] at hx
    obtain ⟨hn', hlt, hm, -⟩ := h
    cases hn.symm.trans hn'
    exact ih x (hlt x hx) (hm x hx)

/-! ## What tidy values use -/

theorem not_mem_usedOf_leaf (hu : UsedInside g) (hn : g.node? id = some n)
    (hl : n.isLeaf = true) : u ∉ (g.usedOf id).ids := by
  intro hmem
  rcases hu id n u hn hmem with ⟨-, hid⟩ | ⟨x, hx, -⟩
  · cases n <;> simp_all [Node.isLeaf, Node.isIdentifiable]
  · cases n <;> simp_all [Node.isLeaf, Node.rhs?, Node.subs]

theorem Settled.not_mem_usedOf (hu : UsedInside g) (h : Settled g id) : u ∉ (g.usedOf id).ids := by
  induction h with
  | const hn => exact not_mem_usedOf_leaf hu hn rfl
  | view hn _ ih =>
    intro hmem
    rcases hu _ _ u hn hmem with ⟨-, hid⟩ | ⟨y, hy, huy⟩
    · cases hid
    · simp only [Node.rhs?, Node.subs, reduceCtorEq, List.mem_singleton, false_or] at hy
      exact ih (hy ▸ huy)

theorem Free.identifiable (h : Free g id) : ∃ n r, g.node? id = some n ∧
    n.isIdentifiable = true ∧ n.rhs? = some r := by
  cases h with
  | loop hf =>
    obtain ⟨x, hx⟩ := hf.loop.self
    exact ⟨_, _, hx, rfl, rfl⟩
  | @loose _ r n hn hr _ =>
    refine ⟨n, r, hn, ?_, hr⟩
    cases n <;> first | rfl | cases hr

theorem Free.used (hu : UsedInside g) (h : Free g id) (hmem : u ∈ (g.usedOf id).ids) :
    Free g u := by
  cases h with
  | @loop f _ hf =>
    obtain ⟨x, hx⟩ := hf.loop.self
    rcases hu _ _ u hx hmem with ⟨rfl, -⟩ | ⟨y, hy, huy⟩
    · exact .loop hf
    · simp only [Node.rhs?, Node.subs, Option.some.injEq, List.not_mem_nil, or_false] at hy
      subst hy
      obtain ⟨_, _, _, _, _, _, _, hfree⟩ := hf
      exact hfree u huy
  | @loose _ r n hn hr hc =>
    rcases hu id n u hn hmem with ⟨rfl, -⟩ | ⟨y, hy | hy, huy⟩
    · exact .loose hn hr hc
    · rw [hr] at hy
      cases hy
      exact absurd huy (hc.not_mem_usedOf hu)
    · cases n <;> simp_all [Node.rhs?, Node.subs]

/-- The kinds of tidy values. -/
theorem Tidy.kind (h : Tidy g Δ id) (hn : g.node? id = some n) :
    n.isIdentifiable = true ∨ isFlat n = true ∨
      ∃ x bs owned binders, n = .caseOf .data true x bs owned binders := by
  cases h with
  | given _ hn' hid =>
    rw [hn] at hn'
    cases hn'
    exact .inl hid
  | free hf =>
    obtain ⟨m, r, hn', hid, -⟩ := hf.identifiable
    rw [hn] at hn'
    cases hn'
    exact .inl hid
  | node hn' hflat =>
    rw [hn] at hn'
    cases hn'
    exact .inr (.inl hflat)
  | unpack hn' =>
    rw [hn] at hn'
    cases hn'
    exact .inr (.inr ⟨_, _, _, _, rfl⟩)

/-- A definition that recurs is no tidy value. -/
theorem Tidy.not_fix (h : Tidy g Δ id) {self rec : ValueId} :
    g.node? id ≠ some (.fix self rec) := by
  intro hn
  rcases h.kind hn with hid | hflat | ⟨_, _, _, _, heq⟩
  · cases hid
  · cases hflat
  · cases heq

/-- What a tidy value is made from comes before it. -/
theorem lt_of_mem_reach (hi : Inv g) (hn : g.node? id = some n) (hx : x ∈ reach n)
    (ht : Tidy g Δ x) : x < id := by
  rw [reach, List.mem_append, List.mem_append, Option.mem_toList, Option.mem_toList] at hx
  rcases hx with (hx | hx) | hx
  · cases n with
    | letIn owned strict body =>
      cases strict with
      | none => cases hx
      | some y =>
        cases hx
        exact (hi.owned id _ hn x (hi.strict id _ hn)).2
    | _ => cases hx
  · rcases (hi.rhs id x n hn hx).2 with hlt | ⟨-, rec, hfix⟩
    · exact hlt
    · exact absurd hfix ht.not_fix
  · exact (hi.subs id n hn x hx).2

/-- **What a tidy value uses is tidy in the same place**, and comes before it
or can be used anywhere. -/
theorem Tidy.used (hi : Inv g) (hu : UsedInside g) (h : Tidy g Δ id)
    (hmem : u ∈ (g.usedOf id).ids) :
    Tidy g Δ u ∧ (u ≤ id ∨ Free g u) ∧ ∃ n, g.node? u = some n ∧ n.isIdentifiable = true := by
  have free : ∀ {u}, Free g u →
      Tidy g Δ u ∧ (u ≤ id ∨ Free g u) ∧ ∃ n, g.node? u = some n ∧ n.isIdentifiable = true := by
    intro u hf
    obtain ⟨n, r, hn, hid, -⟩ := hf.identifiable
    exact ⟨.free hf, .inr hf, n, hn, hid⟩
  induction id using Nat.strongRecOn generalizing Δ with
  | ind id ih =>
    cases h with
    | @given _ _ n hΔ hn hid hused =>
      by_cases hu : u = id
      · subst hu
        exact ⟨.given hΔ hn hid hused, .inl (Nat.le_refl _), n, hn, hid⟩
      · exact free (hused u hmem hu)
    | free hf => exact free (hf.used hu hmem)
    | @node _ _ n hn hflat hparts =>
      rcases hu id n u hn hmem with ⟨rfl, hid⟩ | ⟨x, hx, hux⟩
      · exact ⟨.node hn hflat hparts, .inl (Nat.le_refl _), n, hn, hid⟩
      · have hx : x ∈ reach n := by
          simp only [reach, List.append_assoc, List.mem_append, Option.mem_toList]
          exact .inr hx
        have hlt := lt_of_mem_reach hi hn hx (hparts x hx)
        obtain ⟨ht, hle, hid⟩ := ih x hlt (hparts x hx) hux fun hf => by
          obtain ⟨h1, h2, h3⟩ := free hf
          exact ⟨h1, .inr hf, h3⟩
        exact ⟨ht, hle.imp_left fun hle => by omega, hid⟩
    | @unpack _ x b bs owned ys binders hn _ _ hx _ hused =>
      by_cases hux : u ∈ (g.usedOf x).ids
      · have hlt := (hi.subs id _ hn x (by simp [Node.subs])).2
        obtain ⟨ht, hle, hid⟩ := ih x hlt hx hux fun hf => by
          obtain ⟨h1, h2, h3⟩ := free hf
          exact ⟨h1, .inr hf, h3⟩
        exact ⟨ht, hle.imp_left fun hle => by omega, hid⟩
      · exact free (hused u hmem hux)

/-- Where no variable is bound, what a tidy value uses has a definition. -/
theorem Tidy.defined (hi : Inv g) (hu : UsedInside g) (h : Tidy g [] id)
    (hmem : u ∈ (g.usedOf id).ids) : Defined g u := by
  obtain ⟨ht, -, m, hm, hid⟩ := h.used hi hu hmem
  cases ht with
  | given hΔ => cases hΔ
  | free hf =>
    obtain ⟨n, r, hn, -, hr⟩ := hf.identifiable
    exact ⟨n, hn, by rw [hr]; rfl⟩
  | node hn hflat =>
    rw [hm] at hn
    cases hn
    refine ⟨m, hm, ?_⟩
    cases m with
    | var | aliased => exact hflat
    | _ => cases hid
  | unpack hn =>
    rw [hm] at hn
    cases hn
    cases hid

/-! ## What is bound at tidy values -/

/-- A variable that two parts need is needed by the first one, if at most one
of the others needs it. -/
theorem mem_of_shared {xs : List ValueId} (hs : u ∈ (g.sharedIn n).ids) (hsubs : n.subs = x :: xs)
    (hxs : xs.countP (fun y => (g.usedOf y).has u) ≤ 1) : u ∈ (g.usedOf x).ids := by
  obtain ⟨-, hcount⟩ := VarSet.mem_filter.1 hs
  rw [hsubs, decide_eq_true_eq, List.countP_map, List.countP_cons] at hcount
  by_contra hx
  rw [← VarSet.has_iff] at hx
  simp only [Function.comp_def, hx, Bool.false_eq_true, if_false] at hcount
  omega

theorem countP_leaf (hu : UsedInside g) {bs : List ValueId}
    (hbs : ∀ b : Nat, b ∈ bs → ∃ n, g.node? b = some n ∧ n.isLeaf = true) :
    bs.countP (fun y => (g.usedOf y).has u) = 0 := by
  refine List.countP_eq_zero.2 fun b hb hused => ?_
  obtain ⟨m, hm, hl⟩ := hbs b hb
  exact not_mem_usedOf_leaf hu hm hl (VarSet.has_iff.1 hused)

theorem exists_sub_of_shared (hs : u ∈ (g.sharedIn n).ids) :
    ∃ x ∈ n.subs, u ∈ (g.usedOf x).ids := by
  obtain ⟨t, ht, hut⟩ := mem_unions.1 (VarSet.mem_filter.1 hs).1
  obtain ⟨x, hx, rfl⟩ := List.mem_map.1 ht
  exact ⟨x, hx, hut⟩

/-- A tidy value that is no variable has tidy parts, or it takes data apart. -/
theorem Tidy.inner (h : Tidy g Δ id) (hn : g.node? id = some n) (hid : n.isIdentifiable = false) :
    (isFlat n = true ∧ ∀ x : Nat, x ∈ reach n → Tidy g Δ x) ∨
      ∃ (x b : Nat) (bs owned ys : List ValueId) (binders : List (List ValueId)),
        n = .caseOf .data true x (b :: bs) owned (ys :: binders) ∧ Δ = [] ∧
        (∀ b' : Nat, b' ∈ bs → ∃ n, g.node? b' = some n ∧ n.isLeaf = true) ∧
        (∀ y : Nat, y ∈ ys ++ binders.flatten → Blank g y) ∧ Tidy g [] x ∧ Tidy g ys b := by
  cases h with
  | given _ hn' hid' =>
    cases hn.symm.trans hn'
    cases hid.symm.trans hid'
  | free hf =>
    obtain ⟨m, r, hm, hid', -⟩ := hf.identifiable
    cases hn.symm.trans hm
    cases hid.symm.trans hid'
  | node hn' hflat hparts =>
    cases hn.symm.trans hn'
    exact .inl ⟨hflat, hparts⟩
  | unpack hn' hleaf hblank hx hb _ =>
    cases hn.symm.trans hn'
    exact .inr ⟨_, _, _, _, _, _, rfl, rfl, hleaf, hblank, hx, hb⟩

/-- What is bound at a tidy value. -/
structure BoundAt (g : State) (Δ : List ValueId) (id x : Nat) : Prop where
  tidy : Tidy g Δ x
  before : x < id ∨ Free g x
  bindable : (g.bindable? x).isSome = true
  harmless : Cheap g x ∨ Certain g id x

/-- **What is bound at a tidy value is tidy in the same place.** -/
theorem Tidy.boundAt (hi : Inv g) (hu : UsedInside g) (h : Tidy g Δ id) (hn : g.node? id = some n)
    (hid : n.isIdentifiable = false) {xs : List ValueId} (hp : Placed g (Certain g) id xs)
    (hx : x ∈ xs) : BoundAt g Δ id x := by
  obtain ⟨m, set, hm, rfl, hset⟩ := hp
  rw [hn] at hm
  cases hm
  -- it is enough to find a part of the value that is tidy here and uses the variable
  have part : ∀ y : Nat, y ∈ n.subs → Tidy g Δ y → x ∈ (g.usedOf y).ids →
      Tidy g Δ x ∧ (x < id ∨ Free g x) := by
    intro y hy ht hxy
    have hlt := (hi.subs id n hn y hy).2
    obtain ⟨h1, h2, -⟩ := ht.used hi hu hxy
    exact ⟨h1, h2.imp_left fun hle => by omega⟩
  rcases hset x (mem_topoOrder.1 hx) with hs | hh
  · have ht : Tidy g Δ x ∧ (x < id ∨ Free g x) := by
      rcases h.inner hn hid with ⟨-, hparts⟩ | ⟨y, _, _, _, _, _, rfl, rfl, hleaf, -, hy, -⟩
      · obtain ⟨y, hy, hxy⟩ := exists_sub_of_shared hs.shared
        exact part y hy (hparts y (List.mem_append_right _ hy)) hxy
      · refine part y (List.mem_cons_self ..) hy (mem_of_shared hs.shared rfl ?_)
        rw [List.countP_cons, countP_leaf hu hleaf]
        split <;> omega
    exact ⟨ht.1, ht.2, hs.bindable, hs.harmless⟩
  · obtain ⟨p, body, rfl, -⟩ := hh.barrier
    rcases h.inner hn hid with ⟨hflat, -⟩ | ⟨_, _, _, _, _, _, hcase, -⟩
    · cases hflat
    · cases hcase

theorem eq_nil_of_placed {xs : List ValueId} (hn : g.node? id = some n)
    (hp : Placed g (Certain g) id xs) (hs : ∀ u : Nat, ¬SharedAt g (Certain g) id n u)
    (hh : ∀ u : Nat, ¬HoistedAt g (Certain g) n u) : xs = [] := by
  obtain ⟨m, set, hm, rfl, hset⟩ := hp
  rw [hn] at hm
  cases hm
  refine List.eq_nil_iff_forall_not_mem.2 fun u hu => ?_
  exact (hset u (mem_topoOrder.1 hu)).elim (hs u) (hh u)

/-- A value with one part shares nothing between parts. -/
theorem not_sharedAt_single {sure : Nat → Nat → Prop} {x : ValueId} (hsubs : n.subs = [x]) :
    ¬SharedAt g sure id n u := by
  intro hs
  obtain ⟨-, hcount⟩ := VarSet.mem_filter.1 hs.shared
  rw [hsubs, decide_eq_true_eq] at hcount
  have := List.countP_le_length (p := fun t : VarSet => t.has u) (l := [x].map g.usedOf)
  simp only [List.map_cons, List.map_nil, List.length_cons, List.length_nil] at this hcount
  omega

section

variable {f : Loop} {ys xs : List ValueId}

/-- Nothing is bound around a helper. -/
theorem Helper.not_placed_whole (h : Helper g f ys) (hp : Placed g (Certain g) f.whole xs) :
    xs = [] := by
  refine eq_nil_of_placed h.loop.whole hp (fun u => not_sharedAt_single rfl) fun u hh => ?_
  obtain ⟨p, body, hb, -⟩ := hh.barrier
  cases hb

/-- Of the body of a helper nothing is certain but the parameter. -/
theorem Helper.eq_of_certain (h : Helper g f ys) (hc : Certain g f.body u) : u = f.param := by
  obtain ⟨x, hparam⟩ := h.loop.param
  obtain ⟨hf, hbody, -, -, hnil, hleaf, -⟩ := h
  cases hc with
  | self hn hid | rhs hn hid | sub hn hid =>
    rw [hbody] at hn
    cases hn
    cases hid
  | scrutinee hn hc =>
    rw [hbody] at hn
    cases hn
    exact eq_of_certain_blank hparam hc
  | branches hn _ hc =>
    rw [hbody] at hn
    cases hn
    exact absurd (hc _ (by simp)) (not_certain_leaf hnil hleaf)
  | barrier hn | forceDelay hn | letIn hn =>
    rw [hbody] at hn
    cases hn

/-- Nothing is bound outside of the body of a helper. -/
theorem Helper.not_placed_fn (h : Helper g f ys) (hp : Placed g (Certain g) f.fn xs) : xs = [] := by
  refine eq_nil_of_placed h.loop.fn hp (fun u => not_sharedAt_single rfl) fun u hh => ?_
  obtain ⟨p, body, hb, hsure⟩ := hh.barrier
  cases hb
  have hne := ((mem_outside.1 hh.used).2 f.param (by simp [Node.scopeOf])).1
  exact hne (h.eq_of_certain hsure)

/-- Nothing is bound before the list of a helper is taken apart. -/
theorem Helper.not_placed_body (hu : UsedInside g) (h : Helper g f ys)
    (hp : Placed g (Certain g) f.body xs) : xs = [] := by
  obtain ⟨x, hparam⟩ := h.loop.param
  obtain ⟨hf, hbody, -, -, hnil, hleaf, -⟩ := h
  refine eq_nil_of_placed hbody hp (fun u hs => ?_) fun u hh => ?_
  · have hmem : u ∈ (g.usedOf f.param).ids := by
      refine mem_of_shared hs.shared rfl ?_
      rw [List.countP_cons, countP_leaf hu (by simpa using ⟨_, hnil, hleaf⟩)]
      split <;> omega
    have heq : u = f.param := by
      rcases hu _ _ u hparam hmem with ⟨heq, -⟩ | ⟨y, hy, -⟩
      · exact heq
      · simp [Node.rhs?, Node.subs] at hy
    obtain ⟨v, hv, hvn⟩ := value_of_node? hparam
    have hb := hs.bindable
    rw [heq, State.bindable?, hv] at hb
    simp [hvn, Node.rhs?] at hb
  · obtain ⟨p, body, hb, -⟩ := hh.barrier
    cases hb

end

end CoreLowering.Encoding
