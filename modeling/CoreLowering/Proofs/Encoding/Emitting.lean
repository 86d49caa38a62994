import CoreLowering.Proofs.Encoding.Shape

/-!
# Emission of tidy values

Emission of a tidy value succeeds wherever the variables that it is built from
are bound.  It goes down to smaller values, except where it enters a helper;
then the variable of the helper is bound for the first time, so this happens
once at most for each value of the graph.

Main statement: `Tidy.emitWith_works`.
-/

namespace CoreLowering.Encoding

open CoreLowering.Graph

variable {g : State} {id : Nat} {Δ : List ValueId} {bound : Bound} {x r fuel : Nat} {n : Node}

/-! ## Variables that are not bound -/

/-- The number of values that are not bound. -/
def unbound (g : State) (bound : Bound) : Nat :=
  (List.range g.size).countP fun i => decide (i + 1 ∉ bound)

theorem unbound_le (bound : Bound) : unbound g bound ≤ g.size := by
  have := List.countP_le_length (p := fun i => decide (i + 1 ∉ bound)) (l := List.range g.size)
  rwa [List.length_range] at this

theorem unbound_mono {inside : Bound} (h : bound ⊆ inside) :
    unbound g inside ≤ unbound g bound := by
  refine List.countP_mono_left fun i _ hi => ?_
  rw [decide_eq_true_eq] at hi ⊢
  exact fun hb => hi (h hb)

theorem unbound_cons_lt (hx : Valid g x) (hb : x ∉ bound) :
    unbound g (x :: bound) < unbound g bound := by
  obtain ⟨i, rfl⟩ : ∃ i, x = i + 1 := Nat.exists_eq_succ_of_ne_zero (Nat.ne_of_gt hx.1)
  have hi : i < g.size := hx.2
  have hmem : i ∈ List.range g.size := List.mem_range.2 hi
  obtain ⟨before, after, hsplit⟩ := List.append_of_mem hmem
  have mono : ∀ l : List Nat, l.countP (fun j => decide (j + 1 ∉ (i + 1) :: bound)) ≤
      l.countP fun j => decide (j + 1 ∉ bound) := by
    refine fun l => List.countP_mono_left fun j _ hj => ?_
    rw [decide_eq_true_eq] at hj ⊢
    exact fun h => hj (List.mem_cons_of_mem _ h)
  have h1 := mono before
  have h2 := mono after
  have hin : decide (i + 1 ∉ (i + 1) :: bound) = false := by simp
  have hout : decide (i + 1 ∉ bound) = true := by simpa using hb
  simp only [unbound, hsplit, List.countP_append, List.countP_cons, hin, hout]
  simp only [Bool.false_eq_true, if_false, if_true]
  omega

/-! ## Definitions of tidy variables -/

/-- The definition of a variable that can be used anywhere. -/
theorem Free.definition (h : Free g x) (hn : g.node? x = some n) (hr : n.rhs? = some r) :
    Settled g r ∨ ∃ f ys, Helper g f ys ∧ x = f.self ∧ r = f.whole := by
  cases h with
  | @loop f ys hf =>
    obtain ⟨y, hy⟩ := hf.loop.self
    rw [hn] at hy
    cases hy
    cases hr
    exact .inr ⟨f, ys, hf, rfl, rfl⟩
  | loose hn' hr' hc =>
    rw [hn] at hn'
    cases hn'
    rw [hr] at hr'
    cases hr'
    exact .inl hc

/-- The definition of a tidy variable is tidy and comes before it, or it is a
helper. -/
theorem Tidy.definition (hi : Inv g) (h : Tidy g Δ x) (hx : x ∉ Δ) (hn : g.node? x = some n)
    (hr : n.rhs? = some r) :
    Tidy g Δ r ∧ r < x ∨ ∃ f ys, Helper g f ys ∧ x = f.self ∧ r = f.whole := by
  have plain : Tidy g Δ r → Tidy g Δ r ∧ r < x := by
    intro ht
    rcases (hi.rhs x r n hn hr).2 with hlt | ⟨-, rec, hfix⟩
    · exact ⟨ht, hlt⟩
    · exact absurd hfix ht.not_fix
  cases h with
  | given hΔ => exact absurd hΔ hx
  | free hf => exact (hf.definition hn hr).imp_left fun hc => plain hc.tidy
  | node hn' _ hparts =>
    rw [hn] at hn'
    cases hn'
    exact .inl (plain (hparts r (by simp [reach, hr])))
  | unpack hn' =>
    rw [hn] at hn'
    cases hn'
    cases hr

/-- The definition of a variable that is bound at a tidy value. -/
theorem BoundAt.definition (hi : Inv g) (h : BoundAt g Δ id x) (hx : x ∉ Δ)
    (hn : g.node? x = some n) (hr : n.rhs? = some r) :
    Tidy g Δ r ∧ r < id ∨ Settled g r ∨ ∃ f ys, Helper g f ys ∧ x = f.self ∧ r = f.whole := by
  rcases h.tidy.definition hi hx hn hr with ⟨ht, hlt⟩ | hf
  · rcases h.before with hx | hfree
    · exact .inl ⟨ht, by omega⟩
    · exact .inr (hfree.definition hn hr)
  · exact .inr (.inr hf)

/-- The variable that a scope evaluates first, at the end of a chain of
definitions. -/
theorem Tidy.strictRoot (hi : Inv g) {y : Nat} (h : Tidy g Δ x) (hΔ : Δ ⊆ bound)
    (hr : g.strictRoot bound fuel x = some (y, r)) :
    Tidy g Δ y ∧ y ≤ x ∧ ∀ {k ρ v}, Denotes g k ρ x v → ∃ j ≤ k, Denotes g j ρ y v := by
  induction fuel generalizing x with
  | zero => cases hr
  | succ fuel ih =>
    unfold State.strictRoot at hr
    split at hr
    · cases hr
    · rename_i v hv
      have hn := node?_of_value hv
      split at hr
      · cases hr
      · rename_i hb
        have hx : x ∉ Δ := fun hx => hb (by simpa using hΔ hx)
        split at hr
        · cases hr
        · rename_i rhs hrhs
          split at hr
          · cases hr
          · rename_i w hw
            split at hr
            · rename_i hid
              rcases h.definition hi hx hn hrhs with ⟨ht, hlt⟩ | ⟨f, ys, hf, rfl, rfl⟩
              · obtain ⟨hy, hle, hd⟩ := ih ht hr
                refine ⟨hy, by omega, fun hdx => ?_⟩
                obtain ⟨j, hj, hdr⟩ := hdx.definition hn hrhs ht.not_fix
                obtain ⟨i, hi, hdy⟩ := hd hdr
                exact ⟨i, by omega, hdy⟩
              · have := hf.loop.whole
                rw [node?_of_value hw, Option.some.injEq] at this
                rw [this] at hid
                cases hid
            · split at hr
              · cases hr
              · cases hr
                exact ⟨h, Nat.le_refl _, fun hd => ⟨_, Nat.le_refl _, hd⟩⟩

/-! ## Emission of values -/

/-- A node that binds nothing in its parts. -/
theorem emittable_of_flat {J : Array Value → Prop} {emit : Emitter} (hflat : isFlat n = true)
    (hw : ∀ x : Nat, x ∈ n.subs → Works J g (emit bound x))
    (hstrict : ∀ x : Nat, strict? n = some x →
      (∀ body : Nat, body ∈ n.subs → ∀ inside, bound ⊆ inside → Works J g (emit inside body)) ∧
      ∀ y r, g.strictRoot bound (g.size + 1) x = some (y, r) →
      Valid g y ∧ Works J g (emit bound r)) : Emittable J g emit bound n := by
  cases n with
  | lambda | fix | delay | force => cases hflat
  | apply f a => exact ⟨hw f (by simp [Node.subs]), hw a (by simp [Node.subs])⟩
  | letIn owned strict body =>
    have hbody : body ∈ (Node.letIn owned strict body).subs := by simp [Node.subs]
    cases strict with
    | none => exact hw body hbody
    | some x => exact ⟨(hstrict x rfl).1 body hbody, (hstrict x rfl).2⟩
  | caseOf sh native x bs owned binders =>
    rw [Node.subs, List.forall_mem_cons] at hw
    cases native with
    | true =>
      have hb : binders.flatten = [] := List.isEmpty_iff.1 hflat
      refine ⟨hw.1, by simp [hb], fun i b hi => ?_⟩
      have hnone : (binders[i]?).getD [] = [] := by
        cases hys : binders[i]? with
        | none => rfl
        | some ys => exact List.flatten_eq_nil_iff.1 hb ys (List.mem_of_getElem? hys)
      rw [hnone]
      exact hw.2 b (List.mem_of_getElem? hi)
    | false => exact ⟨hflat, hw⟩
  | builtin f args => exact hw
  | reinterpret x => exact hw x (by simp [Node.subs])
  | _ => trivial

theorem Tidy.exists_node (h : Tidy g Δ id) : ∃ n, g.node? id = some n := by
  cases h with
  | given _ hn => exact ⟨_, hn⟩
  | free hf =>
    obtain ⟨n, -, hn, -⟩ := hf.identifiable
    exact ⟨n, hn⟩
  | node hn => exact ⟨_, hn⟩
  | unpack hn => exact ⟨_, hn⟩

/-- A tidy variable that is not bound has a definition. -/
theorem Tidy.exists_rhs (h : Tidy g Δ id) (hΔ : id ∉ Δ) (hn : g.node? id = some n)
    (hid : n.isIdentifiable = true) : ∃ r, n.rhs? = some r := by
  cases h with
  | given hmem => exact absurd hmem hΔ
  | free hf =>
    obtain ⟨m, r, hm, -, hr⟩ := hf.identifiable
    rw [hn] at hm
    cases hm
    exact ⟨r, hr⟩
  | node hm hflat =>
    rw [hn] at hm
    cases hm
    cases n with
    | var | aliased => exact Option.isSome_iff_exists.1 hflat
    | _ => cases hid
  | unpack hm =>
    rw [hn] at hm
    cases hm
    cases hid

/-- Emission, with what is certain and what is bound at values as they are. -/
abbrev Emitted (g : State) {α : Type} (m : LowerM α) : Prop :=
  Works (Filled (Certain g) (Placed g (Certain g))) g m

/-- How parts are emitted agrees with their terms. -/
theorem emitIn_emits (fuel : Nat) : EmitsWell (Filled (Certain g) (Placed g (Certain g))) g
    (Placed g (Certain g)) (emitIn dominating fuel) :=
  Graph.emitIn_emits (dominating_places certain_rules) fuel

/-- What has to be emitted for a value can be, with some fuel. -/
abbrev RipeIn (g : State) (fuel : Nat) (bound : Bound) (id : Nat) (n : Node) : Prop :=
  Ripe (Filled (Certain g) (Placed g (Certain g))) g (Placed g (Certain g))
    (emitIn dominating fuel) bound id n

theorem RipeIn.emitted (hi : Inv g) (h : RipeIn g fuel bound id n) (hn : g.node? id = some n) :
    Emitted g (emitIn dominating (fuel + 1) bound id) :=
  (emitStep_gives (dominating_places certain_rules) (emitIn_emits fuel)
    fun _ : True => ⟨⟨hi, valid_of_node? hn⟩, n, hn, h⟩).works trivial

/-- A value at which nothing is bound. -/
theorem emitted_of_node (hi : Inv g) (hn : g.node? id = some n) (hid : n.isIdentifiable = false)
    (hp : ∀ xs, Placed g (Certain g) id xs → xs = [])
    (hnode : Emittable (Filled (Certain g) (Placed g (Certain g))) g (emitIn dominating fuel)
      bound n) : Emitted g (emitIn dominating (fuel + 1) bound id) := by
  refine RipeIn.emitted hi (.node hid (fun xs hxs x hx => ?_) fun xs binds inside hxs hb => ?_) hn
  · rw [hp xs hxs] at hx
    cases hx
  · rw [hp xs hxs] at hb
    cases hb
    exact hnode

/-- Nothing is bound at a constant or at a view. -/
theorem not_placed_of_subs {xs : List ValueId} (hn : g.node? id = some n)
    (hsubs : n.subs.length ≤ 1) (hb : ∀ p body, n ≠ .lambda p body true)
    (hp : Placed g (Certain g) id xs) : xs = [] := by
  refine eq_nil_of_placed hn hp (fun u hs => ?_) fun u hh => ?_
  · match hsub : n.subs, hsubs with
    | [], _ =>
      obtain ⟨x, hx, -⟩ := exists_sub_of_shared hs.shared
      rw [hsub] at hx
      cases hx
    | [x], _ => exact not_sharedAt_single hsub hs
  · obtain ⟨p, body, hb', -⟩ := hh.barrier
    exact hb p body hb'

/-- A constant under views is emitted wherever it stands. -/
theorem Settled.emitted (hi : Inv g) (h : Settled g id) (hfuel : id < fuel) :
    Emitted g (emitIn dominating fuel bound id) := by
  obtain ⟨fuel, rfl⟩ : ∃ k, fuel = k + 1 := ⟨fuel - 1, by omega⟩
  induction h generalizing bound fuel with
  | const hn =>
    exact emitted_of_node hi hn rfl
      (fun _ => not_placed_of_subs hn (by simp [Node.subs]) (by simp)) trivial
  | @view id x hn _ ih =>
    have hlt := (hi.subs _ _ hn x (by simp [Node.subs])).2
    obtain ⟨fuel, rfl⟩ : ∃ k, fuel = k + 1 := ⟨fuel - 1, by omega⟩
    exact emitted_of_node hi hn rfl
      (fun _ => not_placed_of_subs hn (by simp [Node.subs]) (by simp)) (ih fuel (by omega))

section

variable (hi : Inv g) (hu : UsedInside g)

include hi hu

/-- Inside of a helper nothing is bound before its list is taken apart. -/
theorem Helper.emitted {f : Loop} {ys : List ValueId} (h : Helper g f ys) (hself : f.self ∉ bound)
    (hfuel : unbound g bound * (g.size + 1) ≤ fuel)
    (ih : ∀ fuel' < fuel, ∀ {Δ id bound}, Tidy g Δ id → Δ ⊆ bound →
      unbound g bound * (g.size + 1) + id < fuel' →
      Emitted g (emitIn dominating fuel' bound id)) :
    Emitted g (emitIn dominating fuel bound f.whole) := by
  have hplaced1 : ∀ xs, Placed g (Certain g) f.whole xs → xs = [] := fun _ => h.not_placed_whole
  have hplaced2 : ∀ xs, Placed g (Certain g) f.fn xs → xs = [] := fun _ => h.not_placed_fn
  have hplaced3 : ∀ xs, Placed g (Certain g) f.body xs → xs = [] := fun _ => h.not_placed_body hu
  obtain ⟨hf, hbody, hys, hblank, hnil, hleaf, hcons, -⟩ := h
  rename_i owned native cons nil m binders
  obtain ⟨x, hx⟩ := hf.self
  obtain ⟨y, hy⟩ := hf.param
  -- there is fuel for the three nodes of the helper and then for its branches
  have h1 := (hi.subs _ _ hf.whole f.fn (by simp [Node.subs])).2
  have h2 := (hi.subs _ _ hf.fn f.body (by simp [Node.subs])).2
  have hbs := fun b hb => (hi.subs _ _ hbody b hb).2
  have hsize := (valid_of_node? hf.whole).2
  have hlt := unbound_cons_lt (valid_of_node? hx) hself
  have hmul : (unbound g (f.self :: bound) + 1) * (g.size + 1) ≤ fuel :=
    Nat.le_trans (Nat.mul_le_mul_right _ hlt) hfuel
  rw [Nat.add_mul, Nat.one_mul] at hmul
  obtain ⟨fuel, rfl⟩ : ∃ k, fuel = k + 3 := ⟨fuel - 3, by omega⟩
  refine emitted_of_node hi hf.whole rfl hplaced1 ⟨valid_of_node? hx, ?_⟩
  refine emitted_of_node hi hf.fn rfl hplaced2 ⟨valid_of_node? hy, ?_⟩
  have part : ∀ {Δ} {x : Nat} {ys : List ValueId}, Tidy g Δ x → x < f.body →
      Δ ⊆ ys ++ [f.param, f.self] → Emitted g (emitIn dominating fuel
        (ys ++ f.param :: f.self :: bound) x) := by
    intro Δ x ys ht hlt hΔ
    refine ih fuel (by omega) ht (fun z hz => ?_) ?_
    · have := hΔ hz
      simp only [List.mem_append, List.mem_cons, List.not_mem_nil, or_false] at this ⊢
      tauto
    · have hmono : unbound g (ys ++ f.param :: f.self :: bound) ≤
          unbound g (f.self :: bound) :=
        unbound_mono fun z hz => by simp_all
      have := Nat.mul_le_mul_right (g.size + 1) hmono
      omega
  have hparam : ∀ ys : List ValueId, Emitted g (emitIn dominating fuel
      (ys ++ f.param :: f.self :: bound) f.param) :=
    fun _ => part (Δ := [f.param]) (.blank hu (by simp) ⟨y, hy⟩) (hbs _ (by simp [Node.subs]))
      (by simp)
  have hnil' : ∀ ys : List ValueId, Emitted g (emitIn dominating fuel
      (ys ++ f.param :: f.self :: bound) nil) :=
    fun _ => part (Δ := []) (.leaf hnil hleaf) (hbs _ (by simp [Node.subs])) (by simp)
  have hcons' := part hcons (hbs _ (by simp [Node.subs])) (List.Subset.refl _)
  refine emitted_of_node hi hbody rfl hplaced3 ?_
  rcases hys with ⟨rfl, rfl⟩ | ⟨rfl, -, rfl⟩
  · refine ⟨hparam [], fun z hz => ?_, fun i b hb => ?_⟩
    · obtain ⟨z', hz'⟩ := hblank z (by simpa using hz)
      exact valid_of_node? hz'
    · rcases i with _ | _ | i <;> cases hb
      · exact hcons'
      · exact hnil' []
  · refine ⟨rfl, hparam [], ?_⟩
    simp only [List.mem_cons, List.not_mem_nil, or_false]
    rintro b (rfl | rfl)
    · exact hcons'
    · exact hnil' []

/-- **Emission of a tidy value succeeds** where the variables that it is built
from are bound. -/
theorem Tidy.emitted (h : Tidy g Δ id) (hΔ : Δ ⊆ bound)
    (hfuel : unbound g bound * (g.size + 1) + id < fuel) :
    Emitted g (emitIn dominating fuel bound id) := by
  induction fuel using Nat.strongRecOn generalizing Δ id bound with
  | ind fuel ih =>
    obtain ⟨fuel, rfl⟩ : ∃ k, fuel = k + 1 := ⟨fuel - 1, by omega⟩
    obtain ⟨n, hn⟩ := h.exists_node
    -- a part, or a definition, under no fewer bindings
    have part : ∀ {Δ'} {x : Nat} {inside : Bound}, Tidy g Δ' x → x < id → Δ' ⊆ inside →
        bound ⊆ inside → Emitted g (emitIn dominating fuel inside x) := by
      intro Δ' x inside ht hlt hsub hin
      have := Nat.mul_le_mul_right (g.size + 1) (unbound_mono (g := g) hin)
      exact ih fuel (Nat.lt_succ_self _) ht hsub (by omega)
    have definition : ∀ {x r : Nat} {inside : Bound},
        (Tidy g Δ r ∧ r < id ∨ Settled g r ∨ ∃ f ys, Helper g f ys ∧ x = f.self ∧ r = f.whole) →
        Valid g x → x ∉ inside → bound ⊆ inside →
        Emitted g (emitIn dominating fuel inside r) := by
      intro x r inside hr hvalid hx hin
      have hle := Nat.mul_le_mul_right (g.size + 1) (unbound_mono (g := g) hin)
      rcases hr with ⟨ht, hlt⟩ | hc | ⟨f, ys, hf, rfl, rfl⟩
      · exact part ht hlt (fun z hz => hin (hΔ hz)) hin
      · -- the variable itself is not bound, so there is fuel for one value more
        obtain ⟨m, hm⟩ := (hc.tidy : Tidy g [] r).exists_node
        have hr := (valid_of_node? hm).2
        have hpos := Nat.mul_le_mul_right (g.size + 1)
          (Nat.lt_of_le_of_lt (Nat.zero_le _) (unbound_cons_lt hvalid hx))
        exact hc.emitted hi (by omega)
      · exact hf.emitted hi hu hx (by omega) fun k hk => ih k (by omega)
    refine RipeIn.emitted hi ?_ hn
    cases hid : n.isIdentifiable with
    | true =>
      refine .var hid fun hb => ?_
      obtain ⟨r, hr⟩ := h.exists_rhs (fun hm => hb (hΔ hm)) hn hid
      exact ⟨n, r, hn, hr, fun inside hin hb' =>
        definition ((h.definition hi (fun hm => hb (hΔ hm)) hn hr).imp_right .inr)
          (valid_of_node? hn) hb' hin⟩
    | false =>
      refine .node hid (fun xs hxs x hx hb => ?_) ?_
      · have hx := h.boundAt hi hu hn hid hxs hx
        obtain ⟨m, hm⟩ := hx.tidy.exists_node
        have hxΔ : x ∉ Δ := fun hm => hb (hΔ hm)
        obtain ⟨r, hr⟩ : ∃ r, m.rhs? = some r := by
          obtain ⟨v, hv, rfl⟩ := value_of_node? hm
          have hbind := hx.bindable
          rw [State.bindable?, hv] at hbind
          simp only at hbind
          split at hbind
          · cases hbind
          · exact Option.isSome_iff_exists.1 hbind
        exact ⟨m, r, hm, hr, fun inside hin hx' =>
          definition (hx.definition hi hxΔ hm hr) (valid_of_node? hm) hx' hin⟩
      · intro xs binds inside hxs hbinds
        have hin : bound ⊆ _ := fun y hy => hbinds.mem_inside.2 (.inr hy)
        rcases h.inner hn hid with ⟨hflat, hparts⟩ |
          ⟨x, b, bs, owned, ys, binders, rfl, rfl, hleaf, hblank, hx, hb⟩
        · have sub : ∀ x : Nat, x ∈ n.subs → ∀ inside', inside ⊆ inside' →
              Emitted g (emitIn dominating fuel inside' x) := by
            intro x hx inside' hin'
            exact part (hparts x (List.mem_append_right _ hx)) (hi.subs id n hn x hx).2
              (fun z hz => hin' (hin (hΔ hz))) fun z hz => hin' (hin hz)
          refine emittable_of_flat hflat (fun x hx => sub x hx inside (List.Subset.refl _)) ?_
          intro x hx
          have hreach : x ∈ reach n := by simp [reach, hx]
          have htx := hparts x hreach
          have hlt := lt_of_mem_reach hi hn hreach htx
          refine ⟨sub, fun y r hroot => ?_⟩
          obtain ⟨hy, ⟨m, hm, hr⟩, -⟩ := strictRoot_spec hroot
          obtain ⟨hty, hle, -⟩ := htx.strictRoot hi (fun z hz => hin (hΔ hz)) hroot
          refine ⟨valid_of_node? hm, definition ?_ (valid_of_node? hm) hy hin⟩
          exact (hty.definition hi (fun hmem => hy (hin (hΔ hmem))) hm hr).imp
            (And.imp_right fun hlt' => by omega) .inr
        · have hsub := fun y hy => (hi.subs id _ hn y hy).2
          refine ⟨part hx (hsub x (by simp [Node.subs])) (by simp) hin, fun z hz => ?_,
            fun i b' hb' => ?_⟩
          · obtain ⟨z', hz'⟩ := hblank z (by simpa using hz)
            exact valid_of_node? hz'
          · cases i with
            | zero =>
              cases hb'
              exact part hb (hsub b (by simp [Node.subs])) (by simp)
                fun z hz => List.mem_append_right _ (hin hz)
            | succ i =>
              have hmem : b' ∈ bs := List.mem_of_getElem? hb'
              obtain ⟨m, hm, hl⟩ := hleaf b' hmem
              exact part (.leaf hm hl : Tidy g [] b') (hsub b' (by simp [Node.subs, hmem]))
                (by simp) fun z hz => List.mem_append_right _ (hin hz)

theorem Tidy.emitWith_works (h : Tidy g [] id) : Emitted g (emitWith dominating id) := by
  refine fun s hs hj => h.emitted hi hu (List.Subset.refl _) ?_ s hs hj
  obtain ⟨n, hn⟩ := h.exists_node
  have hid := (valid_of_node? hn).2
  have hle := Nat.mul_le_mul_right (g.size + 1) (unbound_le (g := g) [])
  rw [hs.size]
  calc unbound g [] * (g.size + 1) + id ≤ g.size * (g.size + 1) + g.size := by omega
    _ < (g.size + 1) * (g.size + 1) := by rw [Nat.add_mul, Nat.one_mul]; omega

end

/-- What can be emitted is, as a term of the value. -/
theorem exists_emit (h : Emitted g (emitWith dominating id)) (hf : Unfilled g)
    (hfix : g.usesFix = false) :
    ∃ t s, (Graph.emit id).run g = (.ok (t.erase g.nameOf), s) ∧ SameGraph g s ∧
      Emits g (Placed g (Certain g)) [] id t ∧ s.usesFix = t.usesFix := by
  obtain ⟨u, s, hemit⟩ := h g .refl hf.filled
  obtain ⟨hs, -, b, hb, t, hemits, rfl, rfl⟩ :=
    (emitWith_gives (dominating_places certain_rules) id).ok .refl hf.filled hemit
  rw [hfix, Bool.false_or] at hb
  refine ⟨t, s, ?_, hs, hemits, hb⟩
  rw [Graph.emit, reporting, run_tryCatch, hemit]

end CoreLowering.Encoding
