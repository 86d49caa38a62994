import CoreLowering.Proofs.Graph.Usage

/-!
# What values use

A variable is settled once it is defined by a value from before it.  The others
are parameters, variables that a native case takes out of its scrutinee and
recursive functions: what is built inside the scope of one of them uses it, and
what is built outside does not.  `Within K s id` says that the value `id` is
there and uses, helpers apart, only those in `K`.

Main statements: `Trace.lexical`, along every trace views use what their
variables use and helpers use nothing but helpers; `Trace.inv`, the invariant
holds along every trace.
-/

namespace CoreLowering.Graph

variable {s s' : State} {id i b l x u : Nat} {n : Node} {K K' : Nat → Prop}

/-! ## What is behind a value -/

/-- What a view in another layout shows, and the variable that an alias is made
of, are behind a value. -/
inductive Behind (s : State) (id : Nat) : Nat → Prop where
  | refl : Behind s id id
  | inner {x y : Nat} : Behind s id x → s.node? x = some (.reinterpret y) → y < x → Behind s id y
  | origin {x y : Nat} {name : String} {r : Option ValueId} : Behind s id x →
      s.node? x = some (.aliased name y r) → y < x → Behind s id y

theorem Behind.le (h : Behind s id x) : x ≤ id := by
  induction h with
  | refl => exact Nat.le_refl _
  | inner _ _ hlt ih | origin _ _ hlt ih => omega

theorem Behind.trans {y : Nat} (h : Behind s id x) (h' : Behind s x y) : Behind s id y := by
  induction h' with
  | refl => exact h
  | inner _ hn hlt ih => exact .inner ih hn hlt
  | origin _ hn hlt ih => exact .origin ih hn hlt

/-- What is behind a value is the value, or is behind what it shows or is made
of. -/
theorem Behind.step (h : Behind s id x) : x = id ∨ ∃ y, y < id ∧
    (s.node? id = some (.reinterpret y) ∨ ∃ name r, s.node? id = some (.aliased name y r)) ∧
    Behind s y x := by
  induction h with
  | refl => exact .inl rfl
  | inner _ hn hlt ih =>
    rcases ih with rfl | ⟨y, hy, hd, hb⟩
    · exact .inr ⟨_, hlt, .inl hn, .refl⟩
    · exact .inr ⟨y, hy, hd, hb.inner hn hlt⟩
  | origin _ hn hlt ih =>
    rcases ih with rfl | ⟨y, hy, hd, hb⟩
    · exact .inr ⟨_, hlt, .inr ⟨_, _, hn⟩, .refl⟩
    · exact .inr ⟨y, hy, hd, hb.origin hn hlt⟩

/-- Nothing is behind values of other kinds. -/
theorem Behind.eq (h : Behind s id x) (hn : s.node? id = some n) (h1 : ∀ y, n ≠ .reinterpret y)
    (h2 : ∀ name y r, n ≠ .aliased name y r) : x = id := by
  rcases h.step with h | ⟨y, -, hd | ⟨name, r, hd⟩, -⟩
  · exact h
  · exact absurd (Option.some.inj (hn.symm.trans hd)) (h1 y)
  · exact absurd (Option.some.inj (hn.symm.trans hd)) (h2 name y r)

theorem Evolves.node? (h : Evolves s s') (hn : s.node? id = some n) :
    s'.node? id = some n ∨ n.rhs? = none ∧ ∃ r, s'.node? id = some (n.withRhs r) := by
  obtain ⟨v, hv, rfl⟩ := value_of_node? hn
  obtain ⟨v', hv', he⟩ := h.value? id v hv
  rw [node?_of_value hv']
  rcases he.node with ⟨heq, -⟩ | ⟨hnone, r, heq⟩
  · exact .inl (by rw [heq])
  · exact .inr ⟨hnone, r, by rw [heq]⟩

theorem exists_node?_of_le (h : s'.node? id = some n) (hle : id ≤ s.size) :
    ∃ m, s.node? id = some m := by
  obtain ⟨v, hv⟩ := Valid.exists_value ⟨(valid_of_node? h).1, hle⟩
  exact ⟨v.node, node?_of_value hv⟩

/-- What is behind a value stays the same. -/
theorem Behind.of_later (h : Behind s' id x) (he : Evolves s s') (hid : id ≤ s.size) :
    Behind s id x := by
  induction h with
  | refl => exact .refl
  | inner _ hn hlt ih =>
    obtain ⟨m, hm⟩ := exists_node?_of_le hn (Nat.le_trans ih.le hid)
    refine .inner ih (hm.trans (congrArg some ?_)) hlt
    rcases he.node? hm with h | ⟨-, r, h⟩ <;> rw [hn, Option.some.injEq] at h
    · exact h.symm
    · cases m <;> simp_all [Node.withRhs]
  | origin _ hn hlt ih =>
    obtain ⟨m, hm⟩ := exists_node?_of_le hn (Nat.le_trans ih.le hid)
    rcases he.node? hm with h | ⟨-, r, h⟩ <;> rw [hn, Option.some.injEq] at h
    · exact .origin ih (h ▸ hm) hlt
    · cases m with
      | aliased name origin rhs =>
        simp only [Node.withRhs, Node.aliased.injEq] at h
        exact .origin ih (h.2.1 ▸ hm) hlt
      | _ => simp [Node.withRhs] at h

/-! ## What stays -/

theorem Settled.mono (h : Settled s u) (he : Evolves s s') : Settled s' u := by
  obtain ⟨n, r, hn, hr, hlt⟩ := h
  rcases he.node? hn with h | ⟨hnone, -⟩
  · exact ⟨n, r, h, hr, hlt⟩
  · simp [hnone] at hr

theorem Final.mono (h : Final s id) (he : Evolves s s') : Final s' id := by
  obtain ⟨n, hn, hf⟩ := h
  rcases he.node? hn with h | ⟨hnone, r, h⟩
  · exact ⟨n, h, hf⟩
  · exact ⟨_, h, by cases n <;> simp_all [Node.withRhs, Node.isIdentifiable, Node.rhs?]⟩

theorem UsesOnly.mono (h : UsesOnly K s id)
    (hK : ∀ u, K u → Settled s u ∨ IsHelper s u ∨ K' u) : UsesOnly K' s id := by
  intro u hu
  rcases h u hu with h | h | h
  · exact .inl h
  · exact .inr (.inl h)
  · exact hK u h

/-- What a value uses stays within bounds while it uses the same. -/
theorem UsesOnly.keep (h : UsesOnly K s id) (he : Evolves s s') (hr : Remembers s s')
    (hu : s'.usedOf id = s.usedOf id) : UsesOnly K s' id := by
  intro u hm
  rw [hu] at hm
  exact (h u hm).imp (·.mono he) (·.imp_left (·.mono hr))

/-- Values that a change leaves alone, and those that have their definitions,
use what they used. -/
theorem Change.usedOf (h : Change l s s') (hid : id ≤ s.size) (hle : id ≤ l ∨ Final s id) :
    s'.usedOf id = s.usedOf id := by
  cases h.effect with
  | adds ha => rw [ha.usedOf, if_neg (by omega)]
  | defines hd _ hl hn hident hnone =>
    rw [hd.usedOf (valid_of_node? hn), if_neg]
    rintro rfl
    rcases hle with hle | ⟨m, hm, hf⟩
    · omega
    · rw [hn, Option.some.injEq] at hm
      subst hm
      simp [hnone] at hf
      simp [hf] at hident
  | same hv => rw [State.usedOf, State.usedOf, value?_congr hv]

theorem Trace.usedOf (h : Trace l s s') (hid : id ≤ s.size) (hle : id ≤ l ∨ Final s id) :
    s'.usedOf id = s.usedOf id := by
  induction h with
  | refl => rfl
  | step h _ ih =>
    rw [ih (Nat.le_trans hid h.evolves.size) (hle.imp_right fun hf => hf.mono h.evolves),
      h.usedOf hid hle]

theorem Change.not_helper (h : Change l s s') (hid : ¬IsHelper s id) (hle : id ≤ l) :
    ¬IsHelper s' id := by
  rintro ⟨key, hm⟩
  refine hid ⟨key, ?_⟩
  cases h.effect with
  | adds ha => exact ha.helpers ▸ hm
  | defines hd => exact hd.helpers ▸ hm
  | same _ _ _ _ _ _ hh =>
    rcases hh _ hm with hm | ⟨hc, -⟩
    · exact hm
    · exact absurd hc (Nat.not_lt.2 hle)

/-- What may get a scope may do so after changes that leave it alone. -/
theorem Past.trace (h : Past b x s) (hs : Trace l s s') (hle : x ≤ l) : Past b x s' where
  lt := h.lt
  valid := hs.evolves.valid h.valid
  around f F hF hf := by
    rcases hs.closed hF with hF | hc
    · exact h.around f F hF hf
    · omega
  not_helper := hs.keeps (P := fun s => ¬IsHelper s x) (fun hch hn => hch.not_helper hn hle)
    h.not_helper

/-- A value that uses, of the variables that are not settled, helpers and those
in `K` only, and so does what is behind it. -/
structure Within (K : Nat → Prop) (s : State) (id : Nat) : Prop where
  valid : Valid s id
  uses : ∀ x, Behind s id x → UsesOnly K s x

theorem Within.only (h : Within K s id) : UsesOnly K s id := h.uses id .refl

theorem Within.mono (h : Within K s id)
    (hK : ∀ u, K u → Settled s u ∨ IsHelper s u ∨ K' u) : Within K' s id :=
  ⟨h.valid, fun x hx => (h.uses x hx).mono hK⟩

theorem Within.widen (h : Within K s id) (hK : ∀ u, K u → K' u) : Within K' s id :=
  h.mono fun u hu => .inr (.inr (hK u hu))

/-- Values of most kinds have nothing behind them. -/
theorem Within.of_only (hn : s.node? id = some n) (h1 : ∀ y, n ≠ .reinterpret y)
    (h2 : ∀ name y r, n ≠ .aliased name y r) (hu : UsesOnly K s id) : Within K s id :=
  ⟨valid_of_node? hn, fun _ hx => hx.eq hn h1 h2 ▸ hu⟩

theorem Within.trace (h : Within K s id) (hs : Trace l s s')
    (hu : ∀ x, x ≤ id → s'.usedOf x = s.usedOf x) : Within K s' id where
  valid := hs.evolves.valid h.valid
  uses x hx := (h.uses x (hx.of_later hs.evolves h.valid.2)).keep hs.evolves hs.remembers
    (hu x hx.le)

theorem Within.remember (h : Within K s id) (ht : Trace l s s') (hv : s'.values = s.values) :
    Within K s' id :=
  h.trace ht fun x _ => by rw [State.usedOf, State.usedOf, value?_congr hv]

/-- A node whose parts are within bounds is so without its variables. -/
theorem Within.newNode {node : Node} {type : Ty} {rep : Rep} {span : Span}
    (hadd : Adds s s' (s.summed node type rep span)) (ht : Trace l s s')
    (hid : node.isIdentifiable = false)
    (hsubs : ∀ i ∈ node.subs, Within (fun u => K u ∨ u ∈ node.scopeOf) s i) :
    Within K s' (s.size + 1) := by
  have hnode : s'.node? (s.size + 1) = some node := by
    rw [hadd.node?, if_pos rfl]
    rfl
  refine ⟨valid_of_node? hnode, fun x hx => ?_⟩
  rcases hx.step with rfl | ⟨y, hy, hd | ⟨name, r, hd⟩, hb⟩
  · intro u hu
    rw [hadd.usedOf, if_pos rfl] at hu
    obtain ⟨⟨i, hi, hu⟩, hne⟩ := mem_usedBy.1 hu
    rw [usedOf_push (hsubs i hi).valid] at hu
    rcases (hsubs i hi).only u hu with hs | hh | hK | ho
    · exact .inl (hs.mono ht.evolves)
    · exact .inr (.inl (hh.mono ht.remembers))
    · exact .inr (.inr hK)
    · exact absurd rfl (hne u ho).1
  · obtain rfl := Option.some.inj (hnode.symm.trans hd)
    have hsub := hsubs y (by simp [Node.subs])
    have hb' := hb.of_later ht.evolves hsub.valid.2
    refine ((hsub.uses x hb').keep ht.evolves ht.remembers ?_).mono ?_
    · have := hsub.valid.2
      have := hb.le
      rw [hadd.usedOf, if_neg (by omega)]
    · exact fun u hu => .inr (.inr (hu.resolve_right (by simp [Node.scopeOf])))
  · obtain rfl := Option.some.inj (hnode.symm.trans hd)
    cases hid

/-! ## Views and helpers -/

theorem Final.valid (h : Final s id) : Valid s id := by
  obtain ⟨n, hn, -⟩ := h
  exact valid_of_node? hn

/-- A variable without a definition uses nothing but itself. -/
theorem UsedInside.eq_self (h : UsedInside s) (hn : s.node? id = some n)
    (hid : n.isIdentifiable = true) (hnone : n.rhs? = none) (hu : u ∈ (s.usedOf id).ids) :
    u = id := by
  rcases h id n u hn hu with ⟨rfl, -⟩ | ⟨y, hy | hy, -⟩
  · rfl
  · simp [hnone] at hy
  · cases n <;> simp_all [Node.isIdentifiable, Node.subs]

/-- Values use more and more. -/
theorem Change.usedOf_mono (h : Change l s s') (hs : UsedInside s) (hu : u ∈ (s.usedOf id).ids) :
    u ∈ (s'.usedOf id).ids := by
  have hid := valid_of_mem_usedOf hu
  cases h.effect with
  | adds ha =>
    have := hid.2
    rwa [ha.usedOf, if_neg (by omega)]
  | defines hd _ hl hn hident hnone =>
    rw [hd.usedOf (valid_of_node? hn)]
    split
    · next heq =>
      subst heq
      exact VarSet.mem_union.2 (.inl (by simp [hs.eq_self hn hident hnone hu, VarSet.single]))
    · exact hu
  | same hv => rwa [State.usedOf, value?_congr hv]

/-- Values use variables that are there, views use what their variables use,
and helpers use nothing but helpers. -/
structure Lexical (s : State) : Prop where
  there : UsesThere s
  inside : UsedInside s
  viewed : ∀ p ∈ s.views, Final s p.2 ∧ UsesOnly (fun u => u ∈ (s.usedOf p.1.1).ids) s p.2
  helped : ∀ p ∈ s.helpers, Final s p.2 ∧ UsesOnly (fun _ => False) s p.2

theorem Closed.final {f F : Nat} (h : Closed s f F) : Final s f := by
  obtain ⟨-, n, hn, hr⟩ := h
  exact ⟨n, hn, by simp [hr]⟩

theorem Change.lexical (h : Change l s s') (hs : Lexical s) : Lexical s' := by
  have hfinal : ∀ {K id}, Final s id → UsesOnly K s id → Final s' id ∧ UsesOnly K s' id :=
    fun hf hu => ⟨hf.mono h.evolves, hu.keep h.evolves h.remembers (h.usedOf hf.valid.2 (.inr hf))⟩
  refine ⟨h.usesThere hs.there, h.usedInside hs.inside, fun p hp => ?_, fun p hp => ?_⟩
  · have hp' : Final s p.2 ∧ UsesOnly (fun u => u ∈ (s.usedOf p.1.1).ids) s p.2 := by
      cases h.effect with
      | adds ha => exact hs.viewed p (ha.views ▸ hp)
      | defines hd => exact hs.viewed p (hd.views ▸ hp)
      | same _ _ _ _ _ hv => exact (hv p hp).elim (hs.viewed p) fun h => h
    obtain ⟨hf, hu⟩ := hfinal hp'.1 hp'.2
    exact ⟨hf, hu.mono fun u hm => .inr (.inr (h.usedOf_mono hs.inside hm))⟩
  · have hold : p ∈ s.helpers → Final s' p.2 ∧ UsesOnly (fun _ => False) s' p.2 :=
      fun hp => hfinal (hs.helped p hp).1 (hs.helped p hp).2
    cases h.effect with
    | adds ha => exact hold (ha.helpers ▸ hp)
    | defines hd => exact hold (hd.helpers ▸ hp)
    | same _ _ _ _ _ _ hh =>
      rcases hh p hp with hp' | ⟨-, hc, hu⟩
      · exact hold hp'
      · obtain ⟨hf, hu⟩ := hfinal hc.final hu
        exact ⟨hf, hu.mono fun u hm => .inr (.inl (hm ▸ ⟨p.1, hp⟩))⟩

/-- **Views use what their variables use, and helpers use nothing but
helpers.** -/
theorem Trace.lexical (h : Trace l s s') (hs : Lexical s) : Lexical s' :=
  h.keeps (fun h => h.lexical) hs

/-- The invariant of the graph: it is arranged, and values use what they may
use. -/
structure Inv (s : State) : Prop extends Arranged s, Lexical s

/-- **Changes keep the invariant.** -/
theorem Trace.inv (h : Trace l s s') (hi : Inv s) : Inv s' :=
  ⟨h.arranged hi.toArranged, h.lexical hi.toLexical⟩

theorem Lexical.new (target : Version) (decls : Decls) (debug : Bool) :
    Lexical (State.new target decls debug) := by
  refine ⟨fun i u hu => ?_, .new target decls debug, by simp [State.new], by simp [State.new]⟩
  have := valid_of_mem_usedOf hu
  simp only [Valid, State.new, State.size, Array.size_empty] at this
  omega

/-- Behind a view there is nothing but its variable. -/
theorem Shows.behind {root : Nat} {key : String} (h : Shows s root key id) (hx : Behind s id x) :
    x = id ∨ x = root := by
  obtain ⟨m, hroot, hp⟩ := h.1.plain
  obtain ⟨-, v, hv, hview, -⟩ := h
  have hid := node?_of_value hv
  induction hx with
  | refl => exact .inl rfl
  | inner _ hn _ ih =>
    rcases ih with rfl | rfl
    · rw [hid, Option.some.injEq] at hn
      simp [hn, Node.isViewOf] at hview
    · rw [hroot, Option.some.injEq] at hn
      simp [hn, Node.isPlain] at hp
  | origin _ hn _ ih =>
    rcases ih with rfl | rfl
    · rw [hid, Option.some.injEq] at hn
      simp only [hn, Node.isViewOf, decide_eq_true_eq] at hview
      exact .inr hview
    · rw [hroot, Option.some.injEq] at hn
      simp [hn, Node.isPlain] at hp

/-- A value uses what is there. -/
theorem Within.of_valid (hi : Inv s) (h : Valid s id) : Within (· ≤ s.size) s id :=
  ⟨h, fun x _ u hu => .inr (.inr (hi.there x u hu).2)⟩

/-- Views are within the bounds of their variables. -/
theorem Within.view {root : Nat} {key : String} (h : Within K s root) (hi : Inv s)
    (hv : ((root, key), id) ∈ s.views) : Within K s id := by
  have hshows := hi.views root key id hv
  refine ⟨(hi.viewed _ hv).1.valid, fun x hx => ?_⟩
  rcases hshows.behind hx with rfl | rfl
  · exact (hi.viewed _ hv).2.mono h.only
  · exact h.only

/-- Helpers are within all bounds. -/
theorem Within.helper {key : String} (hi : Inv s) (h : (key, id) ∈ s.helpers) : Within K s id := by
  obtain ⟨⟨n, hn, hp, -⟩, -⟩ := hi.helpers key id h
  refine .of_only hn ?_ ?_ ((hi.helped _ h).2.mono fun _ hu => hu.elim)
  · rintro y rfl
    cases hp
  · rintro name y r rfl
    cases hp

/-- What a value shows is within the bounds of the value. -/
theorem Within.inner {y : Nat} (h : Within K s id) (hi : Inv s)
    (hn : s.node? id = some (.reinterpret y)) : Within K s y := by
  obtain ⟨hpos, hy⟩ := hi.subs id _ hn y (by simp [Node.subs])
  exact ⟨⟨hpos, Nat.le_trans (Nat.le_of_lt hy) h.valid.2⟩,
    fun x hx => h.uses x (.trans (.inner .refl hn hy) hx)⟩

/-- The variable of an alias is within the bounds of the alias. -/
theorem Within.origin {y : Nat} {name : String} {r : Option ValueId} (h : Within K s id)
    (hi : Inv s) (hn : s.node? id = some (.aliased name y r)) : Within K s y := by
  obtain ⟨m, hm, -⟩ := (hi.origin id y name r hn).plain
  exact ⟨valid_of_node? hm, fun x hx =>
    h.uses x (.trans (.origin .refl hn (hi.origin id y name r hn).1) hx)⟩

end CoreLowering.Graph
