import CoreLowering.Proofs.Graph.Growth

/-!
# The invariant of the graph

Every part, parameter and owned variable of a node has a smaller number than
the node, no variable has two scopes, and a variable is defined by a value
with a smaller number or by the recursive function that uses it.  Names, views
and helpers stand for what they should.

Main statements: `Trace.arranged`, changes keep the invariant; `Trace.node?` and
`Trace.unclaimed`, what they leave alone.
-/

namespace CoreLowering.Graph

variable {s s' : State} {id i : Nat} {n : Node} {f rhs : Nat} {v : Value} {root F x : Nat}
  {r : Value}

/-- The invariant of the graph. -/
structure Arranged (s : State) : Prop where
  scope_ne : s.scope ≠ []
  scope : ∀ p ∈ s.scope.flatten, Valid s p.2
  views : ∀ (root : Nat) (key : String) (id : Nat), ((root, key), id) ∈ s.views →
    Shows s root key id
  helpers : ∀ (key : String) (id : Nat), (key, id) ∈ s.helpers →
    DefinedVar s id ∧ ∀ key', (key', id) ∈ s.helpers → key' = key
  subs : ∀ (i : Nat) n, s.node? i = some n → ∀ j : Nat, j ∈ n.subs → 0 < j ∧ j < i
  owned : ∀ (i : Nat) n, s.node? i = some n → ∀ j : Nat, j ∈ n.scopeOf → 0 < j ∧ j < i
  owner : ∀ (i j x : Nat) n m, s.node? i = some n → s.node? j = some m →
    x ∈ n.binds → x ∈ m.binds → i = j
  binds : ∀ (i x : Nat) n, s.node? i = some n → x ∈ n.binds →
    Blank s x ∨ ∃ name rec, n = .fix x rec ∧ s.node? x = some (.var name (some i))
  rhs : ∀ (i r : Nat) n, s.node? i = some n → n.rhs? = some r →
    Valid s r ∧ (r < i ∨ i < r ∧ ∃ rec, s.node? r = some (.fix i rec))
  origin : ∀ (i o : Nat) x r, s.node? i = some (.aliased x o r) → Stems s i o
  strict : ∀ (i : Nat) n, s.node? i = some n → n.StrictOwned
  nested : ∀ f F f' F' : Nat, Closed s f F → Closed s f' F' → f < f' → f' < F → F' < F

theorem Stems.plain (h : Stems s id root) : ∃ n, s.node? root = some n ∧ n.isPlain = true := by
  obtain ⟨-, -, r, -, hr, hp, -⟩ := h
  exact ⟨r.node, node?_of_value hr, hp⟩

/-! ## Adding a value -/

theorem Adds.closed_iff (h : Adds s s' v) (hv : v.node.rhs? = none) :
    Closed s' f F ↔ Closed s f F := by
  refine ⟨h.closed hv, ?_⟩
  rintro ⟨hlt, n, hn, hr⟩
  refine ⟨hlt, n, ?_, hr⟩
  have : f ≠ s.size + 1 := by have := (valid_of_node? hn).2; omega
  rw [h.node?, if_neg this, hn]

theorem Adds.node?_old (h : Adds s s' v) (hn : s.node? i = some n) : s'.node? i = some n := by
  have : i ≠ s.size + 1 := by have := (valid_of_node? hn).2; omega
  rw [h.node?, if_neg this, hn]

/-- The invariant survives adding a value that refers to what is there. -/
theorem Arranged.adds (hi : Arranged s) (h : Adds s s' v) (hv : v.node.rhs? = none)
    (hsubs : ∀ j ∈ v.node.subs, Valid s j)
    (howned : ∀ j : Nat, j ∈ v.node.scopeOf →
      Valid s j ∧ (j ∈ v.node.binds → Unclaimed s j ∧ Blank s j))
    (horigin : ∀ (o : Nat) x r, v.node = .aliased x o r →
      ∃ w, s.value? o = some w ∧ w.node.isPlain = true ∧ w.type = v.type)
    (hstrict : v.node.StrictOwned) : Arranged s' where
  scope_ne := by rw [h.scope]; exact hi.scope_ne
  scope := by
    rw [h.scope]
    exact fun p hp => h.valid (hi.scope p hp)
  views := by
    rw [h.views]
    exact fun root key id hm => (hi.views root key id hm).mono h.evolves
  helpers := by
    rw [h.helpers]
    intro key id hm
    obtain ⟨⟨n, hn, hp⟩, hkey⟩ := hi.helpers key id hm
    exact ⟨⟨n, h.node?_old hn, hp⟩, hkey⟩
  subs := by
    intro i n hn j hj
    rw [h.node?] at hn
    split at hn
    · cases hn
      obtain ⟨h0, h1⟩ := hsubs j hj
      exact ⟨h0, by omega⟩
    · exact hi.subs i n hn j hj
  owned := by
    intro i n hn j hj
    rw [h.node?] at hn
    split at hn
    · cases hn
      obtain ⟨h0, h1⟩ := (howned j hj).1
      exact ⟨h0, by omega⟩
    · exact hi.owned i n hn j hj
  owner := by
    intro i j x n m hn hm hx hx'
    rw [h.node?] at hn hm
    split at hn <;> split at hm <;> rename_i h1 h2
    · omega
    · cases hn
      exact absurd hx' ((howned x (Node.scopeOf_of_binds hx)).2 hx |>.1 j m hm)
    · cases hm
      exact absurd hx ((howned x (Node.scopeOf_of_binds hx')).2 hx' |>.1 i n hn)
    · exact hi.owner i j x n m hn hm hx hx'
  binds := by
    intro i x n hn hx
    have hblank : Blank s x → Blank s' x := fun ⟨y, hy⟩ => ⟨y, h.node?_old hy⟩
    rw [h.node?] at hn
    split at hn
    · cases hn
      exact .inl (hblank ((howned x (Node.scopeOf_of_binds hx)).2 hx).2)
    · refine (hi.binds i x n hn hx).imp hblank ?_
      rintro ⟨name, rec, hfix, hnode⟩
      exact ⟨name, rec, hfix, h.node?_old hnode⟩
  rhs := by
    intro i r n hn hr
    rw [h.node?] at hn
    split at hn
    · cases hn
      simp [hv] at hr
    · obtain ⟨h1, h2⟩ := hi.rhs i r n hn hr
      refine ⟨h.valid h1, h2.imp_right ?_⟩
      rintro ⟨h3, rec, h4⟩
      exact ⟨h3, rec, h.node?_old h4⟩
  origin := by
    intro i o x r hn
    rw [h.node?] at hn
    split at hn <;> rename_i heq
    · obtain ⟨w, hw, hp, htype⟩ := horigin o x r (Option.some.inj hn)
      obtain ⟨w', hw', hev⟩ := h.evolves.value? o w hw
      have hnew := h.value? i
      rw [if_pos heq] at hnew
      obtain ⟨v', hv', hcore⟩ := Option.map_eq_some_iff.1 hnew
      refine ⟨by have := (valid_of_value hw).2; omega, v', w', hv', hw', hev.isPlain.trans hp, ?_⟩
      rw [(Value.Evolves.of_core hcore).type, hev.type, htype]
    · exact (hi.origin i o x r hn).mono h.evolves
  strict := by
    intro i n hn
    rw [h.node?] at hn
    split at hn
    · cases hn
      exact hstrict
    · exact hi.strict i n hn
  nested f F f' F' h1 h2 := hi.nested f F f' F' (h.closed hv h1) (h.closed hv h2)

/-! ## Defining a variable -/

theorem Node.rhs?_defined (h : n.isIdentifiable = true) (rhs : Nat) :
    (n.withRhs rhs).rhs? = some rhs := by
  cases n <;> simp_all [Node.isIdentifiable, Node.withRhs, Node.rhs?]

theorem Defines.node?_iff (h : Defines s s' x rhs r) :
    s'.node? i = some n ↔
      i ≠ x ∧ s.node? i = some n ∨ i = x ∧ ∃ m, s.node? i = some m ∧ n = m.withRhs rhs := by
  rw [h.node?]
  split <;> rename_i hi
  · subst hi
    rw [Option.map_eq_some_iff]
    simp [eq_comm]
  · simp [hi]

/-- A node keeps what it is made of when a variable is defined. -/
theorem Defines.before (h : Defines s s' x rhs r) (hn : s'.node? i = some n) :
    ∃ m, s.node? i = some m ∧ n.subs = m.subs ∧ n.scopeOf = m.scopeOf ∧ n.binds = m.binds := by
  rcases h.node?_iff.1 hn with ⟨-, hn⟩ | ⟨-, m, hm, rfl⟩
  · exact ⟨n, hn, rfl, rfl, rfl⟩
  · exact ⟨m, hm, Node.subs_withRhs m rhs, Node.scopeOf_withRhs m rhs,
      Node.binds_withRhs m rhs⟩

theorem Defines.closed_of (h : Defines s s' x rhs r) (hn : s.node? x = some n)
    (hnone : n.rhs? = none) (hc : Closed s f F) : Closed s' f F := by
  obtain ⟨hlt, m, hm, hr⟩ := hc
  refine ⟨hlt, m, h.node?_iff.2 (.inl ⟨?_, hm⟩), hr⟩
  rintro rfl
  rw [hn, Option.some.injEq] at hm
  subst hm
  simp [hnone] at hr

/-- The invariant survives a definition by a value that is there: one with a
smaller number, or the recursive function of the variable. -/
theorem Arranged.defines (hi : Arranged s) {r : Value} (h : Defines s s' x rhs r)
    (hn : s.node? x = some n) (hid : n.isIdentifiable = true) (hnone : n.rhs? = none)
    (hrhs : s.value? rhs = some r) (hwhere : rhs < x ∧ Unclaimed s x ∨
      x < rhs ∧ rhs = s.size ∧ (∀ f F, Closed s f F → f < x → F < x) ∧
        ∃ rec, s.node? rhs = some (.fix x rec)) : Arranged s' where
  scope_ne := by rw [h.scope]; exact hi.scope_ne
  scope := by
    rw [h.scope]
    exact fun p hp => h.valid.2 (hi.scope p hp)
  views := by
    rw [h.views]
    exact fun root key id hm => (hi.views root key id hm).mono (h.evolves hn hnone)
  helpers := by
    rw [h.helpers]
    intro key id hm
    obtain ⟨⟨m, hm', hp, hr⟩, hkey⟩ := hi.helpers key id hm
    refine ⟨⟨m, h.node?_iff.2 (.inl ⟨?_, hm'⟩), hp, hr⟩, hkey⟩
    rintro rfl
    rw [hn, Option.some.injEq] at hm'
    subst hm'
    simp [hnone] at hr
  subs := by
    intro i m hm j hj
    obtain ⟨m', hm', h1, -⟩ := h.before hm
    exact hi.subs i m' hm' j (h1 ▸ hj)
  owned := by
    intro i m hm j hj
    obtain ⟨m', hm', -, h1, -⟩ := h.before hm
    exact hi.owned i m' hm' j (h1 ▸ hj)
  owner := by
    intro i j y m1 m2 hm1 hm2 hy1 hy2
    obtain ⟨k1, hk1, -, -, h1⟩ := h.before hm1
    obtain ⟨k2, hk2, -, -, h2⟩ := h.before hm2
    exact hi.owner i j y k1 k2 hk1 hk2 (h1 ▸ hy1) (h2 ▸ hy2)
  binds := by
    intro i y m hm hy
    obtain ⟨m', hm', -, -, hbinds⟩ := h.before hm
    rw [hbinds] at hy
    have hfix : ∀ rec, m' = .fix y rec → m = .fix y rec := by
      rintro rec rfl
      rcases h.node?_iff.1 hm with ⟨-, hm⟩ | ⟨rfl, k, hk, rfl⟩
      · rw [hm', Option.some.injEq] at hm
        exact hm.symm
      · rw [hm', Option.some.injEq] at hk
        subst hk
        rfl
    by_cases hyx : y = x
    · subst hyx
      rcases hwhere with ⟨-, hun⟩ | ⟨-, -, -, rec, hF⟩
      · exact absurd hy (hun i m' hm')
      · -- the recursive function is the only one that binds the variable
        have hiF := hi.owner i rhs y m' _ hm' hF hy (by simp [Node.binds])
        subst hiF
        rw [hF, Option.some.injEq] at hm'
        subst hm'
        refine .inr ?_
        rcases hi.binds _ _ _ hF hy with ⟨name, hname⟩ | ⟨name, rec', -, hname⟩
        · refine ⟨name, rec, hfix rec rfl, ?_⟩
          exact h.node?_iff.2 (.inr ⟨rfl, _, hname, rfl⟩)
        · rw [hn, Option.some.injEq] at hname
          simp [hname, Node.rhs?] at hnone
    · rcases hi.binds i y m' hm' hy with ⟨name, hname⟩ | ⟨name, rec, heq, hname⟩
      · exact .inl ⟨name, h.node?_iff.2 (.inl ⟨hyx, hname⟩)⟩
      · exact .inr ⟨name, rec, hfix rec heq, h.node?_iff.2 (.inl ⟨hyx, hname⟩)⟩
  rhs := by
    intro i r' m hm hr
    have hfix : ∀ (j k rec : Nat), s.node? j = some (.fix k rec) →
        s'.node? j = some (.fix k rec) := by
      intro j k rec hj
      refine h.node?_iff.2 (.inl ⟨?_, hj⟩)
      rintro rfl
      rw [hn, Option.some.injEq] at hj
      subst hj
      simp [Node.isIdentifiable] at hid
    rcases h.node?_iff.1 hm with ⟨-, hm⟩ | ⟨rfl, m', hm', rfl⟩
    · obtain ⟨h1, h2⟩ := hi.rhs i r' m hm hr
      refine ⟨h.valid.2 h1, h2.imp_right ?_⟩
      rintro ⟨h3, rec, h4⟩
      exact ⟨h3, rec, hfix _ _ _ h4⟩
    · rw [hn, Option.some.injEq] at hm'
      subst hm'
      rcases Node.rhs?_withRhs hr with rfl | hr
      · refine ⟨h.valid.2 (valid_of_value hrhs), hwhere.imp And.left ?_⟩
        rintro ⟨h3, -, -, rec, h4⟩
        exact ⟨h3, rec, hfix _ _ _ h4⟩
      · simp [hnone] at hr
  origin := by
    intro i o y r' hm
    rcases h.node?_iff.1 hm with ⟨-, hm⟩ | ⟨rfl, m', hm', heq⟩
    · exact (hi.origin i o y r' hm).mono (h.evolves hn hnone)
    · cases m' <;> simp [Node.withRhs] at heq
      obtain ⟨-, rfl, -⟩ := heq
      exact (hi.origin _ _ _ _ hm').mono (h.evolves hn hnone)
  strict := by
    intro i m hm
    rcases h.node?_iff.1 hm with ⟨-, hm⟩ | ⟨rfl, m', hm', rfl⟩
    · exact hi.strict i m hm
    · have := hi.strict _ _ hm'
      cases m' <;> exact this
  nested := by
    intro f F f' F' hc hc' h1 h2
    rcases h.closed hc with hc | ⟨rfl, rfl⟩ <;> rcases h.closed hc' with hc' | ⟨rfl, rfl⟩
    · exact hi.nested f F f' F' hc hc' h1 h2
    · rcases hwhere with ⟨h3, -⟩ | ⟨-, -, hout, -⟩
      · exact absurd hc'.1 (by omega)
      · have := hout f F hc h1
        omega
    · -- the function that is closed off last comes last
      rcases hwhere with ⟨h3, -⟩ | ⟨-, hlast, -, rec, hfix⟩
      · exact absurd hc.1 (by omega)
      · obtain ⟨hlt, m, hm, hr⟩ := hc'
        obtain ⟨hv, hF⟩ := hi.rhs _ _ _ hm hr
        rcases hF with hF | ⟨-, rec', hF⟩
        · omega
        · have hle := hv.2
          rcases Nat.lt_or_eq_of_le hle with hlt' | heq
          · omega
          · have : F' = F := by omega
            rw [this, hfix] at hF
            simp only [Option.some.injEq, Node.fix.injEq] at hF
            exact absurd hF.1 (Nat.ne_of_lt h1)
    · omega

/-! ## Changes apart from the values -/

/-- Names may get any meanings that are there. -/
theorem Arranged.same (hi : Arranged s) (hv : s'.values = s.values) (hw : s'.views = s.views)
    (hh : s'.helpers = s.helpers) (hne : s'.scope ≠ [])
    (h : ∀ p ∈ s'.scope.flatten, Valid s p.2) : Arranged s' := by
  cases s
  cases s'
  cases hv
  cases hw
  cases hh
  exact ⟨hne, h, hi.views, hi.helpers, hi.subs, hi.owned, hi.owner, hi.binds, hi.rhs, hi.origin,
    hi.strict, hi.nested⟩

/-- A view of a variable may be remembered with the variable. -/
theorem Arranged.viewed (hi : Arranged s) {v : Nat} {key : String} (hs : Shows s root key v) :
    Arranged { s with views := ((root, key), v) :: s.views } := by
  refine ⟨hi.scope_ne, hi.scope, fun r g i hm => ?_, hi.helpers, hi.subs, hi.owned, hi.owner,
    hi.binds, hi.rhs, hi.origin, hi.strict, hi.nested⟩
  rcases List.mem_cons.1 hm with heq | hm
  · obtain ⟨hkey, rfl⟩ := Prod.mk.inj heq
    obtain ⟨rfl, rfl⟩ := Prod.mk.inj hkey
    exact hs
  · exact hi.views r g i hm

/-- A helper may be remembered under one key. -/
theorem Arranged.helped (hi : Arranged s) {h : Nat} {key : String} (hh : DefinedVar s h)
    (hnew : ∀ k, (k, h) ∉ s.helpers) : Arranged { s with helpers := (key, h) :: s.helpers } := by
  refine ⟨hi.scope_ne, hi.scope, hi.views, fun k i hm => ?_, hi.subs, hi.owned, hi.owner, hi.binds,
    hi.rhs, hi.origin, hi.strict, hi.nested⟩
  rcases List.mem_cons.1 hm with heq | hm
  · obtain ⟨rfl, rfl⟩ := Prod.mk.inj heq
    refine ⟨hh, fun k' hm' => ?_⟩
    exact (List.mem_cons.1 hm').elim (fun heq => (Prod.mk.inj heq).1)
      fun hm' => absurd hm' (hnew k')
  · refine ⟨(hi.helpers k i hm).1, fun k' hm' => ?_⟩
    refine (List.mem_cons.1 hm').elim (fun heq => ?_) ((hi.helpers k i hm).2 k')
    exact absurd hm ((Prod.mk.inj heq).2 ▸ hnew k)

/-! ## Traces -/

section Change

variable {l : Nat}

/-- What a change does to the values: it adds one, defines a variable, or
leaves them alone. -/
inductive Effect (l : Nat) (s s' : State) : Prop where
  | adds {v : Value} : Adds s s' v → Added s s' v → (∀ i ∈ v.node.subs, Valid s i) →
      (∀ i : Nat, i ∈ v.node.scopeOf →
        Past l i s ∧ (i ∈ v.node.binds → Unclaimed s i ∧ Blank s i) ∧
          ∀ j ∈ v.node.subs, UsesOnly (fun u => u ≤ i ∨ u ∈ v.node.scopeOf ∨ Blank s u) s j) →
      (∀ (o : Nat) x r, v.node = .aliased x o r →
        ∃ w, s.value? o = some w ∧ w.node.isPlain = true ∧ w.type = v.type) →
      v.node.StrictOwned → Effect l s s'
  | defines {n : Node} {x rhs : Nat} {r : Value} : Defines s s' x rhs r →
      s'.taken = s.taken → l < x → s.node? x = some n → n.isIdentifiable = true →
      n.rhs? = none → s.value? rhs = some r →
      (rhs < x ∧ Unclaimed s x ∨ x < rhs ∧ rhs = s.size ∧
        (∀ f F, Closed s f F → f < x → F < x) ∧ ∃ rec, s.node? rhs = some (.fix x rec)) →
      (rhs < x → x = s.size) → Effect l s s'
  | same : s'.values = s.values → s'.taken = s.taken → Evolves s s' → Remembers s s' →
      (Arranged s → Arranged s') →
      (∀ p ∈ s'.views, p ∈ s.views ∨
        Final s p.2 ∧ UsesOnly (fun u => u ∈ (s.usedOf p.1.1).ids) s p.2) →
      (∀ p ∈ s'.helpers, p ∈ s.helpers ∨
        l < p.2 ∧ Closed s p.2 s.size ∧ UsesOnly (fun u => u = p.2) s p.2) →
      Effect l s s'

/-- **What a change does**, whatever it is made by. -/
theorem Change.effect (h : Change l s s') : Effect l s s' := by
  cases h with
  | node type rep span hid hsubs howned hstrict =>
    obtain ⟨s', hr, hc⟩ := newNode_run type rep span hsubs
    refine .adds (newNode_adds type rep span hsubs) (.node _ _ _ hid ?_) hsubs howned ?_ hstrict
    · rw [hr]
      exact hc.taken
    · rintro o x r rfl
      cases hid
  | binder name type rep span =>
    exact .adds (newBinder_adds name type rep span) (.var name _ _ _ rfl rfl rfl rfl)
      (by simp [State.variable, Value.new, Node.subs])
      (by simp [State.variable, Value.new, Node.scopeOf]) (by rintro o x r ⟨⟩) trivial
  | aliased base rep span hr hp =>
    refine .adds (aliased_adds base _ _ rep span) (.var base _ _ _ rfl rfl rfl rfl)
      (by simp [State.variable, Value.new, Node.subs])
      (by simp [State.variable, Value.new, Node.scopeOf]) ?_ trivial
    rintro o x r ⟨⟩
    exact ⟨_, hr, hp, rfl⟩
  | define hl hlast hn hid hnone hun hrhs hlt =>
    obtain ⟨r, hr⟩ := hrhs.exists_value
    have hne := Nat.ne_of_lt hlt
    exact .defines (setRhs_defines hn hnone hr hne) (setRhs_taken hn hnone hr hne) hl hn hid
      hnone hr (.inl ⟨hlt, hun⟩) fun _ => hlast
  | close hl hlt hlast hout hn hp hnone hfix =>
    obtain ⟨r, hr⟩ := (valid_of_node? hfix).exists_value
    have hne := Nat.ne_of_gt hlt
    exact .defines (setRhs_defines hn hnone hr hne) (setRhs_taken hn hnone hr hne) hl hn
      (Node.isIdentifiable_of_plain hp) hnone hr (.inr ⟨hlt, hlast, hout, _, hfix⟩)
      fun h => by omega
  | quiet h =>
    obtain ⟨hv, hs⟩ := quiet_eq h
    exact .same hv (congrArg State.taken h :)
      (.of_values hv hs.target hs.decls hs.debug hs.usesFix) hs.remembers
      (fun hi => hi.same hv hs.views hs.helpers (hs.scope ▸ hi.scope_ne) (hs.scope ▸ hi.scope))
      (fun _ hp => .inl (hs.views ▸ hp)) fun _ hp => .inl (hs.helpers ▸ hp)
  | scope frames hne hlast h =>
    exact .same rfl rfl (.of_values rfl rfl rfl rfl rfl)
      ⟨fun _ => id, fun _ => id, fun p hp => .inl (by rwa [State.globals, ← hlast])⟩
      (fun hi => hi.same rfl rfl rfl hne h) (fun _ => .inl) fun _ => .inl
  | view key hs hfinal huses =>
    refine .same rfl rfl (.of_values rfl rfl rfl rfl rfl)
      ⟨fun p hp => List.mem_cons_of_mem _ hp, fun _ => id, fun p hp => .inl hp⟩
      (fun hi => hi.viewed hs) (fun p hp => ?_) fun _ => .inl
    rcases List.mem_cons.1 hp with rfl | hp
    · exact .inr ⟨hfinal, huses⟩
    · exact .inl hp
  | helper key hc hh hclosed huses hnew hnames =>
    refine .same rfl rfl (.of_values rfl rfl rfl rfl rfl)
      ⟨fun _ => id, fun p hp => List.mem_cons_of_mem _ hp, fun p hp => ?_⟩ (fun hi => ?_)
      (fun _ => .inl) fun p hp => ?_
    · refine (mem_globals_addAllToLast hp).symm.imp_right fun hp => ?_
      exact hnames p hp ▸ List.mem_cons_self ..
    · have hi' : Arranged { s with helpers := (key, _) :: s.helpers } := hi.helped hh hnew
      refine hi'.same rfl rfl rfl (addAllToLast_ne_nil _ hi.scope_ne) fun p hp => ?_
      refine (mem_addAllToLast hp).elim (fun hp => ?_) (hi'.scope p)
      rw [hnames p hp]
      obtain ⟨n, hn, -⟩ := hh
      exact valid_of_node? hn
    · rcases List.mem_cons.1 hp with rfl | hp
      · exact .inr ⟨hc, hclosed, huses⟩
      · exact .inl hp

/-- Changes keep the invariant. -/
theorem Change.arranged (h : Change l s s') (hi : Arranged s) : Arranged s' := by
  cases h.effect with
  | adds h hv hsubs howned horigin hstrict =>
    exact hi.adds h hv.rhs? hsubs (fun j hj => ⟨(howned j hj).1.valid, (howned j hj).2.1⟩) horigin
      hstrict
  | defines h _ _ hn hid hnone hr hwhere => exact hi.defines h hn hid hnone hr hwhere
  | same _ _ _ _ h => exact h hi

/-- Changes let values evolve. -/
theorem Change.evolves (h : Change l s s') : Evolves s s' := by
  cases h.effect with
  | adds h => exact h.evolves
  | defines h _ _ hn _ hnone => exact h.evolves hn hnone
  | same _ _ h => exact h

/-- Changes forget no view and no helper. -/
theorem Change.remembers (h : Change l s s') : Remembers s s' := by
  cases h.effect with
  | adds h => exact h.remembers
  | defines h => exact h.remembers
  | same _ _ _ h => exact h

theorem Adds.unclaimed (h : Adds s s' v) (hid : Unclaimed s id) (hv : id ∉ v.node.binds) :
    Unclaimed s' id := by
  intro i n hn
  rw [h.node?] at hn
  split at hn
  · cases hn
    exact hv
  · exact hid i n hn

theorem Defines.unclaimed (h : Defines s s' x rhs r) (hid : Unclaimed s id) : Unclaimed s' id := by
  intro i n hn
  obtain ⟨m, hm, -, -, heq⟩ := h.before hn
  rw [heq]
  exact hid i m hm

/-- A change makes no node the scope of a variable that it leaves alone. -/
theorem Change.unclaimed (h : Change l s s') (hid : Unclaimed s id) (hle : id ≤ l) :
    Unclaimed s' id := by
  cases h.effect with
  | adds h _ _ howned =>
    exact h.unclaimed hid fun hm =>
      absurd (howned id (Node.scopeOf_of_binds hm)).1.lt (Nat.not_lt.2 hle)
  | defines h => exact h.unclaimed hid
  | same hv => exact fun i n hn => hid i n (node?_congr hv i ▸ hn)

/-- A change leaves alone the nodes that are not past its bound. -/
theorem Change.node? (h : Change l s s') (hn : s.node? id = some n) (hle : id ≤ l) :
    s'.node? id = some n := by
  cases h.effect with
  | adds h => exact h.node?_old hn
  | defines h _ hl => exact h.node?_iff.2 (.inl ⟨by omega, hn⟩)
  | same hv => exact (node?_congr hv id).trans hn

/-- A change closes off functions of variables past its bound only. -/
theorem Change.closed (h : Change l s s') (hc : Closed s' f F) : Closed s f F ∨ l < f := by
  cases h.effect with
  | adds h hv => exact .inl (h.closed hv.rhs? hc)
  | defines h _ hl => exact (h.closed hc).imp_right fun ⟨heq, _⟩ => heq ▸ hl
  | same hv =>
    obtain ⟨hlt, n, hn, hr⟩ := hc
    exact .inl ⟨hlt, n, node?_congr hv f ▸ hn, hr⟩

namespace Trace

/-- **Changes keep the invariant.** -/
theorem arranged (h : Trace l s s') (hi : Arranged s) : Arranged s' :=
  h.keeps (fun h => h.arranged) hi

theorem evolves (h : Trace l s s') : Evolves s s' :=
  h.keeps (fun h he => he.trans h.evolves) .refl

theorem remembers (h : Trace l s s') : Remembers s s' :=
  h.keeps (fun h hr => ⟨fun p hp => h.remembers.views p (hr.views p hp),
    fun p hp => h.remembers.helpers p (hr.helpers p hp), fun p hp =>
      (h.remembers.globals p hp).elim (fun hp => (hr.globals p hp).imp_right
        (h.remembers.helpers p)) .inr⟩) ⟨fun _ => id, fun _ => id, fun _ => .inl⟩

/-- What has no scope gets none from changes that leave it alone. -/
theorem unclaimed (h : Trace l s s') (hid : Unclaimed s id) (hle : id ≤ l) : Unclaimed s' id :=
  h.keeps (fun h hid => h.unclaimed hid hle) hid

/-- The nodes that changes leave alone stay as they are. -/
theorem node? (h : Trace l s s') (hn : s.node? id = some n) (hle : id ≤ l) : s'.node? id = some n :=
  h.keeps (fun h hn => h.node? hn hle) hn

/-- A function that is closed off by changes belongs to a variable past their
bound. -/
theorem closed (h : Trace l s s') (hc : Closed s' f F) : Closed s f F ∨ l < f := by
  induction h with
  | refl => exact .inl hc
  | step h _ ih =>
    rcases ih hc with hc | hc
    · exact h.closed hc
    · exact .inr hc

end Trace

end Change

end CoreLowering.Graph
