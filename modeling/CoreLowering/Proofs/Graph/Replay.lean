import CoreLowering.Proofs.Graph.Requests
import CoreLowering.Proofs.Graph.Twins

/-!
# Emitting again

The first emission that comes to a value settles which variables are bound at
it, and writes that down.  A later state `Keeps` an earlier one if it has the
same values, with all that was settled of them.  Requests lead to such states,
whether they build values or emit them.

Emission looks at nothing else.  So whatever it did, it does again from any
state that keeps the one it came to, which is what `Replays` says.

Main statement: `emits_again`.
-/

namespace CoreLowering.Graph

variable {α β γ δ : Type} {g r s s' s'' : State} {id : Nat} {v w : Value} {κ : Coupling}
  {fuel fuel' : Nat}

/-! ## States that keep others -/

theorem Value.Keeps.trans {u : Value} (h : v.Keeps w) (h' : w.Keeps u) : v.Keeps u :=
  ⟨h'.node.trans h.node, h'.type.trans h.type, h'.rep.trans h.rep, h'.span.trans h.span,
    fun xs hxs => h'.placed xs (h.placed xs hxs)⟩

theorem Value.Keeps.of_core (h : w.core = v.core) : v.Keeps w := by
  simp only [Value.core, Value.mk.injEq] at h
  obtain ⟨node, type, rep, span, h⟩ := h
  constructor <;> simp_all

/-- A state that has the values of another one. -/
structure Keeps (s r : State) : Prop where
  debug : r.debug = s.debug
  value : ∀ (i : Nat) v, s.value? i = some v → ∃ w, r.value? i = some w ∧ v.Keeps w

namespace Keeps

theorem of_values (hv : s'.values = s.values) (hd : s'.debug = s.debug) : Keeps s s' :=
  ⟨hd, fun i v h => ⟨v, (value?_congr hv i).trans h, .refl v⟩⟩

theorem refl : Keeps s s := of_values rfl rfl

theorem trans (h : Keeps s s') (h' : Keeps s' s'') : Keeps s s'' := by
  refine ⟨h'.debug.trans h.debug, fun i v hv => ?_⟩
  obtain ⟨w, hw, hvw⟩ := h.value i v hv
  obtain ⟨u, hu, hwu⟩ := h'.value i w hw
  exact ⟨u, hu, hvw.trans hwu⟩

theorem valid (h : Keeps s r) (hid : Valid s id) : Valid r id := by
  obtain ⟨v, hv⟩ := hid.exists_value
  obtain ⟨w, hw, -⟩ := h.value id v hv
  exact valid_of_value hw

theorem size_le (h : Keeps s r) : s.size ≤ r.size := by
  rcases Nat.eq_zero_or_pos s.size with hs | hs
  · omega
  · exact (h.valid ⟨hs, Nat.le_refl _⟩).2

/-- Views lead to older values, so however far one looks, one finds the same
node under them. -/
theorem underViewsIn (hi : Inv s) (h : Keeps s r) (hid : Valid s id) (hf : id < fuel)
    (hf' : id < fuel') : r.underViewsIn fuel' id = s.underViewsIn fuel id := by
  induction fuel generalizing fuel' id with
  | zero => omega
  | succ fuel ih =>
    obtain ⟨fuel', rfl⟩ := Nat.exists_eq_add_one_of_ne_zero (Nat.ne_zero_of_lt hf')
    obtain ⟨v, hv⟩ := hid.exists_value
    obtain ⟨w, hw, hvw⟩ := h.value id v hv
    rw [State.underViewsIn, State.underViewsIn, hv, hw]
    dsimp only
    rw [hvw.node]
    split
    · rename_i x hx
      have hlt := hi.subs id _ (node?_of_value hv) x (by simp [hx, Node.subs])
      exact ih ⟨hlt.1, Nat.le_trans (Nat.le_of_lt hlt.2) hid.2⟩ (by omega) (by omega)
    · rfl

theorem isEffortless (hi : Inv s) (h : Keeps s r) (hid : Valid s id) :
    r.isEffortless id = s.isEffortless id := by
  rw [State.isEffortless, State.isEffortless, State.underViews, State.underViews,
    h.underViewsIn hi hid (Nat.lt_succ_of_le hid.2) (Nat.lt_succ_of_le (h.valid hid).2)]

/-- A chain of variables leads to older ones. -/
theorem strictRoot (hi : Inv s) (h : Keeps s r) {bound : Bound} (hid : Valid s id) (hf : id < fuel)
    (hf' : id < fuel') : r.strictRoot bound fuel' id = s.strictRoot bound fuel id := by
  induction fuel generalizing fuel' id with
  | zero => omega
  | succ fuel ih =>
    obtain ⟨fuel', rfl⟩ := Nat.exists_eq_add_one_of_ne_zero (Nat.ne_zero_of_lt hf')
    obtain ⟨v, hv⟩ := hid.exists_value
    obtain ⟨w, hw, hvw⟩ := h.value id v hv
    rw [State.strictRoot, State.strictRoot, hv, hw]
    dsimp only
    rw [hvw.node]
    split
    · rfl
    cases hrhs : v.node.rhs? with
    | none => rfl
    | some rhs =>
      obtain ⟨hvalid, hlt⟩ := hi.rhs id rhs _ (node?_of_value hv) hrhs
      obtain ⟨x, hx⟩ := hvalid.exists_value
      obtain ⟨y, hy, hxy⟩ := h.value rhs x hx
      dsimp only
      rw [hx, hy]
      dsimp only
      rw [hxy.node, h.isEffortless hi hvalid]
      split
      · rename_i hvar
        rcases hlt with hlt | ⟨-, rec, hfix⟩
        · exact ih hvalid (by omega) (by omega)
        · rw [node?_of_value hx, Option.some.injEq] at hfix
          simp [hfix, Node.isIdentifiable] at hvar
      · rfl

end Keeps

/-- Changes that leave alone all that was there. -/
theorem Trace.keepsValues (h : Grows s s') : Keeps s s' := by
  refine h.keeps (P := Keeps s) (fun {t t'} hc ht => ?_) .refl
  refine ⟨hc.evolves.debug.trans ht.debug, fun i v hv => ?_⟩
  obtain ⟨w, hw, hvw⟩ := ht.value i v hv
  have hle := (valid_of_value hv).2
  suffices hcore : (t'.value? i).map Value.core = some w.core by
    obtain ⟨u, hu, heq⟩ := Option.map_eq_some_iff.1 hcore
    exact ⟨u, hu, hvw.trans (.of_core heq)⟩
  cases hc.effect with
  | adds h =>
    have hlt : i ≠ t.size + 1 := by have := (valid_of_value hw).2; omega
    rw [h.value? i, if_neg hlt, hw, Option.map_some]
  | defines h _ hl =>
    have hne : i ≠ _ := Nat.ne_of_lt (Nat.lt_of_le_of_lt hle hl)
    rw [h.value? i, if_neg hne, hw, Option.map_some]
  | same h => rw [value?_congr h i, hw, Option.map_some]

/-! ## Steps that can be taken again -/

/-- A step keeps what it finds.  Once it has succeeded, another step succeeds
in every state that keeps the one it came to, with a result like its own. -/
structure Replays (g : State) (Q : α → β → Prop) (m : LowerM α) (m' : LowerM β) : Prop where
  keeps : ∀ {s}, SameGraph g s → SameGraph g (m.run s).2 ∧ Keeps s (m.run s).2
  again : ∀ {s s' a}, SameGraph g s → m.run s = (.ok a, s') → ∀ {r}, Keeps s' r →
    ∃ b r', m'.run r = (.ok b, r') ∧ Q a b ∧ Keeps r r'

namespace Replays

variable {P : α → β → Prop} {Q : γ → δ → Prop} {m : LowerM α} {m' : LowerM β}
  {next : α → LowerM γ} {next' : β → LowerM δ}

theorem pure {a : α} {b : β} (h : P a b) : Replays g P (Pure.pure a) (Pure.pure b) where
  keeps hs := ⟨hs, .refl⟩
  again hs hr r hk := by
    cases hr
    exact ⟨b, r, rfl, h, .refl⟩

theorem bind (hm : Replays g P m m') (hnext : ∀ a b, P a b → Replays g Q (next a) (next' b)) :
    Replays g Q (m >>= next) (m' >>= next') where
  keeps {s} hs := by
    have hk := hm.keeps hs
    rcases hr : m.run s with ⟨e | a, s₁⟩
    · rw [run_bind_of_error hr]
      rwa [hr] at hk
    · rw [hr] at hk
      obtain ⟨b, -, -, hab, -⟩ := hm.again hs hr .refl
      obtain ⟨hs₂, hk₂⟩ := (hnext a b hab).keeps hk.1
      rw [run_bind_of_ok hr]
      exact ⟨hs₂, hk.2.trans hk₂⟩
  again {s s' c} hs hr r hkr := by
    obtain ⟨a, s₁, hr₁, hr₂⟩ := run_bind_ok.1 hr
    have hk := hm.keeps hs
    rw [hr₁] at hk
    obtain ⟨b₀, -, -, hab₀, -⟩ := hm.again hs hr₁ .refl
    have hk₂ := ((hnext a b₀ hab₀).keeps hk.1).2
    rw [hr₂] at hk₂
    obtain ⟨b, r₁, hrun, hab, hkr₁⟩ := hm.again hs hr₁ (hk₂.trans hkr)
    obtain ⟨d, r₂, hrun', hcd, hkr₂⟩ := (hnext a b hab).again hk.1 hr₂ (hkr.trans hkr₁)
    exact ⟨d, r₂, (run_bind_of_ok hrun).trans hrun', hcd, hkr₁.trans hkr₂⟩

theorem mono {P' : α → β → Prop} (h : Replays g P m m') (hp : ∀ a b, P a b → P' a b) :
    Replays g P' m m' where
  keeps := h.keeps
  again hs hr _ hk := by
    obtain ⟨b, r', hrun, hab, hkr⟩ := h.again hs hr hk
    exact ⟨b, r', hrun, hp _ b hab, hkr⟩

/-- Noting something down. -/
theorem quietly {f : State → State} (h : ∀ s, SameGraph s (f s) ∧ (f s).values = s.values) :
    Replays g Eq (modify f) (modify f) where
  keeps hs := ⟨hs.trans (h _).1, .of_values (h _).2 (h _).1.debug⟩
  again hs hr r hk := by
    cases hr
    exact ⟨(), f r, rfl, rfl, .of_values (h r).2 (h r).1.debug⟩

theorem point {name detail : String} :
    Replays g Eq (Graph.point name detail) (Graph.point name detail) := by
  refine quietly fun s => ?_
  split <;> exact ⟨rfl, rfl⟩

/-- A step that fails has nothing to be done again. -/
theorem fail {cause : Cause} {span : Span} {types : List Ty} {reps : List Rep} :
    Replays g P (Graph.fail cause span types reps) m' where
  keeps hs := point.keeps hs
  again _ hr := by cases hr

theorem get : Replays g (fun s r => SameGraph g s ∧ Keeps s r) MonadState.get MonadState.get where
  keeps hs := ⟨hs, .refl⟩
  again hs hr r hk := by
    cases hr
    exact ⟨r, r, rfl, ⟨hs, hk⟩, .refl⟩

theorem value : Replays g (fun v w => v.Keeps w ∧ g.node? id = some v.node) (Graph.value id)
    (Graph.value id) := by
  refine bind get fun s r ⟨hs, hk⟩ => ?_
  cases hv : s.value? id with
  | none => exact fail
  | some v =>
    obtain ⟨w, hw, hvw⟩ := hk.value id v hv
    rw [hw]
    exact pure ⟨hvw, by rw [← hs.node?, node?_of_value hv]⟩

theorem reporting (h : Replays g P m m') :
    Replays g P (Graph.reporting m) (Graph.reporting m') where
  keeps {s} hs := by
    have hk := h.keeps hs
    rcases hr : m.run s with ⟨f | a, s₁⟩ <;> rw [hr] at hk
    · have hquiet : SameGraph s₁ (s₁.report f) ∧ (s₁.report f).values = s₁.values := by
        rw [State.report]
        split <;> exact ⟨rfl, rfl⟩
      rw [run_reporting_of_error hr]
      exact ⟨hk.1.trans hquiet.1, hk.2.trans (.of_values hquiet.2 hquiet.1.debug)⟩
    · rwa [run_reporting_ok.2 hr]
  again hs hr _ hk := by
    obtain ⟨b, r', hrun, hab, hkr⟩ := h.again hs (run_reporting_ok.1 hr) hk
    exact ⟨b, r', run_reporting_ok.2 hrun, hab, hkr⟩

end Replays

/-! ## Emission -/

/-- The same graph, in which no value has lost what is bound at it. -/
theorem SameGraph.keeps (h : SameGraph s s')
    (hp : Each (fun i w => ∀ xs, (s.value? i).bind Value.placed = some xs → w.placed = some xs)
      s'.values) : Keeps s s' := by
  refine ⟨h.debug, fun i v hv => ?_⟩
  have hbare := h.value? i
  rw [hv, Option.map_some] at hbare
  obtain ⟨w, hw, hvw⟩ := Option.map_eq_some_iff.1 hbare
  simp only [Value.bare, Value.mk.injEq] at hvw
  obtain ⟨node, type, rep, span, -⟩ := hvw
  exact ⟨w, hw, node, type, rep, span, fun xs hxs => hp.value? hw xs (by rw [hv]; exact hxs)⟩

theorem dominating_settled {xs : List ValueId} (hv : s.value? id = some v)
    (h : v.placed = some xs) : (dominating id).run s = (.ok xs, s) := by
  rw [dominating, run_bind_of_ok (value_run hv), h]
  rfl

theorem dominating_run (hi : Inv g) (hs : SameGraph g s) (hv : s.value? id = some v) :
    ∃ xs s' w, (dominating id).run s = (.ok xs, s') ∧ SameGraph g s' ∧ Keeps s s' ∧
      s'.value? id = some w ∧ w.placed = some xs := by
  cases hplaced : v.placed with
  | some xs => exact ⟨xs, s, v, dominating_settled hv hplaced, hs, .refl, hv, hplaced⟩
  | none =>
    have hnode : g.node? id = some v.node := hs.node? id ▸ node?_of_value hv
    have hid := (valid_of_node? hnode).1
    -- what is bound at any value stays so while the place of the variables is found
    have hstart : Each (Value.Holds (fun _ _ => True) fun i o =>
        ∀ xs, (s.value? i).bind Value.placed = some xs → o = some xs) s.values :=
      fun n w hw => ⟨fun _ _ _ _ => trivial, fun xs hxs => by simpa [State.value?, hw] using hxs⟩
    obtain ⟨xs, s₁, hr⟩ :=
      (place_gives SureRules.all hnode).works ⟨hi, valid_of_node? hnode⟩ s hs hstart
    obtain ⟨hs₁, hj, -⟩ := (place_gives SureRules.all hnode).ok hs hstart hr
    obtain ⟨w, hw, -⟩ := (SameGraph.trans hs₁.symm hs : SameGraph s₁ s).exists_value hv
    let settle := fun v : Value => { v with placed := some xs }
    have hsame : SameGraph s (s₁.bump id settle) :=
      SameGraph.trans (Eq.trans hs₁ hs.symm) (.bump fun _ => rfl)
    refine ⟨xs, s₁.bump id settle, settle w, ?_, hs.trans hsame, hsame.keeps ?_, ?_, rfl⟩
    · rw [dominating, run_bind_of_ok (value_run hv), hplaced]
      dsimp only
      rw [run_bind_of_ok hr, run_bind_of_ok (update_run _)]
      rfl
    · refine hj.bump hid (fun _ _ _ h => h.2) fun _ _ xs hxs => ?_
      rw [hv, Option.bind_some, hplaced] at hxs
      cases hxs
    · rw [value?_bump hid, if_pos rfl, hw, Option.map_some]

/-- What is bound at a value is settled once. -/
theorem dominating_replays (hi : Inv g) : Replays g Eq (dominating id) (dominating id) where
  keeps {s} hs := by
    have hk := (Replays.value : Replays g _ (value id) (value id)).keeps hs
    rcases hr : (value id).run s with ⟨e | v, s₁⟩
    · rw [hr] at hk
      rw [dominating, run_bind_of_error hr]
      exact hk
    · obtain ⟨xs, s', -, hrun, hs', hk', -⟩ := dominating_run hi hs (run_value_ok.1 hr).1
      rw [hrun]
      exact ⟨hs', hk'⟩
  again {s s' xs} hs hr r hkr := by
    obtain ⟨v, s₁, hvalue, -⟩ := run_bind_ok.1 hr
    obtain ⟨xs', s'', w, hrun, -, -, hw, hplaced⟩ := dominating_run hi hs (run_value_ok.1 hvalue).1
    cases hr.symm.trans hrun
    obtain ⟨u, hu, hwu⟩ := hkr.value id w hw
    exact ⟨xs, r, dominating_settled hu (hwu.placed xs hplaced), rfl, .refl⟩

/-- The chains of definitions that are followed start in the graph. -/
theorem Inv.followed (hi : Inv g) {n : Node} {x : ValueId} (hn : g.node? id = some n)
    (hx : x ∈ n.followed?) : Valid g x := by
  have hlt : 0 < x ∧ x < id := by
    cases n with
    | letIn owned strict body =>
      obtain rfl : strict = some x := hx
      exact hi.owned id _ hn x (hi.strict id _ hn)
    | caseOf shape native scrutinee =>
      cases native with
      | true => cases hx
      | false =>
        obtain rfl : scrutinee = x := Option.some.inj hx
        exact hi.subs id _ hn scrutinee (by simp [Node.subs])
    | _ => cases hx
  exact ⟨hlt.1, Nat.le_trans (Nat.le_of_lt hlt.2) (valid_of_node? hn).2⟩

/-- A first emission and one that comes after it. -/
def Replays.comparison (κ : Coupling) (hi : Inv g) : Comparison κ where
  Rel := Replays g
  Near := Valid g
  pure := .pure
  bind := .bind
  value := Replays.value.mono fun v w ⟨hvw, hn⟩ => ⟨hvw, fun _ => hi.followed hn⟩
  count _ h := .quietly h
  point := .point
  fail _ := .fail
  error := {
    keeps := fun hs => by
      rw [errorTerm_run]
      exact ⟨hs, .refl⟩
    again := fun hs hr r hk => by
      rw [errorTerm_run] at hr
      cases hr
      exact ⟨_, r, errorTerm_run _ r, hk.debug ▸ .refl _, .refl⟩ }
  root bound x hx := Replays.get.mono fun s r ⟨hs, hk⟩ => by
    have hi' : Inv s := inv_bare.1 (hs ▸ inv_bare.2 hi)
    have hx' : Valid s x := ⟨hx.1, hs.size ▸ hx.2⟩
    exact hk.strictRoot hi' hx' (Nat.lt_succ_of_le hx'.2) (Nat.lt_succ_of_le (hk.valid hx').2)
  place := dominating_replays hi

theorem emitIn_replays (hi : Inv g) (h : fuel ≤ fuel') (bound : Bound) (id : ValueId) :
    Replays g (Likened κ) (emitIn dominating fuel bound id)
      (emitIn dominating fuel' bound id) := by
  induction fuel generalizing fuel' bound id with
  | zero => exact .fail
  | succ fuel ih =>
    obtain ⟨fuel', rfl⟩ := Nat.exists_eq_add_one_of_ne_zero (Nat.ne_zero_of_lt h)
    exact (Replays.comparison κ hi).emitStep (ih (Nat.le_of_succ_le_succ h))

/-- **What has been emitted once is emitted again.** -/
theorem emit_replays (hi : Inv g) : Replays g Eq (emit id) (emit id) := by
  let κ := Setting.twice ⟨g.decls, g.target, g.debug⟩
  have hemit : Replays g (Likened κ) (emit id) (emit id) := by
    refine .reporting (.bind .get fun s r ⟨_, hk⟩ => emitIn_replays hi ?_ [] id)
    have hle := Nat.succ_le_succ hk.size_le
    exact Nat.mul_le_mul hle hle
  exact hemit.mono fun _ _ ht => ht.same rfl

/-! ## Between requests -/

/-- **One request** leaves alone what was there. -/
theorem serve_keeps (h : Inv s) (q : Request) : Keeps s (s.serve q) := by
  rcases serve_changes h q with ht | ⟨id, heq⟩
  · exact ht.keepsValues
  · exact heq ▸ ((emit_replays h).keeps .refl).2

/-- Requests leave alone what was there, one after the other. -/
theorem serveAll_keeps (h : Inv s) (requests : List Request) : Keeps s (s.serveAll requests) := by
  induction requests generalizing s with
  | nil => exact .refl
  | cons q requests ih => exact (serve_keeps h q).trans (ih (h.serve q))

/-- **Emission can be repeated.**  If emitting a value succeeds with a term, after
whatever requests, then emitting it after any further requests succeeds with
the same term, whatever they build, convert and emit, and whether they succeed
or fail. -/
theorem emits_again (target : Version) (decls : Decls) (debug : Bool)
    (earlier later : List Request) (id : ValueId) {t : Term} {s : State} :
    let g := (State.new target decls debug).serveAll earlier
    (emit id).run g = (.ok t, s) → ((emit id).run (s.serveAll later)).1 = .ok t := by
  intro g hr
  have hg : Inv g := (Inv.new target decls debug).serveAll earlier
  have hs : Inv s := by
    have hemit := hg.emit id
    rwa [hr] at hemit
  obtain ⟨t', r, hrun, rfl, -⟩ := (emit_replays hg).again .refl hr (serveAll_keeps hs later)
  rw [hrun]

/-- The square of a sum, which is bound once. -/
def square : Expr :=
  let call (f : Builtin) (a b : Form Expr) : Expr :=
    .node .integer default (.apply (.node .missing default (.apply
      (.node .missing default (.builtin f)) (.node .integer default a))) (.node .integer default b))
  .node .integer default (.letIn false
    [⟨"sum", .integer,
      call .addInteger (.const (some (.integer 1))) (.const (some (.integer 2))), default⟩]
    (call .multiplyInteger (.var "sum") (.var "sum")))

/-- The square is value 6.  It is emitted, packed and emitted again, after a name
that is not bound. -/
theorem emits_again_square :
    let g := (State.new .v3 ⟨[]⟩ false).serveAll [.build square]
    let later : List Request :=
      [.convert 6 .packed, .build (.node .integer default (.var "sum")), .emit 7]
    ∃ t, ((emit 6).run g).1 = .ok t ∧ ((emit 6).run (g.serveAll (.emit 6 :: later))).1 = .ok t := by
  intro g later
  have hok : ((emit 6).run g).1.isOk = true := by decide +kernel
  have hagain : ∀ t s, (emit 6).run g = (.ok t, s) → ((emit 6).run (s.serveAll later)).1 = .ok t :=
    fun _ _ => emits_again .v3 ⟨[]⟩ false [.build square] later 6
  clear_value g later
  cases ht : ((emit 6).run g).1 with
  | error f =>
    rw [ht] at hok
    cases hok
  | ok t => exact ⟨t, rfl, hagain t _ (Prod.ext ht rfl)⟩

end CoreLowering.Graph
