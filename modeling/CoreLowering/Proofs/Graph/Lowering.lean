import CoreLowering.Proofs.Graph.Conversion

/-!
# Lowering keeps the invariant

Every kind of expression is lowered by changes only, given that its parts
are, and so is every expression.

Main statement: `lowerExpr_kept`, and from it `build_kept` for the root of a
unit.
-/

namespace CoreLowering.Graph

variable {α β : Type} {s s' s'' : State} {id i b l : Nat} {lower : Lowerer} {x : Slots}
  {span : Span} {rep : Rep} {kind name : String} {t type : Ty} {es : List Expr} {body : Expr}
  {f : Nat} {d : Decl} {m : Matching} {e : Expr} {ids binders : List ValueId} {bs : List Binding}
  {param : Ty} {types : List Ty} {arms : List Arm} {o : OpenCase} {J J' K : Nat → Prop}
  {frames : List (List (String × ValueId))} {goal : Ty} {branches : List (Option ValueId)}

/-! ## Bounds of a scope -/

/-- What is built in a scope may use what the names in scope use and variables
without a definition.  These are parameters; a parameter that is left out
because nothing refers to it may be what a function gives back, so that it is
used outside of its function. -/
def Bounds (J : Nat → Prop) (s : State) (u : Nat) : Prop := J u ∨ Blank s u

/-- The result is there and within the bounds of the scope. -/
abbrev Inside (J : Nat → Prop) (id : ValueId) (s : State) : Prop := Within (Bounds J s) s id

/-- All results are there and within the bounds of the scope. -/
abbrev InsideAll (J : Nat → Prop) (ids : List ValueId) (s : State) : Prop :=
  ReachedAll (Bounds J s) ids s

theorem Bounds.grow (h : Bounds J s i) (hs : Grows s s') : Bounds J s' i := h.imp_right (·.grow hs)

theorem Inside.grow (h : Inside J id s) (hs : Grows s s') : Inside J id s' :=
  (Within.grow h hs).widen fun _ hu => hu.grow hs

theorem InsideAll.grow (h : InsideAll J ids s) (hs : Grows s s') : InsideAll J ids s' :=
  fun id hid => Inside.grow (h id hid) hs

/-- What is within the bounds before a step is so afterwards. -/
theorem SoundFrom.inside {b : State} {m : LowerM ValueId}
    (h : SoundFrom J' b frames s.size m s (Reached (Bounds J s))) :
    SoundFrom J' b frames s.size m s (Inside J) :=
  h.mono fun _ _ g h => Within.widen h fun _ hu => hu.grow g

/-- A step that settles variables of its own leaves the others in the bounds. -/
theorem SoundFrom.joined {b : State} {m : LowerM ValueId}
    (h : SoundFrom J' b frames l m s (Joined (Bounds J s) s)) :
    SoundFrom J' b frames l m s (Inside J) :=
  h.mono fun _ _ _ h => Within.widen h.1 fun u hu => hu.imp_right (h.2 u)

/-- Names may be given to what is within the bounds. -/
theorem SoundFrom.inBounds {b : State} {m : LowerM β} {P : β → State → Prop} (hib : Inv b)
    (h : SoundFrom (Bounds J s) b frames b.size m s P) : SoundFrom J b frames b.size m s P := by
  refine .look fun _ fr => .allow hib (fun _ => .inl) ?_ h
  rintro u (hu | ⟨x, hx⟩)
  · exact fr.below u hu
  · exact (valid_of_node? hx).2

/-- A step for each item of a list, with results within the bounds. -/
theorem Kept.mapM_inside {xs : List α} {f : α → LowerM ValueId}
    (hf : ∀ x ∈ xs, ∀ s', Grows s s' → Kept J (f x) s' (Inside J)) :
    Kept J (xs.mapM f) s (InsideAll J) :=
  Kept.mapM_all hf fun _ _ _ g h => Inside.grow h g

/-- The bounds of a scope within a scope are those of the outer one. -/
theorem Inside.flat (h : Inside (Bounds J s) id s') (hs : Grows s s') : Inside J id s' := by
  refine Within.widen h ?_
  rintro u (hu | hu)
  · exact hu.grow hs
  · exact .inr hu

/-! ## Wider types -/

/-- One step to a wider type. -/
theorem upcastStep_kept (hid : Within K s id) : Kept J (upcastStep span id goal) s (Reached K) := by
  refine .value hid fun v hv => .read decls_run ?_
  refine .ite (fun _ => reinterpret_kept hid) fun _ => .ite (fun _ => ?_) fun _ => ?_
  · refine .ite (fun _ => reinterpret_kept hid) fun _ => ?_
    exact Kept.bind (toRep_kept hid) fun x s1 g1 hx => reinterpret_kept hx
  split
  · refine .ite (fun _ => reinterpret_kept hid) fun _ => ?_
    exact Kept.bind (toRep_kept hid) fun x s1 g1 hx => reinterpret_kept hx
  · refine Kept.bind warn_sound fun _ s1 g1 _ => ?_
    exact reinterpret_kept (hid.grow g1)

/-- A value is brought to a wider type. -/
theorem upcast_kept (hid : Within K s id) : Kept J (upcast id goal span) s (Reached K) := by
  refine .value hid fun v hv => ?_
  split
  · exact .pure hid
  · exact .pure hid
  · refine .ite (fun _ => .pure hid) fun _ => ?_
    split
    · exact fail_sound rfl
    · exact Kept.foldlM_reached hid fun t _ x s' _ hx => upcastStep_kept hx

/-- Bringing a value to a type and then into a layout. -/
theorem upcast_toRep_kept (hid : Within K s id) :
    Kept J (upcast id goal span >>= fun x => toRep x rep) s (Reached K) :=
  Kept.bind (upcast_kept hid) fun _ _ _ hx => toRep_kept hx

/-! ## Operators -/

/-- How parts are lowered keeps the invariant. -/
def Lowers (lower : Lowerer) : Prop :=
  ∀ {J : Nat → Prop} {s : State} {e : Expr}, Kept J (lower e) s (Inside J)

/-- A condition is lowered within the bounds. -/
theorem lowerBool_kept (hl : Lowers lower) : Kept J (lowerBool lower e) s (Inside J) :=
  Kept.bind hl fun _ _ _ hx => .inside (upcast_toRep_kept hx)

/-- Values that are reached can all be read. -/
theorem mapM_value_run (h : ReachedAll K ids s) :
    ∃ vs, ∀ g p, (ids.mapM value).run (s.under g p) = (.ok vs, s.under g p) := by
  induction ids with
  | nil => exact ⟨[], fun _ _ => rfl⟩
  | cons id ids ih =>
    obtain ⟨hid, hids⟩ := reachedAll_cons.1 h
    obtain ⟨v, hv⟩ := hid.valid.exists_value
    obtain ⟨vs, hvs⟩ := ih hids
    refine ⟨v :: vs, fun g p => ?_⟩
    have hvalue : (value id).run (s.under g p) = (.ok v, s.under g p) := value_run hv
    rw [List.mapM_cons, run_bind_of_ok hvalue, run_bind_of_ok (hvs g p), run_pure]

/-- The common layout of values depends on the declarations only. -/
theorem commonRep_run (ids : List ValueId) (t : Ty) (h : ReachedAll K ids s) :
    ∃ r, ∀ {v d p}, (commonRep ids t).run (s.under ⟨s.decls, v, d⟩ p) =
      (.ok r, s.under ⟨s.decls, v, d⟩ p) := by
  obtain ⟨vs, hvs⟩ := mapM_value_run h
  refine ⟨commonRepFrom s.decls t none (vs.map (·.rep)), ?_⟩
  intro v d p
  rw [commonRep, run_bind_of_ok (hvs _ p)]
  rfl

theorem joinTypes_sound : Sound J l (joinTypes kind t es) s fun _ _ => True := by
  induction es generalizing t with
  | nil => exact .pure trivial
  | cons e es ih =>
    unfold joinTypes
    split
    · exact ih
    · split
      · exact ih
      · exact fail_sound rfl

theorem joinArms_kept : Kept J (joinArms kind type span es) s fun _ _ => True := by
  refine Kept.bind joinTypes_sound fun t s1 _ _ => ?_
  split
  · exact .pure trivial
  · exact .pure trivial
  · split
    · exact .pure trivial
    · exact fail_sound rfl

theorem checkOperands_kept {want : Nat} :
    Sound J l (checkOperands kind span want es) s fun _ _ => True :=
  .ite (fun _ => failAt_sound rfl) fun _ => .pure trivial

/-- Two conditions and a constant make a choice. -/
theorem lowerOperator_kept (hl : Lowers lower) {op : Operator} :
    Kept J (lowerOperator lower type span op es) s (Inside J) := by
  refine Kept.bind checkOperands_kept fun _ s1 _ _ => ?_
  split
  · refine Kept.bind (lowerBool_kept hl) fun x s2 g2 hx => ?_
    refine Kept.bind (lowerBool_kept hl) fun y s3 g3 hy => ?_
    refine Kept.bind (.inside (J := J) constValue_kept) fun no s4 g4 hn => ?_
    exact .inside (ifThenElse_kept (hx.grow (g3.trans g4)) (hy.grow g4) hn)
  · refine Kept.bind (lowerBool_kept hl) fun x s2 g2 hx => ?_
    refine Kept.bind (lowerBool_kept hl) fun y s3 g3 hy => ?_
    refine Kept.bind (.inside (J := J) constValue_kept) fun yes s4 g4 hn => ?_
    exact .inside (ifThenElse_kept (hx.grow (g3.trans g4)) hn (hy.grow g4))
  · refine Kept.bind (lowerBool_kept hl) fun x s2 g2 hx => ?_
    refine Kept.bind (.inside (J := J) constValue_kept) fun yes s3 g3 hy => ?_
    refine Kept.bind (.inside (J := J) constValue_kept) fun no s4 g4 hn => ?_
    exact .inside (ifThenElse_kept (hx.grow (g3.trans g4)) hn (hy.grow g4))
  · refine Kept.bind joinArms_kept fun t s2 g2 _ => ?_
    refine Kept.bind (lowerBool_kept hl) fun cond s3 g3 hc => ?_
    refine Kept.bind hl fun x s4 g4 hx => ?_
    refine Kept.bind (upcast_kept hx).inside fun x s5 g5 hx => ?_
    refine Kept.bind hl fun y s6 g6 hy => ?_
    refine Kept.bind (upcast_kept hy).inside fun y s7 g7 hy => ?_
    have hx7 := hx.grow (g6.trans g7)
    obtain ⟨r, hr⟩ := commonRep_run [x, y] t (by simpa using ⟨hx7, hy⟩)
    refine .read hr (Kept.bind (toRep_kept hx7).inside fun x s8 g8 hx => ?_)
    refine Kept.bind (toRep_kept (hy.grow g8)).inside fun y s9 g9 hy => ?_
    have g39 := g4.trans (g5.trans (g6.trans (g7.trans (g8.trans g9))))
    exact .inside (ifThenElse_kept (hc.grow g39) (hx.grow g9) hy)
  · refine Kept.bind hl fun id s2 g2 hid => ?_
    refine .value hid fun v hv => .ite (fun _ => .inside (upcast_kept hid)) fun _ => ?_
    refine .read decls_run (.ite (fun _ => ?_) fun _ => .ite (fun _ => ?_) fun _ =>
      .ite (fun _ => ?_) fun _ => .inside (upcast_kept hid))
    · refine Kept.bind warn_sound fun _ s3 g3 _ => ?_
      refine Kept.bind (toRep_kept (hid.grow g3)).inside fun x s4 g4 hx => ?_
      exact .inside (reinterpret_kept hx)
    · exact Kept.bind (toRep_kept hid).inside fun x s3 g3 hx => .inside (reinterpret_kept hx)
    · exact Kept.bind (toRep_kept hid).inside fun x s3 g3 hx => .inside (reinterpret_kept hx)
  · exact failAt_sound rfl

/-! ## Bindings and functions -/

/-- A variable that has just been made within the bounds of the scope. -/
abbrev FreshInside (J : Nat → Prop) (b : Nat) (id : ValueId) (s : State) : Prop :=
  Fresh (Bounds J s) b id s

theorem FreshInside.grow (h : FreshInside J b id s) (hs : Grows s s') : FreshInside J b id s' :=
  (Fresh.grow h hs).widen fun _ hu => hu.grow hs

/-- A new variable is within the bounds if its definition is. -/
theorem newVar_inside {rhs : Nat} (hrhs : Inside J rhs s) :
    Kept J (newVar name type rep rhs span) s (FreshInside J s.size) :=
  (newVar_kept hrhs).mono fun _ _ g h => h.widen fun _ hu => hu.grow g

/-- A binding is lowered to a new variable. -/
theorem lowerBinding_kept (hl : Lowers lower) {b : Binding} :
    Kept J (lowerBinding lower b) s (FreshInside J s.size) := by
  refine Kept.bind hl fun rhs s1 g1 hr => ?_
  refine Kept.bind (upcast_kept hr).inside fun rhs s2 g2 hr => ?_
  refine .value hr fun v hv => (newVar_inside hr).mono fun _ _ _ h => ?_
  exact h.weaken (Nat.le_trans g1.size_le g2.size_le)

/-- A warning is given if nothing uses the variable. -/
theorem warnUnused_kept {b : Binding} (hid : Within K s id) :
    Kept J (warnUnused b id) s fun _ _ => True := by
  refine .look fun hi _ => .value hid fun v hv => ?_
  split
  · rename_i rhs _ hrhs
    have hr : Valid s rhs := (hi.rhs _ _ _ (node?_of_value hv) hrhs).1
    exact .effortless hr (.ite (fun _ => warn_sound) fun _ => .pure trivial)
  · exact .pure trivial

/-- Giving names meanings one after the other. -/
theorem SoundFrom.defineAll {b : State} {f : Unit → LowerM β} {R : β → State → Prop}
    {step : α → LowerM Unit} {xs : List α} {frame : List (String × ValueId)}
    (hstep : ∀ x ∈ xs, (∃ (n : String) (id : Nat), step x = Graph.define n id ∧ Within J s id) ∨
      step x = Pure.pure ())
    (hf : ∀ s' frame', Grows s s' → SoundFrom J b (frame' :: frames) l (f ()) s' R) :
    SoundFrom J b (frame :: frames) l (xs.forM step >>= f) s R := by
  induction xs generalizing s frame with
  | nil => exact .read (run_pure ()) (hf s frame .refl)
  | cons x xs ih =>
    have heq : ((x :: xs).forM step >>= f) = (step x >>= fun _ => xs.forM step >>= f) :=
      bind_assoc (step x) (fun _ => xs.forM step) f
    rw [heq]
    have hxs : ∀ s', Grows s s' → ∀ y ∈ xs, (∃ (n : String) (id : Nat),
        step y = Graph.define n id ∧ Within J s' id) ∨ step y = Pure.pure () := by
      intro s' g y hy
      refine (hstep y (by simp [hy])).imp_left ?_
      rintro ⟨n, id, hy, ha⟩
      exact ⟨n, id, hy, ha.grow g⟩
    rcases hstep x (by simp) with ⟨n, id, hx, ha⟩ | hx <;> rw [hx]
    · refine .define n ha fun s1 g1 => ?_
      exact ih (hxs s1 g1) fun s' frame' g => hf s' frame' (g1.trans g)
    · exact .read (run_pure ()) (ih (hxs s .refl) hf)

/-- The body of a let may use the variables that the let binds. -/
theorem lowerLet_kept (hl : Lowers lower) : Kept J (lowerLet lower span bs body) s (Inside J) := by
  have howned : Kept J (bs.mapM (lowerBinding lower)) s fun ids s' =>
      ∀ id ∈ ids, FreshInside J s.size id s' :=
    Kept.mapM_all (fun b _ s' g => (lowerBinding_kept hl).mono
      fun _ _ _ h => h.weaken g.size_le) fun _ _ _ g h => FreshInside.grow h g
  refine .look fun hi fr => .grow .refl howned fun owned s1 g1 _ ho => .inBounds hi ?_
  refine .push fun s2 g2 => .defineAll ?_ fun s3 frame g3 => ?_
  · intro p hp
    exact .inl ⟨_, _, rfl, (ho _ (List.of_mem_zip hp).2).within.grow g2⟩
  have g13 := g2.trans g3
  refine .grow (g1.trans g13) hl fun x s4 g4 h4 hx => .pop fun s5 g5 => ?_
  have ho5 := fun y hy => FreshInside.grow (ho y hy) (g13.trans (g4.trans g5))
  refine .grow (h4.trans g5) (Kept.forM ?_) ?_
  · intro p hp s' g
    exact warnUnused_kept ((ho5 _ (List.of_mem_zip hp).2).within.grow g)
  intro _ s6 g6 h6 _
  have hx6 := (hx.flat (g13.trans g4)).grow (g5.trans g6)
  refine .last ((letIn_sound (hx6.widen fun _ => .inl) ?_ ?_ (by simp)).mono
    fun _ _ _ h => h.1).joined
  · exact fun y hy => (ho5 y hy).toPast.grow g6
  · exact fun u hu => hu.imp_left (fr.below u)

/-- A recursive function is closed off before the body is lowered. -/
theorem lowerLetRec_kept (hl : Lowers lower) :
    Kept J (lowerLetRec lower span bs body) s (Inside J) := by
  unfold lowerLetRec
  split
  · rename_i b
    refine .family (.ite (fun _ => fail_bind rfl) fun _ => ?_)
    refine .look fun hi fr => .standardRep (.grow .refl newBinder_kept ?_)
    rintro self s1 g1 - ⟨hself, hsize, x, hx⟩
    refine .inBounds hi (.push fun s2 g2 => ?_)
    refine .define b.name ((hself.within.grow g2).widen ?_) fun s3 g3 => ?_
    · rintro _ rfl
      exact .inr ⟨x, hx⟩
    have g13 := g2.trans g3
    refine .grow (g1.trans g13) hl fun x1 s4 g4 h4 hx1 => ?_
    refine .grow h4 (upcast_kept hx1).inside fun x2 s5 g5 h5 hx2 => ?_
    refine .grow h5 (toRep_kept hx2).inside fun x3 s6 g6 h6 hx3 => ?_
    have g16 := g13.trans (g4.trans (g5.trans g6))
    have hbounds : ∀ u, Bounds J s6 u → u ≤ s.size ∨ Blank s6 u := fun u =>
      Or.imp_left (fr.below u)
    refine .close (L := fun u => Bounds J s6 u ∨ u = self) hi g1 hself hsize hx g16
      ((hx3.flat g16).widen fun _ => .inl) hbounds (fun u hu => .inl (hu.grow g16)) ?_ ?_ ?_
    · rintro u (hu | rfl)
      · exact (hbounds u hu).elim (Nat.le_trans · h6.size_le) fun ⟨_, hb⟩ => (valid_of_node? hb).2
      · exact Nat.le_trans hself.valid.2 g16.size_le
    · simp
    intro s8 h8 hself8 hblank
    refine .grow h8 hl fun y s9 g9 h9 hy => .pop fun s10 g10 => ?_
    refine .last ((letIn_sound (K := Bounds J s10) ((Within.grow hy g10).widen ?_) ?_ ?_
      (by simp)).mono fun _ _ _ h => h.1).joined
    · rintro u (((hu | hu) | rfl) | hu)
      · exact .inl (.inl hu)
      · rcases hblank u hu with rfl | hu
        · exact .inr (List.mem_singleton_self _)
        · exact .inl (.inr ((hu.grow g9).grow g10))
      · exact .inr (List.mem_singleton_self _)
      · exact .inl (.inr (hu.grow g10))
    · intro z hz
      obtain rfl := List.mem_singleton.1 hz
      exact (hself8.toPast.grow g9).grow g10
    · exact fun u hu => hu.imp_left (fr.below u)
  · exact failAt_sound rfl

/-- The body of a function may use its parameter. -/
theorem lowerLam_kept (hl : Lowers lower) {param : String} {paramType : Ty} :
    Kept J (lowerLam lower type span param paramType body) s (Inside J) := by
  unfold lowerLam
  extract_lets inType
  clear_value inType
  refine .look fun hi fr => .standardRep (.grow .refl newBinder_kept ?_)
  rintro p s1 g1 - ⟨hp, -, hpb⟩
  refine .inBounds hi (.push fun s2 g2 => ?_)
  refine .define param ((hp.within.grow g2).widen fun _ hu => .inr (hu ▸ hpb)) fun s3 g3 => ?_
  have g13 := g2.trans g3
  refine .grow (g1.trans g13) hl fun x1 s4 g4 h4 hx1 => .pop fun s5 g5 => ?_
  refine .grow (h4.trans g5) (upcast_kept (hx1.grow g5)).inside fun x2 s6 g6 h6 hx2 => ?_
  refine .standardRep (.grow h6 (toRep_kept hx2).inside fun x s7 g7 h7 hx => ?_)
  have g17 := g13.trans (g4.trans (g5.trans (g6.trans g7)))
  have hp7 := (hp.claimable hpb).grow g17
  replace hx := hx.flat g17
  obtain ⟨v, hv⟩ := hx.valid.exists_value
  obtain ⟨w, hw⟩ := hp7.1.valid.exists_value
  refine .read (value_run hv) (.read (value_run hw) (.last ?_))
  have hlam : ∀ rep, Sound (Bounds J s1) s.size
      (lambda (some p) x type rep true span) s7 (Inside J) := by
    intro rep
    refine (lambda_sound (hx.widen fun _ => .inl) ?_ ?_).joined
    · rintro q ⟨⟩
      exact hp7
    · exact fun _ u hu => hu.imp_left (fr.below u)
  extract_lets unused
  split
  · refine .ite (fun _ => ?_) fun _ => hlam _
    exact (lambda_sound (hx.widen fun _ => .inl) (by simp) (absurd rfl)).joined
  · exact hlam _

/-! ## Applications -/

/-- A function, with the layout it has, is applied to a value. -/
theorem applyNow_kept {arg : Nat} (hf : Within K s f) (ha : Within K s arg) : Kept J (do
      let v ← value f
      match v.rep with
      | .delayed out => force f type out
      | .closure inp out =>
        let a ← upcast arg v.type.input span
        let a ← toRep a inp
        apply f a type out span
      | r => fail (.cannotApply v.type) span [v.type] [r]) s (Reached K) := by
  refine .value hf fun v hv => ?_
  split
  · exact force_kept hf
  · refine Kept.bind (upcast_kept ha) fun a s1 g1 ha => ?_
    refine Kept.bind (toRep_kept ha) fun a s2 g2 ha => ?_
    exact apply_kept (hf.grow (g1.trans g2)) ha
  · exact fail_sound rfl

/-- One value is applied to another. -/
theorem applyValue_kept {arg : Nat} (hf : Within K s f) (ha : Within K s arg) :
    Kept J (applyValue f arg type span) s (Reached K) := by
  refine .value hf fun v hv => .ite (fun _ => apply_kept hf ha) fun _ => ?_
  refine .ite (fun _ => .read (run_pure _) (applyNow_kept hf ha)) fun _ => ?_
  refine .standardRep (Kept.bind (toRep_kept hf) ?_)
  exact fun g s1 g1 hg => applyNow_kept hg (ha.grow g1)

/-- A value is brought to the layout that a builtin takes. -/
theorem builtinArg_kept (hid : Within K s id) : Kept J (builtinArg id param) s (Reached K) := by
  refine .value hid fun v hv => .read decls_run ?_
  refine .ite (fun _ => .pure hid) fun _ => .ite (fun _ => ?_) fun _ =>
    .ite (fun _ => .pure hid) fun _ => toRep_kept hid
  exact Kept.bind (toRep_kept hid) fun x s1 g1 hx => reinterpret_kept hx

theorem lowerBuiltinArg_kept (hl : Lowers lower) {output : Ty} :
    Kept J (lowerBuiltinArg lower type output rep e param) s (Inside J) := by
  refine Kept.bind hl fun a s1 g1 ha => ?_
  exact .ite (fun _ => .inside (upcast_toRep_kept ha)) fun _ => .inside (builtinArg_kept ha)

theorem lowerBuiltinCall_kept (hl : Lowers lower) {f : Builtin} {args : List Expr} :
    Kept J (lowerBuiltinCall lower f args type span) s (Inside J) := by
  have hcall : ∀ rep, Kept J (do
      let ids ← (args.zip (Signature.parts f).1).mapM fun p =>
        lowerBuiltinArg lower type (Signature.parts f).2 rep p.1 p.2
      builtin f type rep span ids) s (Inside J) := by
    intro rep
    refine Kept.bind (Kept.mapM_inside fun _ _ _ _ => ?_) ?_
    · exact lowerBuiltinArg_kept hl
    · exact fun ids s1 _ hids => .inside (builtin_kept hids)
  refine .ite (fun _ => ?_) fun _ => .read (run_pure _) (hcall _)
  exact .standardRep (hcall _)

/-- A function is applied to one argument after the other. -/
theorem applyAll_kept (hl : Lowers lower) (args : List (Expr × Ty × Span)) (hf : Inside J f s) :
    Kept J (applyAll lower f args) s (Inside J) := by
  unfold applyAll
  induction args generalizing s f with
  | nil => exact .pure hf
  | cons a args ih =>
    rw [List.foldlM_cons, bind_assoc]
    refine Kept.bind hl fun x s1 g1 hx => ?_
    exact Kept.bind (applyValue_kept (hf.grow g1) hx).inside fun y s2 _ hy => ih hy

theorem lowerApply_kept (hl : Lowers lower) {fn arg : Expr} :
    Kept J (lowerApply lower type span fn arg) s (Inside J) := by
  have hplain : Kept J (do
      let f ← lower fn
      applyValue f (← lower arg) type span) s (Inside J) :=
    Kept.bind hl fun f s1 _ hf =>
      Kept.bind hl fun _ _ g2 ha =>
        .inside (applyValue_kept (hf.grow g2) ha)
  unfold lowerApply
  extract_lets plain
  split
  extract_lets args
  split
  · extract_lets n
    split
    · refine .ite (fun _ => hplain) fun _ => ?_
      refine Kept.bind (lowerBuiltinCall_kept hl) fun call s1 _ hc => ?_
      exact applyAll_kept hl _ hc
    · exact hplain
  · exact hplain

/-! ## Fields and constructors -/

theorem fieldRep_sound : Sound J l (fieldRep t span) s fun _ _ => True :=
  .read decls_run (.ite (fun _ => fail_bind rfl) fun _ => .pure trivial)

theorem fieldList_kept (hid : Within K s id) : Kept J (fieldList id span) s (Reached K) := by
  refine .value hid fun v hv => .ite (fun _ => reinterpret_kept hid) fun _ => ?_
  have htake : ∀ (x : ValueId) s', Within K s' x → Kept J (do
      let taken ← builtin .unConstrData constrT .constant span [x]
      builtin .sndPair dataListT .constant span [taken]) s' (Reached K) :=
    fun x s' hx => takeFields_kept hx
  extract_lets jp
  split
  · exact .read (run_pure _) (htake id s hid)
  · exact .read (run_pure _) (htake id s hid)
  · exact .read (run_pure _) (htake id s hid)
  · exact .read (run_pure _) (htake id s hid)
  · exact Kept.bind (toRep_kept hid) fun x s1 _ hx => htake x s1 hx

theorem dropFields_kept {n : Nat} (hid : Within K s id) :
    Kept J (dropFields span n id) s (Reached K) := by
  induction n generalizing s id with
  | zero => exact .pure hid
  | succ n ih =>
    refine Kept.bind (unary_kept hid) ?_
    exact fun tail s1 _ ht => ih ht

/-- A field is taken by its place. -/
theorem nthField_kept (hid : Within K s id) : Kept J (nthField id i type span) s (Reached K) := by
  refine Kept.bind (dropFields_kept hid) fun rest s1 _ hr => ?_
  refine Kept.bind fieldRep_sound fun rep s2 g2 _ => ?_
  exact unary_kept (hr.grow g2)

theorem foundConstr_sound :
    Sound J l (match d.find? name with
      | none => fail (.unknownConstructor name) span [t] []
      | some c => pure (d, c)) s fun _ _ => True := by
  split
  · exact fail_sound rfl
  · exact .pure trivial

theorem selectedConstr_sound {field : String} :
    Sound J l (selectedConstr field t span) s fun _ _ => True := by
  refine .read decls_run ?_
  split
  · exact fail_sound rfl
  · rename_i d _
    extract_lets jp
    split
    · exact .read (run_pure _) foundConstr_sound
    · exact fail_bind rfl
    · exact .read (run_pure _) foundConstr_sound

theorem lowerSelect_kept (hl : Lowers lower) {field : String} :
    Kept J (lowerSelect lower span field es) s (Inside J) := by
  refine Kept.bind checkOperands_kept fun _ s1 _ _ => ?_
  split
  · rename_i e
    refine Kept.bind hl fun id s2 _ hid => ?_
    refine .value hid fun v hv => .read decls_run ?_
    refine Kept.bind selectedConstr_sound fun dc s3 g3 _ => ?_
    have hid3 := hid.grow g3
    split
    split
    · exact fail_sound rfl
    · refine .ite (fun _ => ?_) fun _ => ?_
      · refine Kept.bind (toRep_kept hid3).inside fun list s4 _ hlist => ?_
        exact .ite (fun _ => .inside (unary_kept hlist)) fun _ => .inside (unary_kept hlist)
      · split
        · refine Kept.bind fieldRep_sound fun rep s4 g4 _ => ?_
          exact .inside (unary_kept (hid3.grow g4))
        · refine Kept.bind (.inside (J := J) integerValue_kept) fun k s4 g4 hk => ?_
          refine Kept.bind fieldRep_sound fun rep s5 g5 _ => ?_
          exact .inside (binary_kept (hid3.grow (g4.trans g5)) (hk.grow g5))
        · refine Kept.bind (fieldList_kept hid3).inside fun fields s4 _ hf => ?_
          exact .inside (nthField_kept hf)
  · exact failAt_sound rfl

theorem consValue_kept {head list : Nat} (hh : Within K s head) (hlist : Within K s list) :
    Kept J (consValue head list type rep span) s (Reached K) := by
  have hcons : Kept J (builtin .mkCons type rep span [head, list]) s (Reached K) :=
    binary_kept hh hlist
  refine .constantOf hh.valid (.constantOf hlist.valid ?_)
  split
  · exact .ite (fun _ => constIn_reached) fun _ => hcons
  · exact hcons

/-- Fields are put into a list. -/
theorem consAll_kept {fields : List ValueId} (hf : ReachedAll K fields s) :
    Kept J (consAll fields span) s (Reached K) := by
  refine Kept.bind (constValue_kept (K := K)) fun nil s1 g1 hn => ?_
  refine Kept.foldlM_reached hn fun x hx list s' g hlist => ?_
  exact consValue_kept ((hf x (List.mem_reverse.1 hx)).grow (g1.trans g)) hlist

theorem lowerFields_kept (hl : Lowers lower) :
    Kept J (lowerFields lower es types) s (InsideAll J) := by
  refine Kept.mapM_inside fun p _ s' _ => ?_
  refine Kept.bind hl fun x s1 _ hx => ?_
  refine Kept.bind (upcast_kept hx).inside fun x s2 _ hx => ?_
  refine Kept.bind fieldRep_sound fun rep s3 g3 _ => ?_
  exact .inside (toRep_kept (hx.grow g3))

/-- A constructor of the list type needs its two arguments. -/
theorem lowerListConstr_kept (hl : Lowers lower)
    (htwo : s.Orderly → name ≠ "Nil" → 2 ≤ es.length ∧ 2 ≤ types.length) :
    Kept J (lowerListConstr lower type span name es types) s (Inside J) := by
  refine .read decls_run (.ite (fun _ => .inside constIn_reached) fun hname => ?_)
  split
  · rename_i e es t _
    refine Kept.bind hl fun h s1 g1 hh => ?_
    refine Kept.bind (upcast_kept hh).inside fun h s2 g2 hh => ?_
    refine Kept.bind (toRep_kept hh).inside fun h s3 g3 hh => ?_
    cases es with
    | nil =>
      refine fail_sound_of fun ho => absurd ?_ (Nat.not_succ_le_self 1)
      exact (htwo ((g1.trans (g2.trans g3)).orderly ho) hname).1
    | cons f es =>
      refine Kept.bind hl fun x s4 g4 hx => ?_
      refine Kept.bind (upcast_kept hx).inside fun x s5 g5 hx => ?_
      refine Kept.bind (toRep_kept hx).inside fun x s6 g6 hx => ?_
      exact .inside (consValue_kept (hh.grow (g4.trans (g5.trans g6))) hx)
  · next hshort =>
      refine fail_sound_of fun ho => ?_
      obtain ⟨hes, htypes⟩ := htwo ho hname
      cases es with
      | nil => exact absurd hes (by simp)
      | cons e es =>
        cases types with
        | nil => exact absurd htypes (by simp)
        | cons t ts => exact absurd rfl (hshort e es t ts rfl)

theorem lowerConstr_kept (hl : Lowers lower) {decl : String} :
    Kept J (lowerConstr lower type span decl name es) s (Inside J) := by
  refine .read decls_run ?_
  split
  · exact fail_sound rfl
  · rename_i d hd
    split
    · rename_i c tag hc _
      refine .ite (fun _ => fail_bind rfl) fun hlen => .ite (fun hname => ?_) fun _ => ?_
      · refine lowerListConstr_kept hl fun ho hnil => ?_
        have htwo : 2 ≤ c.fields.length :=
          Decl.two_le_of_orderly (ho.of_find hd) hname hc hnil
        rw [Decidable.not_not.1 hlen, Decl.fieldTypes, List.length_map]
        exact ⟨htwo, htwo⟩
      · refine Kept.bind (lowerFields_kept hl) fun fields s1 _ hf => ?_
        refine Kept.bind (consAll_kept hf).inside fun list s2 _ hlist => ?_
        refine .constantOf hlist.valid ?_
        split
        · exact .inside (constIn_reached)
        · exact .inside (tagFields_kept hlist)
    · exact fail_sound rfl

/-! ## Matches -/

/-- Arms are assigned to the names that they match. -/
theorem assignArms_sound (names : List String) (wild : Option Arm) (slots : List (Option Arm)) :
    Kept J (assignArms names wild slots arms) s fun _ _ => True := by
  induction arms generalizing s wild slots with
  | nil => exact .pure trivial
  | cons a arms ih =>
    refine .ite (fun _ => .ite (fun _ => ?_) fun _ => ih _ _) fun _ => ?_
    · exact Kept.bind warn_sound fun _ _ _ _ => ih _ _
    split
    · exact failAt_sound rfl
    · refine .ite (fun _ => ?_) fun _ => ih _ _
      exact Kept.bind warn_sound fun _ _ _ _ => ih _ _

/-- The value of the wildcard arm is within the bounds. -/
def Slots.Reached (J : Nat → Prop) (x : Slots) (s : State) : Prop :=
  ∀ id : Nat, x.shared = some id → Inside J id s

theorem Slots.Reached.grow (h : x.Reached J s) (hs : Grows s s') : x.Reached J s' :=
  fun id hid => (h id hid).grow hs

/-- The arms of a match are resolved before any of them is lowered. -/
theorem Matching.resolve_kept (m : Matching) (names : List String) :
    Kept J (m.resolve names) s (Slots.Reached J) := by
  refine Kept.bind (assignArms_sound _ _ _) fun r s1 _ _ => ?_
  have hrest : ∀ (filled : List (Option Arm)) s', Kept J (do
      (names.zip filled).forM fun p => do
        if p.2.isNone then
          warn .unreachableArm m.span
            ("no arm for " ++ p.1 ++ "; the branch fails at runtime")
      return ⟨filled, none⟩) s' (Slots.Reached J) := by
    intro filled s'
    refine Kept.bind (Kept.forM fun p _ s'' _ => ?_) fun _ _ _ _ =>
      .pure (by simp [Slots.Reached])
    exact .ite (fun _ => warn_sound) fun _ => .pure trivial
  split
  extract_lets filled jp
  split
  · refine .ite (fun _ => ?_) fun _ => hrest _ s1
    exact Kept.bind warn_sound fun _ s2 _ _ => hrest _ s2
  · exact hrest _ s1

/-- The body of an arm may use the variables that the arm binds. -/
theorem lowerArmBody_kept (hl : Lowers lower) {a : Arm} (hb : InsideAll J binders s) :
    Kept J (lowerArmBody lower m a binders) s (Inside J) := by
  refine .ite (fun _ => failAt_bind rfl) fun _ => .look fun hi _ => .inBounds hi ?_
  refine .push fun s1 g1 => .defineAll ?_ fun s2 frame g2 => ?_
  · rintro ⟨id, i⟩ hp
    dsimp only
    split
    · exact .inl ⟨_, _, rfl, (hb _ (List.fst_mem_of_mem_zipIdx hp)).grow g1⟩
    · exact .inr rfl
  refine .grow (g1.trans g2) hl fun x s3 _ h3 hx => ?_
  refine .grow h3 (upcast_kept hx).inside fun x s4 _ h4 hx => ?_
  exact .pop fun s5 g5 => .last (.pure ((hx.flat h4).grow g5))

/-- An arm is lowered within the bounds, and a wildcard once for all branches.
-/
theorem lowerArm_kept (hl : Lowers lower) (hx : x.Reached J s) (hb : InsideAll J binders s) :
    Kept J (lowerArm lower m x i binders) s fun r s' =>
      (∀ id : Nat, r.1 = some id → Inside J id s') ∧ r.2.Reached J s' := by
  unfold lowerArm
  split
  · exact .pure ⟨by simp, hx⟩
  · split
    · rename_i id _ hid
      refine .pure ⟨?_, hx⟩
      rintro _ ⟨⟩
      exact hx id hid
    · refine Kept.bind (lowerArmBody_kept hl hb) fun id s1 _ hid => .pure ⟨?_, ?_⟩
      · rintro _ ⟨⟩
        exact hid
      · rintro _ ⟨⟩
        exact hid
    · refine Kept.bind (lowerArmBody_kept hl hb) fun id s1 g1 hid =>
        .pure ⟨?_, hx.grow g1⟩
      rintro _ ⟨⟩
      exact hid

/-- The values of branches are within the bounds. -/
def BranchesReached (J : Nat → Prop) (branches : List (Option ValueId)) (s : State) : Prop :=
  ∀ id : Nat, some id ∈ branches → Inside J id s

theorem BranchesReached.cons {x : Option ValueId} {xs : List (Option ValueId)}
    (hx : ∀ id : Nat, x = some id → Inside J id s) (hxs : BranchesReached J xs s) :
    BranchesReached J (x :: xs) s := by
  intro id hid
  rcases List.mem_cons.1 hid with h | h
  · exact hx id h.symm
  · exact hxs id h

theorem lowerArms_kept (hl : Lowers lower) {binders : List (List ValueId × Nat)}
    (hx : x.Reached J s) (hb : ∀ p ∈ binders, InsideAll J p.1 s) :
    Kept J (lowerArms lower m x binders) s (BranchesReached J) := by
  induction binders generalizing s x with
  | nil => exact .pure (by simp [BranchesReached])
  | cons p binders ih =>
    refine Kept.bind (lowerArm_kept hl hx (hb p (by simp))) ?_
    rintro ⟨y, x'⟩ s1 g1 ⟨hy, hx'⟩
    refine Kept.bind (ih hx' fun q hq => (hb q (by simp [hq])).grow g1) ?_
    exact fun ys s2 g2 hys => .pure (.cons (fun id h => (hy id h).grow g2) hys)

/-- Branches are brought to one layout. -/
theorem meet_kept (hb : BranchesReached J branches s) :
    Kept J (meet m branches) s fun r s' => InsideAll J r.1 s' := by
  obtain ⟨rep, hrep⟩ := commonRep_run (branches.filterMap fun b => b) m.result
    (fun id hid => by
      obtain ⟨b, hb', rfl⟩ := List.mem_filterMap.1 hid
      exact hb id hb')
  refine .read hrep (Kept.bind (Kept.mapM_inside fun b hb' s' g => ?_) ?_)
  · split
    · exact .inside (toRep_kept ((hb _ hb').grow g))
    · exact .inside (typeErrorValue_kept)
  · exact fun out s1 _ hout => .pure hout

/-- Some branch is left if there was one. -/
theorem meet_ne_nil : Returns (meet m branches) fun r => branches ≠ [] → r.1 ≠ [] :=
  .bind fun _ => .bind_of .mapM_ne_nil fun _ hout => .pure hout

/-- An open case on a value within the bounds of the scope. -/
abbrev CaseInside (J : Nat → Prop) (b : Nat) (o : OpenCase) (s : State) : Prop :=
  CaseOpen (Bounds J s) b o s

theorem CaseInside.grow (h : CaseInside J b o s) (hs : Grows s s') : CaseInside J b o s' :=
  { CaseOpen.grow h hs with scrutinee := Inside.grow h.scrutinee hs }

theorem beginCase_inside {shape : Shape} (hid : Inside J id s) :
    Kept J (beginCase shape id span) s (CaseInside J s.size) :=
  (beginCase_kept hid).mono fun _ _ g h =>
    { h.1 with scrutinee := h.1.scrutinee.widen fun _ hu => hu.grow g }

/-- The variables that a branch binds are within the bounds. -/
theorem bind_inside {branch : Nat} {bs : List Binder} (ho : CaseInside J b o s) (hb : b ≤ s.size) :
    Kept J (o.bind branch bs) s fun r s' => CaseInside J b r.1 s' ∧ InsideAll J r.2 s' := by
  refine (OpenCase.bind_kept ho hb).mono fun r s' g h => ⟨?_, fun id hid => ?_⟩
  · exact { h.1 with scrutinee := h.1.scrutinee.widen fun _ hu => hu.grow g }
  · exact (h.2.1 id hid).within.widen fun _ hu => hu.elim (·.grow g) fun hu => .inr hu.2

/-- Finishing a match makes its case the scope of the variables it binds. -/
theorem finishMatch_sound (hl : Lowers lower) {binders : List (List ValueId)} (hx : x.Reached J s)
    (ho : CaseInside J b o s) (hle : b ≤ s.size) (hJ : ∀ u, J u → u ≤ b)
    (hb : ∀ p ∈ binders, InsideAll J p s) :
    Sound J b (finishMatch lower m x o binders) s (Inside J) := by
  refine Sound.bind hle (lowerArms_kept hl hx fun p hp =>
    hb _ (List.fst_mem_of_mem_zipIdx hp)) fun branches s1 g1 hbr => ?_
  refine Sound.bind (Nat.le_trans hle g1.size_le) (meet_kept hbr) ?_
  rintro ⟨out, rep⟩ s2 g2 hout
  have g := Grows.trans g1 g2
  refine (OpenCase.finish_sound (ho.grow g) (Nat.le_trans hle g.size_le)
    (fun u hu => hu.imp_left (hJ u)) ?_).joined
  intro id hid
  exact (hout id (by simpa using hid)).widen fun _ => .inl

/-- A match on a truth value. -/
theorem matchBool_kept (hl : Lowers lower) (hid : Inside J id s) :
    Kept J (matchBool lower m id) s (Inside J) := by
  refine Kept.bind (m.resolve_kept _) fun x s1 g1 hx => ?_
  refine Kept.bind (toRep_kept (hid.grow g1)).inside fun cond s2 g2 hc => ?_
  refine Kept.bind (lowerArms_kept hl (hx.grow g2) (by simp)) ?_
  intro branches s3 g3 hb
  refine Kept.bind (meet_kept hb) ?_
  rintro ⟨out, rep⟩ s4 g4 hout
  dsimp only at hout ⊢
  split
  · obtain ⟨hno, hyes⟩ := reachedAll_cons.1 hout
    exact .inside (ifThenElse_kept (hc.grow (g3.trans g4)) (reachedAll_cons.1 hyes).1 hno)
  · exact failAt_sound rfl

/-- A match on the unit. -/
theorem matchUnit_kept (hl : Lowers lower) (hid : Inside J id s) :
    Kept J (matchUnit lower m id) s (Inside J) := by
  refine Kept.bind (m.resolve_kept _) fun x s1 g1 hx => ?_
  refine Kept.bind (toRep_kept (hid.grow g1)).inside fun y s2 g2 hy => ?_
  refine .look fun _ fr => .grow .refl (beginCase_inside hy) fun o s3 g3 _ ho => .last ?_
  exact finishMatch_sound hl ((hx.grow g2).grow g3) ho g3.size_le fr.below (by simp)

/-- A case whose first branch binds variables, with a match inside. -/
theorem matchBound_kept (hl : Lowers lower) {shape : Shape} {bs : List Binder}
    (others : List (List ValueId)) (hx : x.Reached J s) (hid : Inside J id s)
    (hothers : ∀ p ∈ others, p = []) :
    Kept J (do
      let opened ← beginCase shape id m.span
      let (opened, ids) ← opened.bind 0 bs
      finishMatch lower m x opened (ids :: others)) s (Inside J) := by
  refine .look fun _ fr => .grow .refl (beginCase_inside hid) fun o s1 g1 _ ho => ?_
  refine .grow g1 (bind_inside ho g1.size_le) ?_
  rintro ⟨o, ids⟩ s2 - g ⟨ho, hids⟩
  refine .last (finishMatch_sound hl (hx.grow g) ho g.size_le fr.below ?_)
  intro p hp
  rcases List.mem_cons.1 hp with rfl | hp
  · exact hids
  · rw [hothers p hp]
    exact reachedAll_nil

/-- A match on a list of the machine. -/
theorem matchBuiltinList_kept (hl : Lowers lower) (hid : Inside J id s) :
    Kept J (matchBuiltinList lower m id t) s (Inside J) := by
  refine Kept.bind (m.resolve_kept _) fun x s1 g1 hx => ?_
  refine Kept.bind (toRep_kept (hid.grow g1)).inside fun list s2 g2 hlist => ?_
  exact matchBound_kept hl [[]] (hx.grow g2) hlist (by simp)

theorem matchList_kept (hl : Lowers lower) (hid : Inside J id s) :
    Kept J (matchList lower m id t) s (Inside J) := by
  refine Kept.bind (m.resolve_kept _) fun x s1 g1 hx => ?_
  have hid1 := hid.grow g1
  obtain ⟨v, hv⟩ := hid1.valid.exists_value
  refine .read decls_run (.read (value_run hv) ?_)
  refine Kept.bind (toRep_kept hid1).inside fun list s2 g2 hlist => ?_
  exact matchBound_kept hl [[]] (hx.grow g2) hlist (by simp)

/-- A match on a pair. -/
theorem matchPair_kept (hl : Lowers lower) {u : Ty} (hid : Inside J id s) :
    Kept J (matchPair lower m id t u) s (Inside J) := by
  refine Kept.bind (m.resolve_kept _) fun x s1 g1 hx => ?_
  refine Kept.bind (toRep_kept (hid.grow g1)).inside fun pair s2 g2 hp => ?_
  exact matchBound_kept hl [] (hx.grow g2) hp (by simp)

/-- The variables for the five kinds of data are bound. -/
theorem bindData_kept (arm : Nat → Option Arm) (ho : CaseInside J b o s) (hb : b ≤ s.size) :
    Kept J (bindData o arm) s fun r s' =>
      CaseInside J b r.1 s' ∧ ∀ ids ∈ r.2, InsideAll J ids s' := by
  refine Kept.bind (bind_inside ho hb) ?_
  rintro ⟨o1, ids1⟩ s1 g1 ⟨ho1, h1⟩
  have le1 := Nat.le_trans hb g1.size_le
  refine Kept.bind (bind_inside ho1 le1) ?_
  rintro ⟨o2, ids2⟩ s2 g2 ⟨ho2, h2⟩
  have le2 := Nat.le_trans le1 g2.size_le
  refine Kept.bind (bind_inside ho2 le2) ?_
  rintro ⟨o3, ids3⟩ s3 g3 ⟨ho3, h3⟩
  have le3 := Nat.le_trans le2 g3.size_le
  refine Kept.bind (bind_inside ho3 le3) ?_
  rintro ⟨o4, ids4⟩ s4 g4 ⟨ho4, h4⟩
  have le4 := Nat.le_trans le3 g4.size_le
  refine Kept.bind (bind_inside ho4 le4) ?_
  rintro ⟨o5, ids5⟩ s5 g5 ⟨ho5, h5⟩
  refine .pure ⟨ho5, ?_⟩
  have g4 := g4.trans g5
  have g3 := g3.trans g4
  have g2 := g2.trans g3
  simp only [List.mem_cons, List.not_mem_nil, or_false, forall_eq_or_imp, forall_eq]
  exact ⟨InsideAll.grow h1 g2, InsideAll.grow h2 g3, InsideAll.grow h3 g4, InsideAll.grow h4 g5, h5⟩

/-- A match on data. -/
theorem matchData_kept (hl : Lowers lower) (hid : Inside J id s) :
    Kept J (matchData lower m id) s (Inside J) := by
  refine Kept.bind (m.resolve_kept _) fun x s1 g1 hx => ?_
  refine Kept.bind (upcast_kept (hid.grow g1)).inside fun y s2 g2 hy => ?_
  refine Kept.bind (toRep_kept hy).inside fun y s3 g3 hy => ?_
  refine .look fun _ fr => .grow .refl (beginCase_inside hy) fun o s4 g4 _ ho => ?_
  refine .grow g4 (bindData_kept _ ho g4.size_le) ?_
  rintro ⟨o, binders⟩ s5 - g ⟨ho, hb⟩
  exact .last (finishMatch_sound hl (hx.grow (g2.trans (g3.trans g))) ho g.size_le fr.below hb)

/-- Reading fields off a list binds variables within its bounds. -/
theorem bindFields_kept (arm : Option Arm) (fields : List (Field × Ty)) (hid : Within K s id) :
    Kept J (bindFields arm span fields i id) s fun r s' =>
      ReachedAll K r.1 s' ∧ FreshAll K s.size r.2 s' := by
  induction fields generalizing s i id with
  | nil => exact .pure ⟨reachedAll_nil, by simp [FreshAll]⟩
  | cons f fields ih =>
    have hfield : ∀ (p : ValueId × List ValueId) s', Grows s s' → Within K s' p.1 →
        FreshAll K s.size p.2 s' → Kept J (do
        let rep ← fieldRep f.2 span
        let head ← builtin .headList f.2 rep span [p.1]
        let x ← newVar (binderName arm i f.1.name) f.2 rep head span
        let rest ← bindFields arm span fields (i + 1) p.1
        return (x :: rest.1, p.2 ++ x :: rest.2)) s' fun r s'' =>
          ReachedAll K r.1 s'' ∧ FreshAll K s.size r.2 s'' := by
      intro p s0 g0 hp hbefore
      refine Kept.bind fieldRep_sound fun rep s1 g1 _ => ?_
      refine Kept.bind (unary_kept (hp.grow g1)) fun head s2 g2 hh => ?_
      refine Kept.bind (newVar_kept hh) fun x s3 g3 hx => ?_
      refine Kept.bind (ih (hp.grow (g1.trans (g2.trans g3)))) ?_
      rintro ⟨xs, owned⟩ s4 g4 ⟨hxs, howned⟩
      have g02 := g0.trans (g1.trans g2)
      refine .pure ⟨reachedAll_cons.2 ⟨hx.within.grow g4, hxs⟩, ?_⟩
      intro y hy
      simp only [List.mem_append, List.mem_cons] at hy
      rcases hy with hy | rfl | hy
      · exact (hbefore.grow (g1.trans (g2.trans (g3.trans g4)))) y hy
      · exact (hx.weaken g02.size_le).grow g4
      · exact (howned y hy).weaken (Nat.le_trans g02.size_le g3.size_le)
    unfold bindFields
    refine .ite (fun _ => ?_) fun _ => ?_
    · exact .read (run_pure _) (hfield (id, []) s .refl hid (by simp [FreshAll]))
    · refine Kept.bind (unary_kept hid) fun tail s1 g1 ht => ?_
      refine Kept.bind (newVar_kept ht) fun rest s2 g2 hr => ?_
      refine .read (run_pure _)
        ((hfield (rest, [rest]) s2 (g1.trans g2) hr.within ?_))
      simpa [FreshAll] using hr.weaken g1.size_le

theorem lowerConstrArms_kept (hl : Lowers lower) {args : List Ty} {fields : Nat}
    (cs : List (Constructor × Nat)) (hx : x.Reached J s) (hf : Inside J fields s) :
    Kept J (lowerConstrArms lower m d args fields x cs) s (BranchesReached J) := by
  induction cs generalizing s x with
  | nil => exact .pure (by simp [BranchesReached])
  | cons c cs ih =>
    unfold lowerConstrArms
    split
    · refine Kept.bind (ih hx hf) fun ys s1 _ hys => ?_
      exact .pure (.cons (by simp) hys)
    · rename_i a _
      refine .look fun _ fr => .grow .refl (bindFields_kept _ _ hf) ?_
      rintro ⟨binders, owned⟩ s1 g1 - ⟨hb, ho⟩
      have hb1 : InsideAll J binders s1 := fun y hy => (hb y hy).widen fun _ hu => hu.grow g1
      refine .grow g1 (lowerArm_kept hl (hx.grow g1) hb1) ?_
      rintro ⟨body, x'⟩ s2 g2 g ⟨hbody, hx'⟩
      refine .last ?_
      have hrest : ∀ (r : Option ValueId) s', s.size ≤ s'.size →
          (∀ {i}, Inside J i s2 → Inside J i s') →
          (∀ id : Nat, r = some id → Inside J id s') → Sound J s.size (do
            return r :: (← lowerConstrArms lower m d args fields x' cs)) s'
            (BranchesReached J) := by
        intro r s' hle keep hr
        have hx'' : x'.Reached J s' := fun id hid => keep (hx' id hid)
        refine (Kept.bind (ih hx'' (keep (hf.grow g))) ?_).weaken hle
        exact fun ys s3 g3 hys => .pure (.cons (fun id h => (hr id h).grow g3) hys)
      dsimp only
      split
      · rename_i id
        refine .ite (fun _ => .read (run_pure _) (hrest _ s2 g.size_le (fun h => h) hbody)) ?_
        intro _
        have hlet : Sound J s.size (some <$> letIn owned none id a.span) s2 fun r s' =>
            (∀ {i}, Inside J i s2 → Inside J i s') ∧ ∀ id : Nat, r = some id → Inside J id s' := by
          rw [map_eq_pure_bind]
          refine Sound.bind (Nat.le_refl _)
            (letIn_sound ((hbody id rfl).widen fun _ => .inl) ?_ ?_ (by simp))
            fun y s3 _ hjoined => .pure ?_
          · exact fun z hz => (ho z hz).toPast.grow g2
          · exact fun u hu => hu.imp_left (fr.below u)
          · obtain ⟨⟨hy, hblank⟩, hold⟩ := hjoined
            have hbounds : ∀ u, Bounds J s2 u → Bounds J s3 u := fun u => Or.imp_right (hblank u)
            refine ⟨fun h => (hold h).widen hbounds, ?_⟩
            rintro _ ⟨⟩
            exact hy.widen hbounds
        exact Sound.bind (Nat.le_refl _) hlet fun r s3 t3 hr =>
          hrest r s3 (Nat.le_trans g.size_le t3.size_le) hr.1 hr.2
      · exact .read (run_pure _) (hrest _ s2 g.size_le (fun h => h) hbody)

theorem lowerConstrArms_ne_nil {args : List Ty} {fields : Nat} {cs : List (Constructor × Nat)} :
    Returns (lowerConstrArms lower m d args fields x cs) fun bs => cs ≠ [] → bs ≠ [] := by
  cases cs with
  | nil => exact fun _ _ _ h => absurd rfl h
  | cons c rest =>
    unfold lowerConstrArms
    split
    · exact .bind fun _ => .pure fun _ => List.cons_ne_nil _ _
    · refine .bind fun _ => .bind fun p => ?_
      dsimp only
      split
      · split <;> exact .bind fun _ => .bind fun _ => .pure fun _ => List.cons_ne_nil _ _
      · exact .bind fun _ => .bind fun _ => .pure fun _ => List.cons_ne_nil _ _

/-- The arm is chosen by the tag. -/
theorem constrArms_kept (hl : Lowers lower) {args : List Ty} {tag fields : Nat}
    (hx : x.Reached J s) (ht : Inside J tag s) (hf : Inside J fields s)
    (hd : s.Orderly → isNative s.target = false → d.constructors ≠ []) :
    Kept J (constrArms lower m x d args tag fields) s (Inside J) := by
  refine Kept.bind ((lowerConstrArms_kept hl _ hx hf).returns lowerConstrArms_ne_nil) ?_
  rintro branches s1 g1 ⟨hsome, hb⟩
  refine Kept.bind ((meet_kept hb).returns meet_ne_nil) ?_
  rintro ⟨out, rep⟩ s2 g2 ⟨hsome', hout⟩
  have g := Grows.trans g1 g2
  refine .inside (switchInteger_kept (ht.grow g) hout fun ho hv => hsome' (hsome ?_))
  rw [g.evolves.target] at hv
  simpa [List.zipIdx_eq_nil_iff] using hd (g.orderly ho) hv

/-- A match on a type with constructors. -/
theorem matchConstr_kept (hl : Lowers lower) (hid : Inside J id s)
    (htype : t.declName ≠ Ty.listName) : Kept J (matchConstr lower m id t) s (Inside J) := by
  refine .read decls_run ?_
  split
  · exact fail_sound rfl
  · rename_i d hd
    have hname : d.name = t.declName := by simpa using List.find?_some hd
    have hsome : ∀ {s'}, Grows s s' → s'.Orderly → isNative s'.target = false →
        d.constructors ≠ [] := by
      intro s' g ho hv
      rw [g.evolves.target] at hv
      exact Decl.ne_nil_of_orderly ((g.orderly ho).of_find hd) (hname ▸ htype) hv
    refine Kept.bind (m.resolve_kept _) fun x s1 g1 hx => ?_
    refine Kept.bind (toRep_kept (hid.grow g1)).inside fun y s2 g2 hy => ?_
    refine .target (fun v hv => by simp only [hv]) (.ite (fun _ => ?_) fun _ => ?_)
    · refine .look fun _ fr => .grow .refl (beginCase_inside hy) fun o s3 g3 _ ho => ?_
      refine .grow g3 (bindData_kept _ ho g3.size_le) ?_
      rintro ⟨o, binders⟩ s4 - g ⟨ho, hb⟩
      dsimp only at ho hb ⊢
      split
      · rename_i tag fields rest
        obtain ⟨ht, hf⟩ : Inside J tag s4 ∧ Inside J fields s4 := by
          simpa using hb [tag, fields] (by simp)
        refine .grow g (constrArms_kept hl (hx.grow (g2.trans g)) ht hf
          (hsome (g1.trans (g2.trans g)))) ?_
        intro inner s5 g5 h5 hin
        refine .value hin fun v hv => .last (OpenCase.finish_sound (CaseInside.grow ho g5)
          h5.size_le (fun u hu => hu.imp_left (fr.below u)) ?_).joined
        intro z hz
        obtain rfl : z = inner := by simpa using hz
        exact hin.widen fun _ => .inl
      · exact failAt_sound rfl
    · refine .look fun _ fr => .grow .refl (unary_kept hy).inside fun taken s3 g3 _ hta => ?_
      refine .grow g3 (newVar_inside hta) fun whole s4 g4 h4 hw => ?_
      refine .grow h4 (unary_kept hw.within).inside fun fst s5 g5 h5 hfst => ?_
      refine .grow h5 (newVar_inside hfst) fun tag s6 g6 h6 ht => ?_
      have hw6 := hw.grow (Grows.trans g5 g6)
      refine .grow h6 (unary_kept hw6.within).inside fun snd s7 g7 h7 hsnd => ?_
      refine .grow h7 (newVar_inside hsnd) fun fields s8 g8 h8 hf => ?_
      have ht8 := ht.grow (Grows.trans g7 g8)
      refine .grow h8 (constrArms_kept hl (hx.grow (g2.trans h8)) ht8.within hf.within
        (hsome (g1.trans (g2.trans h8)))) ?_
      intro inner s9 g9 h9 hin
      refine .last ((letIn_sound (hin.widen fun _ => .inl) ?_
        (fun u hu => hu.imp_left (fr.below u)) (by simp)).mono fun _ _ _ h => h.1).joined
      have hw9 := (hw6.grow (Grows.trans g7 g8)).grow g9
      intro z hz
      simp only [List.mem_cons, List.not_mem_nil, or_false] at hz
      rcases hz with rfl | rfl | rfl
      · exact (hw9.weaken g3.size_le).toPast
      · exact ((ht8.weaken h5.size_le).grow g9).toPast
      · exact ((hf.weaken h7.size_le).grow g9).toPast

theorem lowerMatch_kept (hl : Lowers lower) :
    Kept J (lowerMatch lower type span es arms) s (Inside J) := by
  refine Kept.bind checkOperands_kept fun _ s1 _ _ => ?_
  refine .ite (fun _ => failAt_bind rfl) fun _ => ?_
  split
  · rename_i e
    refine Kept.bind joinArms_kept fun result s2 _ _ => ?_
    refine Kept.bind hl fun x s3 _ hx => ?_
    refine .value hx fun v hv => .family ?_
    extract_lets t
    clear_value t
    split
    · exact matchBool_kept hl hx
    · exact matchUnit_kept hl hx
    · exact matchData_kept hl hx
    · exact matchBuiltinList_kept hl hx
    · exact matchPair_kept hl hx
    · refine .ite (fun _ => matchList_kept hl hx) fun hlist => matchConstr_kept hl hx ?_
      simpa [Ty.isList, Ty.declName] using hlist
    · refine .ite (fun _ => matchList_kept hl hx) fun hlist => matchConstr_kept hl hx ?_
      simpa [Ty.isList, Ty.declName] using hlist
    · exact fail_sound rfl
  · exact failAt_sound rfl

/-! ## Expressions -/

/-- An expression is lowered by changes only if its parts are. -/
theorem lowerStep_lowers (hl : Lowers lower) : Lowers (lowerStep lower) := by
  intro J s e
  unfold lowerStep
  split
  · exact failAt_sound rfl
  · exact failAt_sound rfl
  · rename_i type span form _
    refine Kept.bind point_sound fun _ s1 _ _ => ?_
    cases form with
    | var x =>
      refine .look fun hi1 fr1 => .lookupName ?_
      split
      · rename_i id hid
        exact .pure ((fr1.within_of_lookup hi1 hid).widen fun _ => .inl)
      · exact fail_sound rfl
    | const c =>
      cases c with
      | some c => exact .inside (constValue_kept)
      | none => exact failAt_sound rfl
    | letIn isRec bs body =>
      cases isRec
      · exact lowerLet_kept hl
      · exact lowerLetRec_kept hl
    | lam x t body => exact lowerLam_kept hl
    | apply f a => exact lowerApply_kept hl
    | select field es => exact lowerSelect_kept hl
    | operator op es => exact lowerOperator_kept hl
    | builtin f => exact .inside (builtinRef_kept)
    | error message => exact .inside (errorValue_kept)
    | constr decl name es => exact lowerConstr_kept hl
    | matchOn es arms => exact lowerMatch_kept hl
    | unknown kind => exact failAt_sound rfl

/-- Every expression is lowered within the bounds, whatever the fuel. -/
theorem lowerExprIn_lowers (fuel : Nat) : Lowers (lowerExprIn fuel) := by
  induction fuel with
  | zero => exact failAt_sound rfl
  | succ fuel ih => exact lowerStep_lowers ih

/-- **Lowering an expression keeps the invariant.** -/
theorem lowerExpr_kept (e : Expr) : Kept J (lowerExpr e) s (Inside J) :=
  lowerExprIn_lowers _

/-! ## The root of a unit -/

/-- A variable with a definition. -/
def Defined (s : State) (id : Nat) : Prop := ∃ n, s.node? id = some n ∧ n.rhs?.isSome = true

/-- A look at a value changes nothing. -/
theorem value_sound : Sound J l (value id) s fun v s' => s' = s ∧ s.value? id = some v := by
  rw [value]
  refine .get (fun _ _ => rfl) ?_
  split
  · rename_i v hv
    exact .pure ⟨rfl, hv⟩
  · exact failAt_sound rfl

/-- A value that passes the check is defined. -/
theorem checkDefined_sound : Sound J l (checkDefined id) s fun _ s' => s' = s ∧ Defined s id := by
  refine Sound.bind (Nat.le_refl _) value_sound ?_
  rintro v _ _ ⟨rfl, hv⟩
  refine .ite (fun _ => fail_sound rfl) fun h => .pure ⟨rfl, v.node, node?_of_value hv, ?_⟩
  simpa [Option.isSome_iff_ne_none] using h

theorem checkDefined_all_sound :
    Sound J l (ids.forM checkDefined) s fun _ s' => s' = s ∧ ∀ id ∈ ids, Defined s id := by
  induction ids with
  | nil => exact .pure ⟨rfl, by simp⟩
  | cons id ids ih =>
    refine Sound.bind (f := fun _ => ids.forM checkDefined) (Nat.le_refl _)
      checkDefined_sound ?_
    rintro _ _ _ ⟨rfl, hid⟩
    refine ih.mono fun _ s' _ h => ⟨h.1, ?_⟩
    simpa using ⟨hid, h.2⟩

/-- Reporting a failure has no bearing on the graph. -/
theorem reporting_sound {m : LowerM α} {P : α → State → Prop} (hm : Sound J l m s P) :
    Sound J l (reporting m) s P := by
  intro hi hfr
  obtain ⟨⟨ht, hr⟩, hsame⟩ := hm hi hfr
  refine ⟨?_, hsame.reporting⟩
  rcases hrun : m.run s with ⟨f | a, s'⟩ <;> rw [hrun] at ht hr
  · have hq : (s'.report f).quiet = s'.quiet := by
      rw [State.report]
      split <;> rfl
    rw [run_reporting_of_error hrun]
    exact ⟨ht.trans (.one (.quiet hq)), by simp⟩
  · rw [reporting, run_tryCatch, hrun]
    exact ⟨ht, hr⟩

/-- **Building keeps the invariant**, and the value of the root needs no
variable that is without a definition. -/
theorem build_kept (e : Expr) :
    Kept J (build e) s fun id s' =>
      Valid s' id ∧ ∀ x ∈ (s'.usedOf id).ids, Defined s' x := by
  refine reporting_sound (Kept.bind (lowerExpr_kept e) fun x s1 _ hx => ?_)
  refine Kept.bind (upcast_kept hx) fun x s2 _ hx => ?_
  refine .standardRep (Kept.bind (toRep_kept hx) fun x s3 _ hx => ?_)
  refine .get (fun _ _ => rfl) (Kept.bind checkDefined_all_sound ?_)
  rintro _ _ _ ⟨rfl, h⟩
  exact .pure ⟨hx.valid, h⟩

/-- A new lowering has the invariant. -/
theorem Inv.new (target : Version) (decls : Decls) (debug : Bool) :
    Inv (State.new target decls debug) := by
  have hnode : ∀ i : Nat, (State.new target decls debug).node? i = none := by
    intro i
    cases i <;> rfl
  have hclosed : ∀ f F, ¬Closed (State.new target decls debug) f F := by
    rintro f F ⟨-, n, hn, -⟩
    simp [hnode] at hn
  exact {
    toLexical := .new target decls debug
    scope_ne := by simp [State.new]
    scope := by simp [State.new]
    views := by simp [State.new]
    helpers := by simp [State.new]
    subs := by simp [hnode]
    owned := by simp [hnode]
    owner := by simp [hnode]
    binds := by simp [hnode]
    rhs := by simp [hnode]
    origin := by simp [hnode]
    strict := by simp [hnode]
    nested := by simp [hclosed] }

end CoreLowering.Graph
