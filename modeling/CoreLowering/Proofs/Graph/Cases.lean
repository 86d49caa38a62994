import CoreLowering.Proofs.Graph.Primitive

/-!
# Cases and helpers keep the invariant

A case that is open has bound variables that have no scope yet; finishing it
makes it their scope.  A helper function is closed off once it has been
built.
-/

namespace CoreLowering.Graph

variable {β : Type} {s s' s'' : State} {id b l : Nat} {x : Nat} {span : Span}
  {bs : List Binder} {o : OpenCase} {type : Ty} {rep : Rep} {ids : List ValueId} {tag : Nat}
  {J L K K' : Nat → Prop}

/-! ## Cases -/

theorem Claimable.trace (h : Claimable b x s) (hs : Trace l s s') (hl : x ≤ l) : Claimable b x s' :=
  ⟨h.1.trace hs hl, hs.unclaimed h.2.1 hl, h.2.2.imp fun _ hx => hs.node? hx hl⟩

theorem Claimable.grow (h : Claimable b x s) (hs : Grows s s') : Claimable b x s' :=
  h.trace hs h.1.valid.2

theorem Blank.grow (h : Blank s id) (hs : Grows s s') : Blank s' id :=
  h.imp fun _ hx => hs.node? hx (valid_of_node? hx).2

theorem Past.grow (h : Past b x s) (hs : Grows s s') : Past b x s' := h.trace hs h.valid.2

theorem Fresh.claimable (h : Fresh K b id s) (hb : Blank s id) : Claimable b id s :=
  ⟨h.toPast, h.unclaimed, hb⟩

theorem Fresh.weaken {b' : Nat} (h : Fresh K b id s) (hb : b' ≤ b) : Fresh K b' id s :=
  { h with toPast := h.toPast.weaken hb }

theorem Fresh.widen (h : Fresh K b id s) (hK : ∀ u, K u → K' u) : Fresh K' b id s :=
  { h with within := h.within.widen hK }

theorem Fresh.grow (h : Fresh K b id s) (hs : Grows s s') : Fresh K b id s' := by
  obtain ⟨n, hn, hp⟩ := h.plain
  exact ⟨h.toPast.grow hs, h.within.grow hs, hs.unclaimed h.unclaimed h.within.valid.2, n,
    hs.node? hn h.within.valid.2, hp⟩

/-- An open case whose variables are past `b`; those of a native case get
their values from no node yet. -/
structure CaseOpen (K : Nat → Prop) (b : Nat) (o : OpenCase) (s : State) : Prop where
  scrutinee : Within K s o.scrutinee
  owned : ∀ x : Nat, x ∈ o.owned → Past b x s
  binders : ∀ x : Nat, x ∈ o.binders.flatten → Past b x s
  native : o.native = true → ∀ x : Nat, x ∈ o.binders.flatten → Claimable b x s

theorem CaseOpen.grow (h : CaseOpen K b o s) (hs : Grows s s') : CaseOpen K b o s' :=
  ⟨h.scrutinee.grow hs, fun x hx => (h.owned x hx).grow hs,
    fun x hx => (h.binders x hx).grow hs, fun hn x hx => (h.native hn x hx).grow hs⟩

theorem beginCase_kept {shape : Shape} {scrutinee : Nat} (hs : Within K s scrutinee) :
    Kept J (beginCase shape scrutinee span) s fun o s' =>
      CaseOpen K s.size o s' ∧ o.binders = .replicate shape.branches [] := by
  have hnote : ∀ (o : OpenCase) s' (name : String),
      CaseOpen K s.size o s' ∧ o.binders = .replicate shape.branches [] →
      Kept J (do point "case" name; pure o) s' fun o s' =>
        CaseOpen K s.size o s' ∧ o.binders = .replicate shape.branches [] :=
    fun o s' name ho => Kept.bind point_sound fun _ _ g _ => .pure ⟨ho.1.grow g, ho.2⟩
  refine .target (fun v hv => by simp only [hv]) (.ite (fun _ => ?_) fun _ => ?_)
  · exact .read (run_pure _) (hnote _ _ _ ⟨⟨hs, by simp, by simp, by simp⟩, rfl⟩)
  · refine .value hs fun v hv => .ite (fun _ => ?_) fun _ => ?_
    · exact .read (run_pure _) (hnote _ _ _ ⟨⟨hs, by simp, by simp, by simp⟩, rfl⟩)
    · refine Kept.bind (newVar_kept hs) fun x s1 _ hx => ?_
      exact .read (run_pure _)
        (hnote _ _ _ ⟨⟨hx.within, by simpa using hx.toPast, by simp, by simp⟩, rfl⟩)

/-- All are variables past `b` that have just been made. -/
def FreshAll (K : Nat → Prop) (b : Nat) (ids : List ValueId) (s : State) : Prop :=
  ∀ id ∈ ids, Fresh K b id s

theorem FreshAll.grow (h : FreshAll K b ids s) (hs : Grows s s') : FreshAll K b ids s' :=
  fun id hid => (h id hid).grow hs

theorem FreshAll.widen (h : FreshAll K b ids s) (hK : ∀ u, K u → K' u) : FreshAll K' b ids s :=
  fun id hid => (h id hid).widen hK

theorem bindNative_kept :
    Kept J (bindNative span bs) s fun ids s' =>
      ∀ id ∈ ids, Fresh (· = id) s.size id s' ∧ Blank s' id :=
  Kept.mapM_all (P := fun id s' => Fresh (· = id) s.size id s' ∧ Blank s' id) (fun _ _ _ g =>
    newBinder_kept.mono fun _ _ _ h =>
      ⟨h.1.weaken g.size_le, h.2.2⟩)
    fun _ _ _ g h => ⟨h.1.grow g, h.2.grow g⟩

theorem bindExtracted_kept {branch : Nat} {source : Nat} (hs : Within K s source) :
    Kept J (bindExtracted o branch source bs) s (FreshAll K s.size) := by
  refine Kept.mapM_all (fun x _ s' g => ?_) fun _ _ _ g h => h.grow g
  dsimp only
  split
  · rename_i f _
    refine Kept.bind (unary_kept (hs.grow g)) fun rhs s1 g1 hr => ?_
    refine (newVar_kept hr).mono fun _ _ _ h => h.weaken ?_
    exact Nat.le_trans g.size_le g1.size_le
  · exact failAt_sound rfl

theorem CaseOpen.set (branch : Nat) (h : CaseOpen K b o s) (hids : FreshAll K' b ids s)
    (hblank : o.native = true → ∀ id ∈ ids, Blank s id) :
    CaseOpen K b { o with binders := o.binders.set branch ids } s := by
  have hmem : ∀ x, x ∈ (o.binders.set branch ids).flatten → x ∈ o.binders.flatten ∨ x ∈ ids := by
    intro x hx
    obtain ⟨xs, hxs, hxs'⟩ := List.mem_flatten.1 hx
    rcases List.mem_or_eq_of_mem_set hxs with hxs | rfl
    · exact .inl (List.mem_flatten.2 ⟨xs, hxs, hxs'⟩)
    · exact .inr hxs'
  refine ⟨h.scrutinee, h.owned, fun x hx => ?_, fun hn x hx => ?_⟩
  · exact (hmem x hx).elim (h.binders x) fun hx => (hids x hx).toPast
  · exact (hmem x hx).elim (h.native hn x) fun hx => (hids x hx).claimable (hblank hn x hx)

/-- Binding variables leaves a case open, with the variables in reach. -/
theorem OpenCase.bind_kept {branch : Nat} (ho : CaseOpen K b o s) (hb : b ≤ s.size) :
    Kept J (o.bind branch bs) s fun r s' => CaseOpen K b r.1 s' ∧
      FreshAll (fun u => K u ∨ u ∈ r.2 ∧ Blank s' u) s.size r.2 s' ∧
        r.1.binders = o.binders.set branch r.2 := by
  have weaken : ∀ {K ids s'}, FreshAll K s.size ids s' → FreshAll K b ids s' :=
    fun h id hid => (h id hid).weaken hb
  refine .ite (fun _ => ?_) fun hn => .ite (fun _ => ?_) fun _ => ?_
  · refine Kept.bind bindNative_kept fun ids s1 g1 hids => ?_
    have hfresh : FreshAll (fun u => K u ∨ u ∈ ids ∧ Blank s1 u) s.size ids s1 :=
      fun id hid => (hids id hid).1.widen fun _ hu => .inr (hu ▸ ⟨hid, (hids id hid).2⟩)
    exact .pure ⟨(ho.grow g1).set branch (weaken hfresh) fun _ id hid => (hids id hid).2, hfresh,
      rfl⟩
  · refine Kept.bind (unary_kept (ho.scrutinee)) fun taken s1 g1 ht => ?_
    refine Kept.bind (newVar_kept ht) ?_
    intro source s2 g2 hsource
    refine Kept.bind (bindExtracted_kept hsource.within) ?_
    intro ids s3 g3 hids
    have hle : s.size ≤ s2.size := Nat.le_trans g1.size_le g2.size_le
    have hids' : FreshAll K s.size ids s3 := fun id hid => (hids id hid).weaken hle
    have ho3 := ho.grow (g1.trans (g2.trans g3))
    refine .pure ⟨CaseOpen.set (o := { o with owned := o.owned ++ [source] }) branch
      ⟨ho3.scrutinee, ?_, ho3.binders, ho3.native⟩ (weaken hids') (absurd · hn),
      hids'.widen fun _ => .inl, rfl⟩
    intro x hx
    rcases List.mem_append.1 hx with hx | hx
    · exact ho3.owned x hx
    · obtain rfl := List.mem_singleton.1 hx
      exact ((hsource.weaken (Nat.le_trans hb g1.size_le)).grow g3).toPast
  · refine Kept.bind (bindExtracted_kept ho.scrutinee) ?_
    intro ids s1 g1 hids
    exact .pure ⟨(ho.grow g1).set branch (weaken hids) (absurd · hn), hids.widen fun _ => .inl, rfl⟩

theorem fillBranches_kept {branches : List (Option ValueId)}
    (hb : ∀ id : Nat, some id ∈ branches → Within K s id) :
    Kept J (fillBranches type span branches) s (ReachedAll K) := by
  refine Kept.mapM_reached fun x hx s' g => ?_
  cases x with
  | some id => exact .pure ((hb id hx).grow g)
  | none => exact typeErrorValue_kept

/-- Finishing a case makes it the scope of its variables. -/
theorem OpenCase.finish_sound {branches : List (Option ValueId)} (ho : CaseOpen K b o s)
    (hb : b ≤ s.size) (hK : ∀ u, K u → u ≤ b ∨ Blank s u)
    (hbr : ∀ id : Nat, some id ∈ branches → Within (fun u => K u ∨ u ∈ o.binders.flatten) s id) :
    Sound J b (o.finish branches type rep) s (Joined K s) := by
  refine Sound.bind hb (fillBranches_kept hbr) ?_
  intro ids s1 g1 hids
  have ho1 := ho.grow g1
  have hjoin : ∀ {id s'} (h : Joined K s1 id s'), Joined K s id s' := fun h =>
    ⟨h.1, fun u hu => h.2 u (hu.grow g1)⟩
  have hK1 : ∀ u, K u → u ≤ b ∨ Blank s1 u := fun u hu => (hK u hu).imp_right (·.grow g1)
  have hsubs : ∀ shape native owned binders (j : ValueId),
      (∀ u ∈ o.binders.flatten, u ∈ owned ++ List.flatten binders) →
      j ∈ (Node.caseOf shape native o.scrutinee ids owned binders).subs →
      Within (fun u => K u ∨ u ∈ owned ++ binders.flatten) s1 j := by
    intro shape native owned binders j hmem hj
    simp only [Node.subs, List.mem_cons] at hj
    rcases hj with rfl | hj
    · exact ho1.scrutinee.widen fun _ => .inl
    · exact (hids j hj).widen fun u hu => hu.imp_right (hmem u)
  refine .ite (fun hn => ?_) fun _ => ?_
  · refine (newNode_sound rfl (fun j => hsubs _ _ _ _ j ?_) ?_ (fun _ => hK1) trivial).mono
      fun _ _ _ h => hjoin (h.1.joined h.2)
    · exact fun u => List.mem_append_right _
    · intro x hx
      simp only [Node.scopeOf, List.mem_append] at hx
      exact ⟨hx.elim (ho1.owned x) (ho1.binders x), fun hb => (ho1.native hn x hb).2⟩
  · refine (newNode_sound rfl (fun j => hsubs _ _ _ _ j ?_) ?_ (fun _ => hK1) trivial).mono
      fun _ _ _ h => hjoin (h.1.joined h.2)
    · exact fun u hu => List.mem_append_left _ (List.mem_append_right _ hu)
    · intro x hx
      simp only [Node.scopeOf, List.flatten_nil, List.append_nil, List.mem_append] at hx
      exact ⟨hx.elim (ho1.owned x) (ho1.binders x), by simp [Node.binds]⟩

/-- What a value uses is there. -/
theorem Within.bounded (h : Within K s id) (hi : Inv s) : Within (fun u => K u ∧ u ≤ s.size) s id :=
  ⟨h.valid, fun x hx u hu => (h.uses x hx u hu).imp_right (·.imp_right (⟨·, (hi.there x u hu).2⟩))⟩

theorem ifThenElse_kept {cond yes no : Nat} (hc : Within K s cond) (hy : Within K s yes)
    (hn : Within K s no) : Kept J (ifThenElse cond yes no type rep span) s (Reached K) := by
  refine .look fun hi _ => .grow .refl (beginCase_kept (hc.bounded hi)) fun o s1 g1 _ ho => .last ?_
  refine (OpenCase.finish_sound ho.1 g1.size_le (fun _ hu => .inl hu.2) ?_).mono fun _ _ _ h =>
    h.1.widen fun _ => And.left
  intro id hid
  simp only [List.mem_cons, Option.some.injEq, List.not_mem_nil, or_false] at hid
  rcases hid with rfl | rfl
  · exact ((hn.bounded hi).grow g1).widen fun _ => .inl
  · exact ((hy.bounded hi).grow g1).widen fun _ => .inl

theorem switchChain_kept {rest : List (ValueId × Nat)} {out : Nat} (ht : Within K s tag)
    (hr : ∀ p ∈ rest, Within K s p.1) (ho : Within K s out) :
    Kept J (switchChain tag type rep span rest out) s (Reached K) := by
  induction rest generalizing s out with
  | nil => exact .pure ho
  | cons p rest ih =>
    refine Kept.bind (integerValue_kept (K := K)) fun k s1 g1 hk => ?_
    refine Kept.bind (builtin_kept (K := K) ?_) fun cond s2 g2 hc => ?_
    · simpa using ⟨ht.grow g1, hk⟩
    have g := g1.trans g2
    refine Kept.bind (ifThenElse_kept hc
      ((hr p (by simp)).grow g) (ho.grow g)) fun out' s3 g3 ho' => ?_
    have g' := g.trans g3
    exact ih (ht.grow g') (fun q hq => (hr q (by simp [hq])).grow g') ho'

/-- A switch by tests needs a branch to end on. -/
theorem switchInteger_kept {branches : List ValueId} (ht : Within K s tag)
    (hb : ReachedAll K branches s) (hne : s.Orderly → isNative s.target = false → branches ≠ []) :
    Kept J (switchInteger tag branches type rep span) s (Reached K) := by
  unfold switchInteger
  split
  · exact .pure (hb _ (by simp))
  · refine .target (fun v hv => by simp only [hv]) (.ite (fun _ => ?_) fun hv => ?_)
    · refine .look fun hi _ => Sound.bind (Nat.le_refl _)
        (beginCase_kept (ht.bounded hi)) ?_
      rintro o s1 g1 ⟨ho, -⟩
      refine (OpenCase.finish_sound (o := { o with binders := branches.map fun _ => [] })
        ⟨ho.scrutinee, ho.owned, by simp, by simp⟩ g1.size_le (fun _ hu => .inl hu.2) ?_).mono
        fun _ _ _ h => h.1.widen fun _ => And.left
      intro id hid
      exact (((hb id (by simpa using hid)).bounded hi).grow g1).widen fun _ => .inl
    · refine Kept.bind (letVar_kept ht) fun tag' s1 g1 ht' => ?_
      have hmem : ∀ p ∈ branches.zipIdx.reverse, Within K s1 p.1 := fun p hp =>
        (hb p.1 (List.fst_mem_of_mem_zipIdx (List.mem_reverse.1 hp))).grow g1
      split
      · rename_i heq
        rw [heq] at hmem
        exact switchChain_kept ht' (fun p hp => hmem p (by simp [hp]))
          (hmem _ (List.mem_cons_self ..))
      · next hnone =>
          refine fail_sound_of fun ho => absurd ?_ (hne (g1.orderly ho) (Bool.eq_false_iff.2 hv))
          rwa [List.reverse_eq_nil_iff, List.zipIdx_eq_nil_iff] at hnone

/-! ## Helper functions -/

theorem pairToFields_kept {p : Nat} (hp : Within K s p) :
    Kept J (pairToFields p span) s (Reached K) := by
  refine Kept.bind (unary_kept hp) fun fst s1 g1 hf => ?_
  refine Kept.bind (builtin_kept (K := K) ?_) fun snd s2 g2 hs => ?_
  · simpa using hp.grow g1
  refine Kept.bind (constValue_kept (K := K)) fun nil s3 g3 hn => ?_
  refine Kept.bind (builtin_kept (K := K) ?_) fun tail s4 g4 ht => ?_
  · simpa using ⟨Within.grow hs g3, hn⟩
  refine builtin_kept ?_
  simpa using ⟨Within.grow hf (g2.trans (g3.trans g4)), ht⟩

theorem fieldsToPair_kept {fields : Nat} (hf : Within K s fields) :
    Kept J (fieldsToPair fields type rep span) s (Reached K) := by
  refine Kept.bind (unary_kept hf) fun fst s1 g1 h1 => ?_
  refine Kept.bind (builtin_kept (K := K) ?_) fun rest s2 g2 h2 => ?_
  · simpa using hf.grow g1
  refine Kept.bind (builtin_kept (K := K) ?_) fun snd s3 g3 h3 => ?_
  · simpa using h2
  refine builtin_kept ?_
  simpa using ⟨Within.grow h1 (g2.trans g3), h3⟩

/-- What is known of a variable that has just been closed off: it is past `b`, and
is within bounds with itself. -/
structure ClosedOff (K : Nat → Prop) (b : Nat) (x : Nat) (s : State) : Prop extends
    Past b x s where
  defined : DefinedVar s x
  closed : Closed s x s.size
  only : UsesOnly (fun u => K u ∨ u = x) s x

theorem ClosedOff.within (h : ClosedOff K b x s) : Within (fun u => K u ∨ u = x) s x := by
  obtain ⟨n, hn, hp, -⟩ := h.defined
  refine .of_only hn ?_ ?_ h.only
  · rintro y rfl
    cases hp
  · rintro name y r rfl
    cases hp

/-- A variable is defined by the recursive function that has just been built
and uses it, where the names in scope are older, or stand for the variable or
for helpers.  From then on the variable stands for what the function uses. -/
theorem SoundFrom.close {frames : List (List (String × ValueId))} {b s₁ : State} {self rec : Nat}
    {x : String} {k : LowerM β} {R : β → State → Prop} (hib : Inv b)
    (h₁ : Grows b s₁) (hself : Fresh (· = self) b.size self s₁) (hsize : s₁.size = self)
    (hx : s₁.node? self = some (.var x none)) (ht : Grows s₁ s)
    (hr : Within (fun u => K u ∨ u = self) s rec) (hK : ∀ u, K u → u ≤ b.size ∨ Blank s u)
    (hJ : ∀ u, J u → L u) (hbelow : ∀ u, L u → u ≤ s.size)
    (hframes : ∀ p ∈ frames.flatten, p.2 = self ∧ ∀ u, K u ∨ u = self → L u)
    (hk : ∀ s', Grows b s' → ClosedOff K b.size self s' →
      (∀ u, Blank s u → u = self ∨ Blank s' u) → SoundFrom L b frames b.size k s' R) :
    SoundFrom J b frames b.size (do
      let F ← fix self rec span
      setRhs self F
      k) s R := by
  have hb := h₁.trans ht
  have hx' := ht.node? hx hself.valid.2
  refine .bind (Nat.le_refl _) (fix_sound hr ((hself.grow ht).claimable ⟨x, hx'⟩) hK) ?_
  rintro F s' t' ⟨⟨_, _, hfix⟩, hF⟩
  have hnode : s'.node? F = some (.fix self rec) := by
    obtain ⟨v, hv, hnode, -⟩ := hfix.value
    exact hnode ▸ node?_of_value hv
  have hlt : self < F := hfix.eq ▸ Nat.lt_succ_of_le (hsize ▸ ht.size_le)
  obtain ⟨r, hr'⟩ := (valid_of_node? hnode).exists_value
  have hx' := hfix.old _ _ hx'
  obtain ⟨v, hv, hnode'⟩ := value_of_node? hx'
  obtain ⟨s'', hrun, -⟩ := setRhs_run hv (by rw [hnode']; rfl) hr' (Nat.ne_of_gt hlt)
  have hdef := setRhs_defines hx' rfl hr' (Nat.ne_of_gt hlt)
  have hpast : Past b.size self s' := hfix.past (hself.grow ht).toPast
  intro hi' fr
  have hch : Change b.size s' ((setRhs self F).run s').2 :=
    .close hself.lt hlt hfix.size.symm hpast.around hx' rfl rfl hnode
  rw [hrun] at hdef hch
  have t'' : Trace b.size s' s'' := .one hch
  have hnode'' : s''.node? self = some (.var x (some F)) := by
    rw [hdef.node?, if_pos rfl, hx', Option.map_some]
    rfl
  have hused := hdef.usedOf (valid_of_node? hx')
  have hclosed : ClosedOff K b.size self s'' := by
    refine ⟨⟨hself.lt, hch.evolves.valid hpast.valid, ?_, ?_⟩, ⟨_, hnode'', rfl, rfl⟩,
      ⟨hdef.size ▸ hfix.size ▸ hlt, _, hnode'', ?_⟩, fun u hu => ?_⟩
    · intro f G hG hf
      rcases hdef.closed hG with hG | ⟨rfl, -⟩
      · exact hpast.around f G hG hf
      · exact absurd hf (Nat.lt_irrefl _)
    · exact fun ⟨key, hm⟩ => hpast.not_helper ⟨key, hdef.helpers ▸ hm⟩
    · rw [hdef.size, hfix.size]
      rfl
    · rw [hused, if_pos rfl, VarSet.mem_union, ← usedOf_of_value hr'] at hu
      rcases hu with hu | hu
      · exact .inr (.inr (.inr (List.mem_singleton.1 hu)))
      · exact (hF.only u hu).imp (·.mono hch.evolves) (·.imp (·.mono hch.remembers) .inl)
  -- outside, names stand for what uses the same as before
  have houter : ∀ {s₂}, Trace b.size s' s₂ → ∀ p ∈ b.scope.flatten, Within J s₂ p.2 := by
    intro s₂ t p hp
    have hle := (hib.scope p hp).2
    exact (fr.outer p hp).trace t fun y hy => t.usedOf
      (Nat.le_trans hy (fr.outer p hp).valid.2) (.inl (Nat.le_trans hy hle))
  have fr'' : Framed L frames b s'' := by
    obtain ⟨extra, he, hs⟩ := fr.scope
    refine ⟨fr.base, ⟨extra, fun p hp => (he p hp).mono t''.remembers, hdef.scope.trans hs⟩,
      fun p hp => ?_, fun p hp => (houter t'' p hp).widen hJ,
      fun u hu => Nat.le_trans (hbelow u hu) (Nat.le_trans t'.size_le t''.size_le)⟩
    rw [(hframes p hp).1]
    exact hclosed.within.widen (hframes p hp).2
  have hblank : ∀ u, Blank s u → u = self ∨ Blank s'' u := by
    refine fun u ⟨y, hy⟩ => or_iff_not_imp_left.2 fun hne => ⟨y, ?_⟩
    rw [hdef.node?, if_neg hne, hfix.old _ _ hy]
  obtain ⟨⟨ht'', hr''⟩, hsame⟩ :=
    hk s'' ((Trace.trans hb t').trans t'') hclosed hblank (t''.inv hi') fr''
  refine ⟨?_, (SteadyAt.of_steady setRhs_steady).bind fun _ t hrun' => ?_⟩
  · rw [run_bind_of_ok hrun]
    refine ⟨t''.trans ht'', fun a ha => ⟨?_, (hr'' a ha).2⟩⟩
    have hend := (hr'' a ha).1
    exact ⟨hend.base, hend.scope, by simp, houter (t''.trans ht''),
      fun u hu => Nat.le_trans (fr.below u hu) (t''.trans ht'').size_le⟩
  · rw [hrun] at hrun'
    cases hrun'
    exact hsame

/-- A helper that goes through a list, and is closed off. -/
theorem mapListHelper_kept {name : String} {input output : Ty} {item : Binder}
    {head : ValueId → LowerM ValueId} {empty : Constant}
    (hh : ∀ {K h s'}, Within K s' h → Kept J (head h) s' (Reached K)) :
    Kept J (mapListHelper name type input output item head empty) s
      (ClosedOff (fun _ => False) s.size) := by
  refine .look fun hi _ => .grow .refl newBinder_kept ?_
  rintro self s1 g1 - ⟨hself, hsize, x, hx⟩
  refine .grow g1 newBinder_kept ?_
  rintro list s2 g2 h2 ⟨hlist, -, hlistb⟩
  let K2 : Nat → Prop := fun u => u = self ∨ u = list
  refine .grow h2 (beginCase_kept (K := K2) (hlist.within.widen fun _ => .inr)) ?_
  rintro o s3 g3 h3 ⟨ho, hbinders⟩
  refine .grow h3 (OpenCase.bind_kept ho g3.size_le) ?_
  rintro ⟨o', ids⟩ s4 g4 h4 ⟨ho', hids, hset⟩
  have g24 := Grows.trans g3 g4
  replace hids : FreshAll (fun u => K2 u ∨ u ∈ o'.binders.flatten) s3.size ids s4 := by
    refine hids.widen fun u hu => hu.imp_right fun hu => ?_
    rw [hset, hbinders]
    simpa [Shape.branches] using hu.1
  dsimp only
  split
  · rename_i h t
    have ht := (hids t (by simp)).within
    have hh4 := (hids h (by simp)).within
    refine .grow h4 (apply_kept ((hself.within.grow (g2.trans g24)).widen
      fun _ hu => .inl (.inl hu)) ht) fun rest s5 g5 h5 hrest => ?_
    refine .grow h5 (hh (hh4.grow g5)) fun first s6 g6 h6 hfirst => ?_
    refine .grow h6 (binary_kept hfirst (hrest.grow g6))
      fun cons s7 g7 h7 hcons => ?_
    refine .grow h7 (constValue_kept (K := fun u => K2 u ∨ u ∈ o'.binders.flatten))
      fun nil s8 g8 h8 hnil => ?_
    have g48 := g5.trans (g6.trans (g7.trans g8))
    have g28 := g24.trans g48
    have g18 := g2.trans g28
    refine .bind h2.size_le (OpenCase.finish_sound (ho'.grow g48) g28.size_le ?_ ?_) ?_
    · rintro u (rfl | rfl)
      · exact .inl (Nat.le_trans hself.valid.2 g2.size_le)
      · exact .inl hlist.valid.2
    · intro id hid
      simp only [List.mem_cons, Option.some.injEq, List.not_mem_nil, or_false] at hid
      rcases hid with rfl | rfl
      · exact hcons.grow g8
      · exact hnil
    intro body s9 t9 ⟨hbody, _⟩
    have t19 : Grows s1 s9 := Trace.trans g18 (t9.weaken g2.size_le)
    have hlist9 : Claimable s1.size list s9 := ((hlist.claimable hlistb).grow g28).trace t9
      hlist.valid.2
    refine .bind g1.size_le (lambda_sound (K := (· = self)) (l := s1.size)
      (hbody.widen ?_) ?_ ?_) ?_
    · rintro u (rfl | rfl)
      · exact .inl rfl
      · exact .inr rfl
    · rintro p ⟨⟩
      exact hlist9
    · exact fun _ u hu => .inl (hu ▸ hself.valid.2)
    intro lam s10 t10 ⟨hlam, _⟩
    have t1 : Grows s1 s10 := Trace.trans t19 t10
    exact .look fun _ fr => .close hi g1 hself hsize hx t1 (hlam.widen fun _ => .inr) nofun
      (fun _ => id) fr.below (by simp) fun s11 _ h _ => .pure h
  · exact failAt_sound rfl

theorem pairHelperHead_kept (h : PairHelper) (hid : Within K s id) :
    Kept J (pairHelperHead h id) s (Reached K) := by
  cases h with
  | toData tuple =>
    refine Kept.bind (pairToFields_kept hid) fun fields s1 g1 hf => ?_
    refine Kept.bind (integerValue_kept (K := K)) fun tag s2 g2 ht => ?_
    exact binary_kept ht (hf.grow g2)
  | ofData tuple =>
    refine Kept.bind (unary_kept hid) fun taken s1 g1 ht => ?_
    refine Kept.bind (unary_kept ht) fun snd s2 g2 hs => ?_
    refine Kept.bind (newVar_reached hs) ?_
    intro fields s3 g3 hf
    exact fieldsToPair_kept hf

/-- A helper is built once and remembered.  What is noted down about it
changes no more than what its name stands for. -/
theorem keptHelper_kept {key : String} {make : LowerM ValueId}
    {note : ValueId → LowerM ValueId}
    (hsame : ∀ {κ id}, Steady κ (note id))
    (hm : Kept J make s (ClosedOff (fun _ => False) s.size))
    (hn : ∀ id s₁, ∃ s₂ names, (note id).run s₁ = (.ok id, s₂) ∧
      s₂.quiet = { s₁ with scope := addAllToLast names s₁.scope }.quiet ∧
      ∀ p ∈ names, p = (key, id)) :
    Kept J (keptHelper key (make >>= note)) s (Reached K) := by
  refine .look fun hi _ => .get (fun _ _ => rfl) ?_
  split
  · rename_i id hid
    obtain ⟨l1, l2, heq, -⟩ := List.lookup_eq_some_iff.1 hid
    have hmem : (key, id) ∈ s.helpers := by simp [heq]
    exact .pure (.helper hi hmem)
  · rw [bind_assoc]
    refine .grow .refl hm fun id s₁ g1 _ hid => ?_
    obtain ⟨s₂, names, hrun, hq, hnames⟩ := hn id s₁
    have hrun' : (note id >>= fun id => (do
        modify fun s => { s with helpers := (key, id) :: s.helpers }
        return id)).run s₁ = (.ok id, { s₂ with helpers := (key, id) :: s₂.helpers }) := by
      rw [run_bind_of_ok hrun, run_bind_of_ok (run_modify _)]
      rfl
    have hhelpers := (quiet_eq hq).2.helpers
    have ht : Trace s.size s₁ { s₂ with helpers := (key, id) :: s₂.helpers } := by
      refine .step (.helper key hid.lt hid.defined hid.closed
        (hid.only.mono fun _ hu => .inr (.inr (hu.resolve_left not_false)))
        (fun k hm => hid.not_helper ⟨k, hm⟩) hnames) (.one (.quiet ?_))
      rw [hhelpers]
      exact congrArg (fun s => { s with helpers := (key, id) :: s₁.helpers }) hq
    refine fun hi₁ hfr => ⟨?_, .of_steady <| .bind hsame fun _ => .bind (.change fun _ _ _ => rfl)
      fun _ => .pure _⟩
    rw [hrun']
    refine ⟨ht, fun _ heq => ?_⟩
    cases heq
    have hscope := (quiet_eq hq).2.scope
    have hkept : Framed J [] s₁ { s₂ with helpers := (key, id) :: s₂.helpers } := by
      refine ⟨hi₁.scope_ne, ⟨names, fun p hp => ⟨key, ?_⟩, hscope⟩, by simp, fun p hp => ?_,
        fun u hu => Nat.le_trans (hfr.below u hu) ht.evolves.size⟩
      · rw [hnames p hp]
        exact List.mem_cons_self ..
      · exact (hfr.within hi₁ hp).remember ht (quiet_eq hq).1
    exact ⟨hfr.kept hkept ht.remembers, .helper (ht.inv hi₁) (List.mem_cons_self ..)⟩

theorem pairHelper_kept (h : PairHelper) : Kept J (pairHelper h) s (Reached K) := by
  refine keptHelper_kept (.bind (.change fun _ _ _ => rfl) fun _ => .bind point_steady fun _ =>
    .pure _) (mapListHelper_kept fun hx => pairHelperHead_kept h hx) ?_
  intro id s1
  let s2 : State := { s1 with scope := addAllToLast [(h.name, id)] s1.scope }
  have hdef : (defineGlobal h.name id).run s1 = (.ok (), s2) := rfl
  obtain ⟨s3, hr, hq⟩ := point_run s2 "helper" h.name
  refine ⟨s3, [(h.name, id)], ?_, hq, by simp⟩
  rw [run_bind_of_ok hdef, run_bind_of_ok hr, run_pure]

/-- A nested change of layout that keeps the invariant. -/
def Converts (convert : Converter) : Prop :=
  ∀ ⦃J K : Nat → Prop⦄ ⦃s : State⦄ ⦃id : Nat⦄ ⦃goal : Rep⦄, Within K s id →
    Kept J (convert id goal) s (Reached K)

theorem packHelper_kept {convert : Converter} (hconv : Converts convert)
    {elem : Ty} : Kept J (packHelper convert elem) s (Reached K) := by
  refine keptHelper_kept (.bind point_steady fun _ => .pure _)
    (mapListHelper_kept fun hx => hconv hx) ?_
  intro id s1
  obtain ⟨s2, hr, hq⟩ := point_run s1 "helper" ("pack " ++ elem.text)
  exact ⟨s2, [], by rw [run_bind_of_ok hr, run_pure], hq, by simp⟩

theorem unpackHelper_kept {convert : Converter} (hconv : Converts convert) {elem : Ty}
    (ct : ConstType) : Kept J (unpackHelper convert elem ct) s (Reached K) := by
  refine keptHelper_kept (.bind point_steady fun _ => .pure _)
    (mapListHelper_kept fun hx => hconv hx) ?_
  intro id s1
  obtain ⟨s2, hr, hq⟩ := point_run s1 "helper" ("unpack " ++ elem.text)
  exact ⟨s2, [], by rw [run_bind_of_ok hr, run_pure], hq, by simp⟩

end CoreLowering.Graph
