import CoreLowering.Proofs.Graph.Cases

/-!
# Conversions keep the invariant

Changing the layout of a value makes changes only: each kind of conversion
does, given that the conversions nested in it do, and so by induction on how
deep they are nested.
-/

namespace CoreLowering.Graph

variable {α β : Type} {s s' : State} {id i b l : Nat} {convert : Converter} {root : Nat}
  {span : Span} {type : Ty} {goal rep : Rep} {P : β → State → Prop} {goalOut : Rep} {v : Value}
  {J K : Nat → Prop}

theorem fieldOfArray_kept {array rest : Nat} (ha : Within K s array) (hr : Within K s rest) :
    Kept J (fieldOfArray array span rest i) s (Reached K) := by
  refine Kept.bind (integerValue_kept (K := K)) fun k s1 g1 hk => ?_
  refine Kept.bind (binary_kept (ha.grow g1) hk) fun field s2 g2 hf => ?_
  exact binary_kept hf (hr.grow (g1.trans g2))

/-- Taking a constructor apart into its fields. -/
theorem takeFields_kept (hid : Within K s id) :
    Kept J (do
      let taken ← builtin .unConstrData constrT .constant span [id]
      builtin .sndPair type rep span [taken]) s (Reached K) := by
  refine Kept.bind (unary_kept hid) fun taken s1 g1 ht => ?_
  exact unary_kept ht

/-- Putting fields together under a tag. -/
theorem tagFields_kept {fields : Nat} {tag : Int} (hf : Within K s fields) :
    Kept J (do
      let k ← integerValue tag span
      builtin .constrData type rep span [k, fields]) s (Reached K) := by
  refine Kept.bind (integerValue_kept (K := K)) fun k s1 g1 hk => ?_
  exact binary_kept hk (hf.grow g1)

theorem Work.build_kept (hconv : Converts convert) (w : Work) (goal : Rep) (type : Ty) (span : Span)
    (hid : Within K s id) : Kept J (w.build convert goal id type span) s (Reached K) := by
  cases w with
  | call f => exact unary_kept hid
  | packString =>
    refine Kept.bind (unary_kept hid) fun bytes s1 g1 hb => ?_
    exact unary_kept hb
  | unpackString =>
    refine Kept.bind (unary_kept hid) fun bytes s1 g1 hb => ?_
    exact unary_kept hb
  | packBool =>
    refine Kept.bind (constValue_kept (K := K)) fun yes s1 g1 hy => ?_
    refine Kept.bind (constValue_kept (K := K)) fun no s2 g2 hn => ?_
    exact builtin_kept
      (by simpa using ⟨hid.grow (g1.trans g2), hy.grow g2, hn⟩)
  | unpackBool =>
    refine Kept.bind (unary_kept hid) fun taken s1 g1 ht => ?_
    refine Kept.bind (unary_kept ht) fun tag s2 g2 ht => ?_
    refine Kept.bind (integerValue_kept (K := K)) fun one s3 g3 ho => ?_
    exact binary_kept (ht.grow g3) ho
  | packUnit =>
    refine Kept.bind (constValue_kept (K := K)) fun unit s1 g1 hu => ?_
    refine .effortless (hid.grow g1).valid (.ite (fun _ => ?_) fun _ => ?_)
    · exact reinterpret_kept hu
    · exact binary_kept (hid.grow g1) hu
  | unpackUnit =>
    refine Kept.bind (constValue_kept (K := K)) fun unit s1 g1 hu => ?_
    refine .effortless (hid.grow g1).valid (.ite (fun _ => .pure hu) fun _ => ?_)
    exact builtin_kept (by simpa using ⟨hid.grow g1, hu⟩)
  | packPair =>
    refine Kept.bind (letVar_kept hid) fun pair s1 g1 hp => ?_
    refine Kept.bind (pairToFields_kept hp) fun fields s2 g2 hf => ?_
    exact tagFields_kept hf
  | unpackPair =>
    refine Kept.bind (unary_kept hid) fun taken s1 g1 ht => ?_
    refine Kept.bind (unary_kept ht) fun snd s2 g2 hs => ?_
    refine Kept.bind (letVar_kept hs) fun fields s3 g3 hf => ?_
    exact fieldsToPair_kept hf
  | packItems elem =>
    refine Kept.bind (packHelper_kept (K := K) hconv) fun helper s1 g1 hh => ?_
    refine Kept.bind (apply_kept hh (hid.grow g1)) ?_
    intro items s2 g2 hit
    exact unary_kept hit
  | unpackItems elem ct =>
    refine Kept.bind (unary_kept hid) fun items s1 g1 hit => ?_
    refine Kept.bind (unpackHelper_kept (K := K) hconv ct) fun helper s2 g2 hh => ?_
    exact apply_kept hh (hit.grow g2)
  | packComponents a b =>
    refine Kept.bind (letVar_kept hid) fun pair s1 g1 hp => ?_
    refine Kept.bind (unary_kept hp) fun fst s2 g2 hf => ?_
    refine Kept.bind (hconv hf) fun fst s3 g3 hf => ?_
    have hp3 := hp.grow (g2.trans g3)
    refine Kept.bind (unary_kept hp3) fun snd s4 g4 hs => ?_
    refine Kept.bind (hconv hs) fun snd s5 g5 hs => ?_
    refine Kept.bind (constValue_kept (K := K)) fun empty s6 g6 he => ?_
    refine Kept.bind (binary_kept (hs.grow g6) he) fun tail s7 g7 ht => ?_
    have hf7 := hf.grow (g4.trans (g5.trans (g6.trans g7)))
    refine Kept.bind (binary_kept hf7 ht) fun fields s8 g8 hfs => ?_
    exact tagFields_kept hfs
  | helper h =>
    refine Kept.bind (pairHelper_kept (K := K) h) fun helper s1 g1 hh => ?_
    exact apply_kept hh (hid.grow g1)
  | takeFields => exact takeFields_kept hid
  | tagFields tag => exact tagFields_kept hid
  | pairOfFields =>
    refine Kept.bind (letVar_kept hid) fun fields s1 g1 hf => ?_
    exact fieldsToPair_kept hf
  | fieldsOfPair =>
    refine Kept.bind (letVar_kept hid) fun pair s1 g1 hp => ?_
    refine Kept.bind (pairToFields_kept hp) fun fields s2 g2 hf => ?_
    exact reinterpret_kept hf
  | fieldsOfArray n =>
    refine Kept.bind (letVar_kept hid) fun array s1 g1 ha => ?_
    refine Kept.bind (constValue_kept (K := K)) fun empty s2 g2 he => ?_
    refine Kept.bind (Kept.foldlM_reached he fun k _ rest s' g hr => ?_) ?_
    · exact fieldOfArray_kept (ha.grow (g2.trans g)) hr
    · exact fun fields s3 g3 hf => reinterpret_kept hf

theorem followEdge_kept (hconv : Converts convert) {e : Edge} (hid : Within K s id) :
    Kept J (followEdge convert type span id e) s (Reached K) := by
  refine .constantOf hid.valid ?_
  split
  · exact constIn_reached
  · refine Kept.bind (e.work.build_kept hconv _ type span hid) fun out s1 g1 ho => ?_
    refine .value ho fun v hv => .ite (fun _ => .pure ho) fun _ => ?_
    exact reinterpret_kept ho

theorem noConversion_sound {P : α → State → Prop} (v : Value) :
    Sound J l (noConversion v goal) s P :=
  (fail_sound rfl)

theorem noConversion_bind {f : α → LowerM β} (v : Value) (goal : Rep) :
    Sound J l (noConversion v goal >>= f) s P :=
  (fail_bind rfl)

/-- A wrapper that forces or applies, converts the result and binds no
variable. -/
theorem wrapDelayed_kept (hconv : Converts convert) {body : LowerM ValueId}
    (hb : Kept J body s (Reached K)) :
    Kept J (do
      let body ← convert (← body) goalOut
      lambda none body type rep false span) s (Reached K) := by
  refine Kept.bind hb fun x s1 g1 hx => ?_
  refine Kept.bind (hconv hx) fun y s2 g2 hy => ?_
  exact (lambda_sound (hy.widen fun _ => .inl) (by simp) (absurd rfl)).mono fun _ _ _ h => h.1

/-- A wrapper that forces or applies, converts the result and binds a
variable that was not there in `s₀`. -/
theorem wrapClosure_sound {s₀ : State} (hconv : Converts convert) {body : LowerM ValueId}
    {param : Nat} (h₀ : Grows s₀ s) (hp : Claimable s₀.size param s) (hK : ∀ u, K u → u ≤ s₀.size)
    (hb : Kept J body s (Reached fun u => K u ∨ u = param)) :
    SoundFrom J s₀ [] s₀.size (do
      let body ← convert (← body) goalOut
      lambda (some param) body type rep false span) s (Reached K) := by
  refine .grow h₀ hb fun x s1 g1 h1 hx => .grow h1 (hconv hx) fun y s2 g2 h2 hy => ?_
  refine .last ((lambda_sound ?_ ?_ fun _ u hu => .inl (hK u hu)).mono fun _ _ _ h => h.1)
  · refine hy.widen ?_
    rintro u (hu | rfl)
    · exact .inl hu
    · exact .inr rfl
  · rintro p ⟨⟩
    exact (hp.grow g1).grow g2

theorem convertClosure_kept (hconv : Converts convert) (hid : Within K s id) :
    Kept J (convertClosure convert id goal) s (Reached K) := by
  refine .value hid fun v hv => .ite (fun _ => noConversion_bind v goal) fun _ => ?_
  refine .effortless hid.valid (Kept.ite_bind (fun _ => .pure hid)
    (fun _ => letVar_kept hid) fun f s1 g1 hf => .look fun hi1 _ => ?_)
  -- the variable that is bound comes after all that the function uses
  refine .mono (P := Reached fun u => K u ∧ u ≤ s1.size) ?_ fun _ _ _ h => h.widen fun _ => And.left
  replace hf := hf.bounded hi1
  split
  · exact wrapDelayed_kept hconv (force_kept hf)
  · refine .grow .refl newBinder_kept fun param s2 g2 _ hp => ?_
    exact wrapClosure_sound hconv g2 (hp.1.claimable hp.2.2) (fun _ => And.right)
      (force_kept ((hf.grow g2).widen fun _ => .inl))
  · refine Kept.bind (constValue_kept (K := fun u => K u ∧ u ≤ s1.size)) fun unit s2 g2 hu => ?_
    refine Kept.bind (hconv hu) fun arg s3 g3 ha => ?_
    exact wrapDelayed_kept hconv
      (apply_kept (hf.grow (g2.trans g3)) ha)
  · refine .grow .refl newBinder_kept fun param s2 g2 _ hp => ?_
    refine .grow g2 (hconv hp.1.within) fun arg s3 g3 g ha => ?_
    exact wrapClosure_sound hconv g ((hp.1.claimable hp.2.2).grow g3) (fun _ => And.right)
      (apply_kept ((hf.grow g).widen fun _ => .inl) (ha.widen fun _ => .inr))
  · exact noConversion_sound _

theorem convertValue_kept (hconv : Converts convert) (hid : Within K s id) :
    Kept J (convertValue convert id goal) s (Reached K) := by
  refine .value hid fun v hv => .read decls_run ?_
  refine .ite (fun _ => reinterpret_kept hid) fun _ => ?_
  refine .ite (fun _ => ?_) fun _ => ?_
  · refine Kept.bind (hconv hid) fun packed s1 g1 hp => ?_
    exact reinterpret_kept hp
  refine .ite (fun _ => ?_) fun _ => ?_
  · refine Kept.bind (reinterpret_kept hid) fun x s1 g1 hx => ?_
    exact hconv hx
  refine .ite (fun _ => convertClosure_kept hconv hid) fun _ => ?_
  refine .ite (fun _ => reinterpret_kept hid) fun _ =>
    .target (fun v hv => by simp only [edges_congr hv]) ?_
  split
  · exact noConversion_sound v
  · refine Kept.bind (Kept.foldlM_reached hid fun e _ x s' g hx => ?_) ?_
    · exact followEdge_kept hconv hx
    · exact fun out s1 g1 ho => reinterpret_kept ho

/-! ## Views of variables -/

/-- A value in reach that is a plain variable. -/
def PlainVar (K : Nat → Prop) (s : State) (root : Nat) : Prop :=
  Within K s root ∧ ∃ n, s.node? root = some n ∧ n.isPlain = true

/-- The variable that a value is a view of is in reach. -/
theorem rootVar_kept (hid : Within K s id) :
    Kept J (rootVar id) s fun r s' => ∀ root : Nat, r = some root → PlainVar K s' root := by
  refine .look fun hi _ => .value hid fun v hv => ?_
  have hn := node?_of_value hv
  split
  · rename_i x origin rhs hnode
    rw [hnode] at hn
    refine .pure ?_
    rintro _ ⟨⟩
    exact ⟨hid.origin hi hn, (hi.origin _ _ _ _ hn).plain⟩
  · rename_i x rhs hnode
    rw [hnode] at hn
    refine .pure ?_
    rintro _ ⟨⟩
    exact ⟨hid, _, hn, rfl⟩
  · rename_i x hnode
    rw [hnode] at hn
    have hx := hid.inner hi hn
    refine .value hx fun w hw => .ite (fun _ => ?_) fun _ => .pure (by simp)
    have hn' := node?_of_value hw
    split
    · rename_i y origin rhs hnode'
      rw [hnode'] at hn'
      refine .pure ?_
      rintro _ ⟨⟩
      exact ⟨hx.origin hi hn', (hi.origin _ _ _ _ hn').plain⟩
    · rename_i y rhs hnode'
      rw [hnode'] at hn'
      refine .pure ?_
      rintro _ ⟨⟩
      exact ⟨hx, _, hn', rfl⟩
    · exact .pure (by simp)
  · exact .pure (by simp)

theorem SoundFrom.foldedView {frames : List (List (String × ValueId))} {b : State}
    {f : Option Constant → LowerM β} (h : Valid s root)
    (hf : ∀ k, SoundFrom J b frames l (f k) s P) :
    SoundFrom J b frames l (Graph.foldedView root v goal >>= f) s P := by
  simp only [Graph.foldedView, bind_assoc, pure_bind]
  exact .constantOf h (.read decls_run (.target (fun v hv => by rw [foldPath_congr hv]) (hf _)))

/-- A value that has been made to show a variable shows it. -/
theorem Made.shows {node : Node} {r : Value} (h : Made s node type goal id s') (he : Evolves s s')
    (hr : s.value? root = some r) (hp : r.node.isPlain = true) (hview : node.isViewOf root = true)
    (htype : type = r.type) : Shows s' root goal.key id := by
  obtain ⟨r', hr', he⟩ := he.value? root r hr
  obtain ⟨v, hv, hnode, htype', hrep⟩ := h.value
  refine ⟨⟨?_, v, r', hv, hr', he.isPlain.trans hp, by rw [htype', htype, he.type]⟩, v, hv,
    hnode ▸ hview, congrArg Rep.key hrep⟩
  rw [h.eq]
  exact Nat.lt_succ_of_le (valid_of_value hr).2

theorem rememberView_kept (hs : Shows s root goal.key id) (hf : Final s id)
    (hu : UsesOnly (fun u => u ∈ (s.usedOf root).ids) s id) :
    Kept J (rememberView root goal id) s fun _ _ => True := by
  have ht : Grows s { s with views := ((root, goal.key), id) :: s.views } :=
    .one (.view goal.key hs hf hu)
  exact .of_run (.of_steady (.change fun _ _ _ => rfl)) rfl ht rfl (fun _ _ h => h.grow ht)
    fun _ _ => trivial

theorem newAlias_kept {base : String} (hv : s.value? root = some v)
    (hp : v.node.isPlain = true) (htype : v.type = type) :
    Kept J (freshName base >>= fun name => allocVar (.aliased name root none) type rep span) s
      fun id s' => (∃ name, Made s (.aliased name root none) type rep id s') ∧
        Past s.size id s' := by
  subst htype
  have hadd := aliased_adds (s := s) base root v.type rep span
  have hch := Change.aliased (l := s.size) base rep span hv hp
  have hrun : ∃ s', (freshName base >>= fun name =>
      allocVar (.aliased name root none) v.type rep span).run s = (.ok (s.size + 1), s') := by
    rw [run_bind_of_ok (freshName_run base), allocVar_run]
    exact ⟨_, rfl⟩
  obtain ⟨s', hr⟩ := hrun
  rw [hr] at hadd hch
  refine .look fun hi _ => .of_run (.of_steady <| .bind (.change fun _ _ _ => rfl) fun _ =>
    allocVar_steady) hr (.one hch) hadd.scope (fun _ _ h => h.grow (.one hch)) fun a h => ?_
  cases h
  exact ⟨⟨s.nextName base, hadd.made rfl⟩, hi.past_new hadd rfl⟩

theorem Evolves.withValue (h : Evolves s s') (hv : s.value? id = some v) :
    ∃ v', s'.value? id = some v' ∧ v.Evolves v' :=
  h.value? id v hv

theorem aliasOf_kept (hconv : Converts convert) (hroot : PlainVar K s root) :
    Kept J (aliasOf convert root goal) s (Reached K) := by
  obtain ⟨v, hv⟩ := hroot.1.valid.exists_value
  have hplain : v.node.isPlain = true := by
    obtain ⟨-, n, hn, hp⟩ := hroot
    rw [node?_of_value hv, Option.some.injEq] at hn
    exact hn ▸ hp
  refine .look fun hi _ => .read (value_run hv) (.ite (fun _ => .pure hroot.1) fun _ => ?_)
  refine .read decls_run (.ite (fun _ => ?_) fun _ => .get (fun _ _ => rfl) ?_)
  · exact reinterpret_kept hroot.1
  split
  · rename_i id hid
    obtain ⟨l1, l2, heq, -⟩ := List.lookup_eq_some_iff.1 hid
    have hmem : ((root, goal.key), id) ∈ s.views := by simp [heq]
    exact .pure (hroot.1.view hi hmem)
  -- a view uses what its variable uses
  let U : Nat → Prop := fun u => u ∈ (s.usedOf root).ids
  have hU : Within U s root := by
    refine .of_only (node?_of_value hv) ?_ ?_ fun u hu => .inr (.inr hu)
    · intro y hy
      simp [hy, Node.isPlain] at hplain
    · intro name y r hy
      simp [hy, Node.isPlain] at hplain
  have hused : ∀ {s'}, Grows s s' → s'.usedOf root = s.usedOf root := fun g =>
    g.usedOf hroot.1.valid.2 (.inl hroot.1.valid.2)
  have hgoal : ∀ {id s'}, Grows s s' → Within U s' id → Within K s' id := fun g h =>
    h.mono fun u hu => (hroot.1.grow g).only u (by rwa [hused g])
  refine .foldedView hroot.1.valid fun k => ?_
  split
  · refine Kept.bind (constIn_kept (K := U)) fun id s1 g1 hid => ?_
    obtain ⟨w, hw, hnode, -⟩ := hid.1.value
    refine Kept.bind (rememberView_kept
      (hid.1.shows g1.evolves hv hplain rfl rfl)
      ⟨_, node?_of_value hw, by simp [hnode, Node.isIdentifiable]⟩
      (by rw [hused g1]; exact hid.2.only)) fun _ s2 g2 _ => ?_
    exact .pure ((hgoal g1 hid.2).grow g2)
  · refine .grow .refl (convertValue_kept hconv hU) ?_
    intro converted s1 g1 _ hc
    obtain ⟨v1, hv1, he1⟩ := g1.evolves.withValue hv
    rw [← bind_assoc]
    refine .look fun hi1 _ => .grow g1
      (newAlias_kept hv1 (he1.isPlain.trans hplain) he1.type) ?_
    rintro id s2 g2 h2 ⟨⟨name, hid⟩, hpast⟩
    obtain ⟨w, hw, hnode, -⟩ := hid.value
    have hlt : converted < id := by
      rw [hid.eq]
      exact Nat.lt_succ_of_le hc.valid.2
    have hshows := hid.shows g2.evolves hv1 (he1.isPlain.trans hplain)
      (by simp [Node.isViewOf]) he1.type.symm
    refine .look fun hi2 fr2 => .bind (Nat.le_refl _) (setRhs_sound (l := s.size)
      (Nat.lt_of_le_of_lt g1.size_le hpast.lt) hid.size.symm (hnode ▸ node?_of_value hw) rfl rfl
      (hid.unclaimed _ (hi1.unclaimed_new hpast.lt) (by simp [Node.binds])) (hc.grow g2) hlt ?_)
      fun _ s3 t3 hset => ?_
    · have := fr2.older hi hi2 (hid.size ▸ hpast.weaken g1.size_le)
      rwa [hid.size] at this
    obtain ⟨-, -, hn3, hu3⟩ := hset
    have h3 : Grows s s3 := Trace.trans h2 t3
    have hshows3 := hshows.mono t3.evolves
    have hid3 : Within U s3 id := by
      refine ⟨valid_of_node? hn3, fun x hx => ?_⟩
      rcases hshows3.behind hx with rfl | rfl
      · exact hu3
      · exact (hU.grow h3).only
    refine .grow h3 (rememberView_kept hshows3 ⟨_, hn3, fun _ => rfl⟩
      (by rw [hused h3]; exact hu3)) fun _ s4 g4 h4 _ => ?_
    refine .grow (P := fun _ _ => True) h4 (.quietly (.of_steady (.change fun _ _ _ => rfl))
      (run_modify _) rfl fun _ _ => trivial) fun _ s5 g5 h5 _ => ?_
    refine .grow h5 point_sound fun _ s6 g6 _ _ => ?_
    exact .pure ((((hgoal h3 hid3).grow g4).grow g5).grow g6)

/-- One change of layout keeps the invariant if the nested ones do. -/
theorem toRepStep_converts (hconv : Converts convert) : Converts (toRepStep convert) := by
  intro J K s id goal hid
  refine .look fun hi _ => .value hid fun v hv => .ite (fun _ => .pure hid) fun _ => ?_
  refine .read decls_run (.ite (fun _ => reinterpret_kept hid) fun _ => ?_)
  refine Kept.bind (rootVar_kept hid) fun r s1 g1 hroot => ?_
  split
  · exact aliasOf_kept hconv (hroot _ rfl)
  · exact convertValue_kept hconv (hid.grow g1)

theorem toRepIn_converts (fuel : Nat) : Converts (toRepIn fuel) := by
  induction fuel with
  | zero => exact fun _ _ _ _ _ _ => failAt_sound rfl
  | succ fuel ih => exact toRepStep_converts ih

/-- **Changing the layout of a value keeps the invariant.** -/
theorem toRep_kept (hid : Within K s id) : Kept J (toRep id goal) s (Reached K) := by
  exact .value hid fun v hv => toRepIn_converts _ hid

end CoreLowering.Graph
