import CoreLowering.Proofs.Graph.Sound

/-!
# The basic steps keep the invariant

Adding nodes and variables, defining variables, opening and closing scopes:
each of these makes changes only.
-/

namespace CoreLowering.Graph

variable {β : Type} {s s' : State} {id i l : Nat} {type : Ty} {rep : Rep} {span : Span}
  {name : String} {rhs : Nat} {x : String} {v : Value} {f : Builtin} {t : Ty} {J K : Nat → Prop}
  {node : Node} {c : Constant}

/-! ## Looking things up -/

theorem decls_run : decls.run s = (.ok s.decls, s) := rfl

theorem target_run : target.run s = (.ok s.target, s) := rfl

theorem standardRep_run (t : Ty) : (standardRep t).run s = (.ok (s.decls.standardRep t), s) :=
  rfl

theorem family_run (t : Ty) : (family t).run s = (.ok (s.decls.family t), s) := rfl

theorem lookupName_run (x : String) :
    (lookupName x).run s = (.ok (s.scope.flatten.lookup x), s) := rfl

theorem constantOf_run (h : Valid s id) : (constantOf id).run s = (.ok (s.constant? id), s) := by
  obtain ⟨v, hv⟩ := h.exists_value
  rw [constantOf, run_bind_of_ok (value_run hv)]
  rfl

theorem effortless_run (h : Valid s id) : (effortless id).run s = (.ok (s.isEffortless id), s) := by
  obtain ⟨v, hv⟩ := h.exists_value
  rw [effortless, run_bind_of_ok (value_run hv)]
  rfl

namespace SoundFrom

variable {frames : List (List (String × ValueId))} {b : State} {P : β → State → Prop}

theorem constantOf {f : Option Constant → LowerM β} (h : Valid s id)
    (hf : SoundFrom J b frames l (f (s.constant? id)) s P) :
    SoundFrom J b frames l (Graph.constantOf id >>= f) s P :=
  .read (s.constant?_under _ _ id ▸ constantOf_run h) hf

theorem effortless {f : Bool → LowerM β} (h : Valid s id)
    (hf : SoundFrom J b frames l (f (s.isEffortless id)) s P) :
    SoundFrom J b frames l (Graph.effortless id >>= f) s P :=
  .read (s.isEffortless_under _ _ id ▸ effortless_run h) hf

theorem standardRep {f : Rep → LowerM β}
    (hf : SoundFrom J b frames l (f (s.decls.standardRep t)) s P) :
    SoundFrom J b frames l (Graph.standardRep t >>= f) s P :=
  .read (a := s.decls.standardRep t) (standardRep_run t) hf

theorem family {f : Family → LowerM β} (hf : SoundFrom J b frames l (f (s.decls.family t)) s P) :
    SoundFrom J b frames l (Graph.family t >>= f) s P :=
  .read (a := s.decls.family t) (family_run t) hf

theorem lookupName {f : Option ValueId → LowerM β}
    (hf : SoundFrom J b frames l (f (s.scope.flatten.lookup x)) s P) :
    SoundFrom J b frames l (Graph.lookupName x >>= f) s P :=
  .read (a := s.scope.flatten.lookup x) (lookupName_run x) hf

end SoundFrom

/-- A name in scope stands for a value within the bounds of the scope. -/
theorem Framed.within_of_lookup {frames : List (List (String × ValueId))} {b : State}
    (hfr : Framed J frames b s) (hi : Inv s) (h : s.scope.flatten.lookup x = some id) :
    Within J s id := by
  obtain ⟨l1, l2, heq, -⟩ := List.lookup_eq_some_iff.1 h
  exact hfr.within hi (p := (x, id)) (by simp [heq])

/-! ## Nodes -/

/-- What is known of a value that has just been made. -/
structure Made (s : State) (node : Node) (type : Ty) (rep : Rep) (id : ValueId) (s' : State) :
    Prop where
  eq : id = s.size + 1
  size : s'.size = id
  old : ∀ i n, s.node? i = some n → s'.node? i = some n
  past : ∀ {b x}, Past b x s → Past b x s'
  value : ∃ v, s'.value? id = some v ∧ v.node = node ∧ v.type = type ∧ v.rep = rep
  unclaimed : ∀ x, Unclaimed s x → x ∉ node.binds → Unclaimed s' x
  usedOf : ∀ i, i ≤ s.size → s'.usedOf i = s.usedOf i

theorem Adds.exists_value (h : Adds s s' v) :
    ∃ w, s'.value? (s.size + 1) = some w ∧ w.core = v.core := by
  have hv := h.value? (s.size + 1)
  rw [if_pos rfl] at hv
  exact Option.map_eq_some_iff.1 hv

theorem Adds.made (h : Adds s s' v) (hv : v.node.rhs? = none) :
    Made s v.node v.type v.rep (s.size + 1) s' where
  eq := rfl
  size := h.size
  old _ _ hn := h.node?_old hn
  past hp := ⟨hp.lt, h.valid hp.valid, fun f F hF => hp.around f F (h.closed hv hF),
    fun ⟨key, hm⟩ => hp.not_helper ⟨key, h.helpers ▸ hm⟩⟩
  value := by
    obtain ⟨w, hw, hcore⟩ := h.exists_value
    have he := Value.Evolves.of_core hcore
    simp only [Value.core, Value.mk.injEq] at hcore
    exact ⟨w, hw, hcore.1, he.type, he.rep⟩
  unclaimed x hx hn := h.unclaimed hx hn
  usedOf i hle := by rw [h.usedOf, if_neg (by omega)]

/-- What was within bounds before a value was made is so afterwards. -/
theorem Made.within (h : Made s node type rep id s') (hs : Trace l s s') (hi : Within K s i) :
    Within K s' i :=
  hi.trace hs fun x hx => h.usedOf x (Nat.le_trans hx hi.valid.2)

/-- Adding a node whose parts are within bounds and whose variables have no
scope yet. -/
theorem newNode_sound (hid : node.isIdentifiable = false)
    (hsubs : ∀ i ∈ node.subs, Within (fun u => K u ∨ u ∈ node.scopeOf) s i)
    (howned : ∀ i : Nat, i ∈ node.scopeOf →
      Past l i s ∧ (i ∈ node.binds → Unclaimed s i ∧ Blank s i))
    (hK : node.scopeOf ≠ [] → ∀ u, K u → u ≤ l ∨ Blank s u) (hstrict : node.StrictOwned) :
    Sound J l (newNode node type rep span) s fun id s' =>
      Made s node type rep id s' ∧ Within K s' id := by
  have hvalid := fun i h => (hsubs i h).valid
  have hadd := newNode_adds type rep span hvalid
  obtain ⟨s', hr, -⟩ := newNode_run type rep span hvalid
  have hch := Change.node (l := l) type rep span hid hvalid
    (fun i hi => ⟨(howned i hi).1, (howned i hi).2, ?_⟩) hstrict
  · rw [hr] at hadd hch
    have hmade : Made s node type rep (s.size + 1) s' := hadd.made (by
      cases node <;> simp_all [State.summed, Value.new, Node.isIdentifiable, Node.rhs?])
    refine .of_run (.of_steady newNode_steady) hr (.one hch) hadd.scope
      (fun _ _ h => hmade.within (.one hch) h) ?_
    rintro _ ⟨⟩
    exact ⟨hmade, .newNode hadd (.one hch) hid hsubs⟩
  · -- the bounds of the parts lie before the variables of the node
    refine fun j hj => (hsubs j hj).only.mono fun u hu => .inr (.inr ?_)
    rcases hu with hu | hu
    · exact (hK (List.ne_nil_of_mem hi) u hu).imp
        (fun hle => Nat.le_trans hle (Nat.le_of_lt (howned i hi).1.lt)) .inr
    · exact .inr (.inl hu)

/-- Adding a node that is the scope of no variable. -/
theorem newNode_kept (hid : node.isIdentifiable = false) (hsubs : ∀ i ∈ node.subs, Within K s i)
    (howned : node.scopeOf = []) (hstrict : node.StrictOwned) :
    Kept J (newNode node type rep span) s fun id s' =>
      Made s node type rep id s' ∧ Within K s' id :=
  newNode_sound hid (fun i hi => (hsubs i hi).widen fun _ => .inl) (by simp [howned])
    (absurd howned) hstrict

theorem newNode_reached (hid : node.isIdentifiable = false) (hsubs : ∀ i ∈ node.subs, Within K s i)
    (howned : node.scopeOf = []) (hstrict : node.StrictOwned) :
    Kept J (newNode node type rep span) s (Reached K) :=
  (newNode_kept hid hsubs howned hstrict).mono fun _ _ _ h => h.2

/-- A variable that has just been made: it may get a scope past `b`, is within
bounds and has no scope yet. -/
structure Fresh (K : Nat → Prop) (b : Nat) (id : ValueId) (s : State) : Prop extends
    Past b id s where
  within : Within K s id
  unclaimed : Unclaimed s id
  plain : ∃ n, s.node? id = some n ∧ n.isPlain = true

theorem Inv.unclaimed_new (hi : Inv s) (h : s.size < id) : Unclaimed s id := by
  intro i n hn hm
  have h1 := hi.owned i n hn id (Node.scopeOf_of_binds hm)
  have h2 := (valid_of_node? hn).2
  omega

/-- A variable that is added may get a scope. -/
theorem Inv.past_new (hi : Inv s) (h : Adds s s' v) (hv : v.node.rhs? = none) :
    Past s.size (s.size + 1) s' where
  lt := Nat.lt_succ_self _
  valid := ⟨Nat.succ_pos _, Nat.le_of_eq h.size.symm⟩
  around f F hF _ := by
    obtain ⟨-, n, hn, hr⟩ := h.closed hv hF
    exact Nat.lt_succ_of_le (hi.rhs _ _ _ hn hr).1.2
  not_helper := by
    rintro ⟨key, hm⟩
    obtain ⟨⟨n, hn, -⟩, -⟩ := hi.helpers key _ (h.helpers ▸ hm)
    exact absurd (valid_of_node? hn).2 (Nat.not_succ_le_self _)

theorem newBinder_kept :
    Kept J (newBinder name type rep span) s fun id s' =>
      Fresh (· = id) s.size id s' ∧ s'.size = id ∧ Blank s' id := by
  have hadd := newBinder_adds (s := s) name type rep span
  have hch := Change.binder (l := s.size) (s := s) name type rep span
  have hr := newBinder_run (s := s) name type rep span
  rw [hr] at hadd hch
  refine .look fun hi _ => .of_run (.of_steady newBinder_steady) hr (.one hch) hadd.scope
    (fun _ _ h => h.grow (.one hch)) fun a ha => ?_
  cases ha
  have hmade := hadd.made rfl
  have hnode := hadd.node? (s.size + 1)
  rw [if_pos rfl] at hnode
  refine ⟨⟨hi.past_new hadd rfl, ?_, ?_, _, hnode, rfl⟩, hmade.size, _, hnode⟩
  · refine .of_only hnode nofun nofun fun u hu => .inr (.inr ?_)
    rw [hadd.usedOf, if_pos rfl] at hu
    exact List.mem_singleton.1 hu
  · exact hmade.unclaimed _ (hi.unclaimed_new (by omega))
      (by simp [State.variable, Value.new, Node.binds])

/-! ## Definitions -/

/-- Defining the last variable by a value that was there before it. -/
theorem setRhs_sound {n : Node} (hl : l < id) (hlast : id = s.size) (hn : s.node? id = some n)
    (hid : n.isIdentifiable = true) (hnone : n.rhs? = none) (hun : Unclaimed s id)
    (hrhs : Within K s rhs) (hlt : rhs < id) (hold : ∀ p ∈ s.scope.flatten, p.2 < id) :
    Sound J l (setRhs id rhs) s fun _ s' =>
      (∀ {b x}, Past b x s → Past b x s') ∧ (∀ x, Unclaimed s x → Unclaimed s' x) ∧
        s'.node? id = some (n.withRhs rhs) ∧ UsesOnly K s' id := by
  obtain ⟨r, hr⟩ := hrhs.valid.exists_value
  obtain ⟨x, hx, rfl⟩ := value_of_node? hn
  obtain ⟨s', hrun, -⟩ := setRhs_run hx hnone hr (Nat.ne_of_lt hlt)
  have hdef := setRhs_defines hn hnone hr (Nat.ne_of_lt hlt)
  have hch := Change.define hl hlast hn hid hnone hun hrhs.valid hlt
  rw [hrun] at hdef hch
  have hused := hdef.usedOf (valid_of_node? hn)
  have hnode : s'.node? id = some (x.node.withRhs rhs) := by
    rw [hdef.node?, if_pos rfl, hn, Option.map_some]
  refine .of_run (.of_steady setRhs_steady) hrun (.one hch) hdef.scope (fun p hp h => ?_) fun a _ =>
    ⟨fun hp => ⟨hp.lt, hch.evolves.valid hp.valid, fun f F hF hf => ?_, ?_⟩,
      fun x hx => hdef.unclaimed hx, hnode, fun u hu => ?_⟩
  · refine h.trace (.one hch) fun y hy => ?_
    rw [hused, if_neg (Nat.ne_of_lt (Nat.lt_of_le_of_lt hy (hold p hp)))]
  · refine hp.around f F ((hdef.closed hF).resolve_right fun ⟨h1, h2⟩ => ?_) hf
    exact Nat.lt_asymm hlt (h1 ▸ h2 ▸ hF.1)
  · exact fun ⟨key, hm⟩ => hp.not_helper ⟨key, hdef.helpers ▸ hm⟩
  · rw [hused, if_pos rfl, VarSet.mem_union] at hu
    rcases hu with hu | hu
    · obtain rfl := List.mem_singleton.1 hu
      exact .inl ⟨_, rhs, hnode, Node.rhs?_defined hid rhs, hlt⟩
    · rw [← usedOf_of_value hr] at hu
      exact (hrhs.only u hu).imp (·.mono hch.evolves) (·.imp_left (·.mono hch.remembers))

theorem newVar_kept (hrhs : Within K s rhs) :
    Kept J (newVar name type rep rhs span) s (Fresh K s.size) := by
  refine .look fun hi _ => .bind (Nat.le_refl _) newBinder_kept ?_
  rintro id s1 g1 ⟨hf, rfl, x, hx⟩
  have hlt : rhs < s1.size := Nat.lt_of_le_of_lt hrhs.valid.2 hf.lt
  refine .look fun hi1 fr1 => .bind (Nat.le_refl _)
    (setRhs_sound hf.lt rfl hx rfl rfl hf.unclaimed (hrhs.grow g1) hlt
      (fr1.older hi hi1 hf.toPast)) fun _ s2 _ ⟨hpast, hun, hn, hu⟩ => ?_
  exact .pure ⟨hpast hf.toPast, .of_only hn nofun nofun hu, hun _ hf.unclaimed, _, hn, rfl⟩

theorem newVar_reached (hrhs : Within K s rhs) :
    Kept J (newVar name type rep rhs span) s (Reached K) :=
  (newVar_kept hrhs).mono fun _ _ _ h => h.within

theorem letVar_kept (hid : Within K s id) : Kept J (letVar name id) s (Reached K) := by
  refine .value hid fun v hv => ?_
  split
  · exact .pure hid
  · exact newVar_reached hid

/-! ## Kinds of nodes -/

theorem constIn_kept :
    Kept J (constIn c type rep span) s fun id s' =>
      Made s (.const c) type rep id s' ∧ Within K s' id :=
  newNode_kept rfl (by simp [Node.subs]) rfl trivial

theorem constIn_reached : Kept J (constIn c type rep span) s (Reached K) :=
  constIn_kept.mono fun _ _ _ h => h.2

theorem constValue_kept : Kept J (constValue c type span) s (Reached K) :=
  constIn_reached

theorem integerValue_kept {n : Int} : Kept J (integerValue n span) s (Reached K) :=
  constValue_kept

theorem errorValue_kept {message : String} : Kept J (errorValue message type span) s (Reached K) :=
  newNode_reached rfl (by simp [Node.subs]) rfl trivial

theorem typeErrorValue_kept {message : String} :
    Kept J (typeErrorValue message type span) s (Reached K) :=
  newNode_reached rfl (by simp [Node.subs]) rfl trivial

theorem reinterpret_kept (hid : Within K s id) :
    Kept J (reinterpret id type rep) s (Reached K) := by
  refine .look fun hi _ => .value hid fun v hv => .ite (fun _ => .pure hid) fun _ => ?_
  refine newNode_reached rfl ?_ rfl trivial
  simp only [Node.subs, List.mem_singleton, forall_eq]
  split
  · rename_i x hx
    exact hid.inner hi (hx ▸ node?_of_value hv)
  · exact hid

theorem force_kept (hid : Within K s id) : Kept J (force id type rep) s (Reached K) := by
  refine .value hid fun v hv => ?_
  exact newNode_reached rfl (by simpa [Node.subs] using hid) rfl trivial

theorem apply_kept {f a : Nat} (hf : Within K s f) (ha : Within K s a) :
    Kept J (apply f a type rep span) s (Reached K) :=
  newNode_reached rfl (by simpa [Node.subs] using ⟨hf, ha⟩) rfl trivial

theorem builtin_kept {args : List ValueId} (h : ReachedAll K args s) :
    Kept J (builtin f type rep span args) s (Reached K) := by
  have hrest : Kept J (do
      if !f.availableIn s.target then failAt (.unsupportedBuiltin f s.target) span
      newNode (.builtin f args) type rep span) s (Reached K) :=
    .ite (fun _ => failAt_bind rfl) fun _ => newNode_reached rfl h rfl trivial
  exact fun hi hfr => ⟨(hrest hi hfr).1, .of_steady builtin_steady⟩

theorem unary_kept (h : Within K s id) : Kept J (builtin f type rep span [id]) s (Reached K) :=
  builtin_kept (by simpa using h)

theorem binary_kept (h : Within K s id) (h' : Within K s i) :
    Kept J (builtin f type rep span [id, i]) s (Reached K) :=
  builtin_kept (by simpa using ⟨h, h'⟩)

theorem builtinRef_kept : Kept J (builtinRef f span) s (Reached K) :=
  newNode_reached rfl (by simp [Node.subs]) rfl trivial

/-- A variable past `b` without a definition that no node gives a value to
yet. -/
def Claimable (b : Nat) (x : Nat) (s : State) : Prop := Past b x s ∧ Unclaimed s x ∧ Blank s x

/-- The result is within the bounds, and what had no definition before has none. -/
def Joined (K : Nat → Prop) (s : State) (id : ValueId) (s' : State) : Prop :=
  Within K s' id ∧ ∀ u, Blank s u → Blank s' u

theorem Made.joined (h : Made s node type rep id s') (hid : Within K s' id) : Joined K s id s' :=
  ⟨hid, fun _ => Exists.imp fun _ => h.old _ _⟩

/-- A function of a variable that has no scope yet. -/
theorem lambda_sound {param : Option ValueId} {body : Nat} {barrier : Bool}
    (hb : Within (fun u => K u ∨ u ∈ param) s body) (hp : ∀ p ∈ param, Claimable l p s)
    (hK : param ≠ none → ∀ u, K u → u ≤ l ∨ Blank s u) :
    Sound J l (lambda param body type rep barrier span) s (Joined K s) := by
  refine (newNode_sound rfl ?_ ?_ ?_ ?_).mono fun _ _ _ h => h.1.joined h.2
  · simpa [Node.subs, Node.scopeOf] using hb
  · exact fun i h => ⟨(hp i (by simpa [Node.scopeOf] using h)).1,
      fun _ => (hp i (by simpa [Node.scopeOf] using h)).2⟩
  · simpa [Node.scopeOf] using hK
  · trivial

/-- A recursive function of a variable that has no scope yet. -/
theorem fix_sound {self rec : Nat} (hr : Within (fun u => K u ∨ u = self) s rec)
    (hs : Claimable l self s) (hK : ∀ u, K u → u ≤ l ∨ Blank s u) :
    Sound J l (fix self rec span) s fun id s' =>
      (∃ type rep, Made s (.fix self rec) type rep id s') ∧ Within K s' id := by
  refine .value hr fun v _ => (newNode_sound rfl ?_ ?_ (fun _ => hK) ?_).mono ?_
  · simpa [Node.subs, Node.scopeOf] using hr
  · simpa [Node.scopeOf, Node.binds, Claimable] using hs
  · trivial
  · exact fun id s' _ h => ⟨⟨v.type, v.rep, h.1⟩, h.2⟩

/-- A scope of variables. -/
theorem letIn_sound {owned : List ValueId} {strict : Option ValueId} {body : Nat}
    (hb : Within (fun u => K u ∨ u ∈ owned) s body) (ho : ∀ x ∈ owned, Past l x s)
    (hK : ∀ u, K u → u ≤ l ∨ Blank s u) (hs : ∀ x ∈ strict, x ∈ owned) :
    Sound J l (letIn owned strict body span) s fun id s' =>
      Joined K s id s' ∧ ∀ {K i}, Within K s i → Within K s' i := by
  refine .value hb fun v _ => (newNode_sound rfl ?_ ?_ (fun _ => hK) ?_).mono ?_
  · simpa [Node.subs, Node.scopeOf] using hb
  · exact fun x hx => ⟨ho x hx, by simp [Node.binds]⟩
  · cases strict with
    | none => trivial
    | some x => exact hs x rfl
  · exact fun id s' ht h => ⟨h.1.joined h.2, h.1.within ht⟩

end CoreLowering.Graph
