import CoreLowering.Proofs.Encoding.Dispatch
import CoreLowering.Proofs.Encoding.Packing

/-!
# Matches that read a field

A match with one arm that gives a field of a constructor, and a wildcard that
fails.  The wildcard takes all branches but one; its value is shared and in
each of them seen in the layout of the field.

Main statement: `matchConstr_yields`, matching data of the constructor gives
the field as it is kept in the data.
-/

namespace CoreLowering.Encoding

open CoreLowering.Graph
open CoreLowering.FirstOrder (Extends Lands availableIn_of_since)

variable {g s s' : State} {id fields : Nat} {t : Ty} {span : Span} {ρ : Given}
  {ps : List (Constructor × Nat)} {bs : List (Option ValueId)} {Δ : List ValueId}

/-! ## The bodies of arms -/

/-- The names that an arm gives to variables. -/
def armNames (a : Arm) (ps : List (ValueId × Nat)) : List (String × ValueId) :=
  ps.filterMap fun p => (givenName (some a) p.2).map (·, p.1)

/-- Gives a variable its name, if the arm has one for it. -/
def defineName (a : Arm) (p : ValueId × Nat) : LowerM Unit :=
  match givenName (some a) p.2 with
  | some name => define name p.1
  | none => pure ()

theorem defineNames_run (a : Arm) (ps : List (ValueId × Nat)) {frame : List (String × ValueId)}
    {rest : List (List (String × ValueId))} (h : s.scope = frame :: rest) :
    (ps.forM (defineName a)).run s =
      (.ok (), { s with scope := ((armNames a ps).reverse ++ frame) :: rest }) := by
  induction ps generalizing s frame with
  | nil =>
    rw [armNames, List.filterMap_nil, List.reverse_nil, List.nil_append, ← h]
    rfl
  | cons p ps ih =>
    have hnames : armNames a (p :: ps) =
        ((givenName (some a) p.2).map (·, p.1)).toList ++ armNames a ps := by
      rw [armNames, List.filterMap_cons]
      cases givenName (some a) p.2 <;> rfl
    rw [hnames]
    cases hname : givenName (some a) p.2 with
    | none =>
      have hskip : (defineName a p).run s = (.ok (), s) := by
        simp only [defineName, hname]
        rfl
      exact (run_bind_of_ok hskip).trans (ih h)
    | some name =>
      have hdefine : (defineName a p).run s =
          (.ok (), { s with scope := ((name, p.1) :: frame) :: rest }) := by
        simp only [defineName, hname, define, run_modify, h]
      refine (run_bind_of_ok hdefine).trans ?_
      rw [ih rfl]
      simp

/-- The body of an arm is lowered in a frame of its own. -/
theorem lowerArmBody_lands {lower : Lowerer} {m : Matching} {a : Arm} {binders : List ValueId}
    {P : ValueId → State → Prop} (hlen : a.binders.length ≤ binders.length) (hscope : s.scope ≠ [])
    (hP : ∀ id s' s'', Later 0 s' s'' → P id s' → P id s'')
    (hbody : ∀ s', Extends s s' → s'.scope = (armNames a binders.zipIdx).reverse :: s.scope →
      Lands (do
      let x ← lower a.body
      upcast x m.result a.body.span) s' P) : Lands (lowerArmBody lower m a binders) s P := by
  let s1 : State := { s with scope := (armNames a binders.zipIdx).reverse :: s.scope }
  have hpush : pushScope.run s = (.ok (), { s with scope := [] :: s.scope }) := rfl
  have hdefine : (binders.zipIdx.forM (defineName a)).run { s with scope := [] :: s.scope } =
      (.ok (), s1) := by
    rw [defineNames_run a _ rfl, List.append_nil]
  obtain ⟨x, s2, hx, e2, k2, hp⟩ := hbody s1 (.of_scope _) rfl
  obtain ⟨y, s3, hlower, hupcast⟩ := run_bind_ok.1 hx
  obtain ⟨frame, rest, hrest⟩ := List.exists_cons_of_ne_nil hscope
  have hpop : popScope.run s2 = (.ok (), { s2 with scope := s.scope }) := by
    rw [popScope, run_modify, k2]
    simp only [s1, hrest]
  refine ⟨x, { s2 with scope := s.scope }, ?_, (Extends.of_scope _).trans (e2.trans (.of_scope _)),
    rfl, hP x s2 _ (.of_values rfl rfl rfl) hp⟩
  rw [lowerArmBody, if_neg (by omega), run_bind_of_ok hpush]
  refine (run_bind_of_ok hdefine).trans ?_
  rw [run_bind_of_ok hlower, run_bind_of_ok hupcast, run_bind_of_ok hpop]
  rfl

theorem lookup_of_unique {l : List (String × ValueId)} {name : String} {x : ValueId}
    (hmem : (name, x) ∈ l) (h : ∀ y, (name, y) ∈ l → y = x) : l.lookup name = some x := by
  induction l with
  | nil => cases hmem
  | cons p l ih =>
    rw [List.lookup_cons]
    split
    · rename_i heq
      rw [beq_iff_eq] at heq
      rw [h p.2 (by simp [heq])]
    · rename_i hne
      refine ih ?_ fun y hy => h y (List.mem_cons_of_mem _ hy)
      rcases List.mem_cons.1 hmem with heq | hmem
      · simp [← heq] at hne
      · exact hmem

/-- An arm that gives the field number `j` of its constructor under the name
that it binds to it. -/
structure GivesField (a : Arm) (t : Ty) (j : Nat) : Prop where
  nodup : a.binders.Nodup
  body : ∃ span name, a.body = .node t span (.var name) ∧ a.binders[j]? = some name ∧
    name ≠ "" ∧ name ≠ Arm.wildcard

theorem GivesField.lookup {a : Arm} {j : Nat} {name : String} {xs : List ValueId} {x : Nat}
    (hnd : a.binders.Nodup) (hname : a.binders[j]? = some name)
    (hgiven : name ≠ "" ∧ name ≠ Arm.wildcard) (hx : xs[j]? = some x) :
    (armNames a xs.zipIdx).reverse.lookup name = some x := by
  have hmem : ∀ {y : ValueId}, (name, y) ∈ armNames a xs.zipIdx ↔
      ∃ k, xs[k]? = some y ∧ givenName (some a) k = some name := by
    intro y
    simp only [armNames, List.mem_filterMap, Option.map_eq_some_iff, Prod.exists, Prod.mk.injEq,
      List.mk_mem_zipIdx_iff_getElem?]
    grind
  have hgivenName : ∀ {k}, givenName (some a) k = some name → a.binders[k]? = some name := by
    intro k hk
    unfold givenName at hk
    grind
  refine lookup_of_unique (List.mem_reverse.2 (hmem.2 ⟨j, hx, ?_⟩)) fun y hy => ?_
  · simp [givenName, hname, hgiven]
  · obtain ⟨k, hk, hkname⟩ := hmem.1 (List.mem_reverse.1 hy)
    have hlt := (List.getElem?_eq_some_iff.1 (hgivenName hkname)).1
    have hkj : k = j :=
      (List.getElem?_inj hlt hnd).1 ((hgivenName hkname).trans hname.symm)
    rw [hkj, hx] at hk
    exact (Option.some.inj hk).symm

section

variable {m : Matching} {a w : Arm} {j fuel x : Nat} {xs : List ValueId} {n : Node} {r : Rep}

/-- The body of the arm is the variable of the field. -/
theorem GivesField.lowers (h : GivesField a t j) (ht : Stored t) (hm : m.result = t)
    (hlen : a.binders.length ≤ xs.length) (hscope : s.scope ≠ []) (hx : xs[j]? = some x)
    (hat : At s x n t r) :
    Lands (lowerArmBody (lowerExprIn (fuel + 1)) m a xs) s fun id _ => id = x := by
  obtain ⟨hnd, span, name, hbody, hname, hgiven⟩ := h
  obtain ⟨tc, args, rfl⟩ := ht.con
  refine lowerArmBody_lands hlen hscope (fun _ _ _ _ h => h) fun s1 e1 k1 => ?_
  have hlookup : s1.scope.flatten.lookup name = some x := by
    rw [k1, List.flatten_cons, List.lookup_append, GivesField.lookup hnd hname hgiven hx]
    rfl
  have hlower : Lands (lowerExprIn (fuel + 1) a.body) s1 fun id _ => id = x := by
    rw [hbody]
    refine .bind FirstOrder.point_lands fun _ s2 _ k2 _ => ?_
    refine .read (lookupName_run name) ?_
    rw [k2, hlookup]
    exact .pure rfl
  refine .bind hlower ?_
  rintro y s2 e2 - rfl
  refine ⟨y, s2, ?_, .refl, rfl, rfl⟩
  rw [hm]
  exact upcast_self (hat.later (e1.trans e2).later hat.valid.1) ht.plain.same

structure FailsWith (w : Arm) (t : Ty) (message : String) : Prop where
  wild : w.constr = Arm.wildcard
  bare : w.binders = []
  body : ∃ span, w.body = .node t span (.error message)

theorem FailsWith.lowers {message : String} (h : FailsWith w t message) (ht : Stored t)
    (hm : m.result = t) (hscope : s.scope ≠ []) :
    Lands (lowerArmBody (lowerExprIn (fuel + 1)) m w xs) s fun id s' =>
      Is s' id (.error message) t .error := by
  obtain ⟨-, hbare, span, hbody⟩ := h
  obtain ⟨tc, args, rfl⟩ := ht.con
  refine lowerArmBody_lands (by simp [hbare]) hscope (fun _ _ _ hl h => h.grow hl) ?_
  intro s1 e1 _
  have hlower : Lands (lowerExprIn (fuel + 1) w.body) s1 fun id s' =>
      Is s' id (.error message) (.con tc args) .error := by
    rw [hbody]
    refine .bind FirstOrder.point_lands fun _ s2 _ _ _ => ?_
    exact (newNode_is rfl rfl (by simp [Node.subs])).mono fun _ _ _ h => h.2
  refine .bind hlower fun id s2 e2 _ hid => ?_
  refine ⟨id, s2, ?_, .refl, rfl, hid⟩
  rw [hm]
  exact upcast_self hid.known ht.plain.same

end

/-! ## Branches -/

section

variable {m : Matching} {a w : Arm} {names : List String} {tag j : Nat} {message : String}

/-- The arms of all branches: one has an arm of its own, all others have the
wildcard. -/
def slotArms (a w : Arm) (tag n : Nat) : List (Option Arm) :=
  (List.replicate n (some w)).set tag (some a)

theorem assignArms_run (ha : isWildcard a = false) (hw : isWildcard w = true)
    (htag : names.idxOf? a.constr = some tag) :
    (assignArms names none (names.map fun _ => none) [a, w]).run s =
      (.ok (some w, (List.replicate names.length none).set tag (some a)), s) := by
  have hfree :
      (((List.replicate names.length (none : Option Arm))[tag]?).getD none).isSome = false := by
    rw [List.getElem?_replicate]
    split <;> rfl
  simp only [List.map_const', assignArms, ha, hw, htag, Option.isSome_none, Bool.false_or, hfree,
    Bool.false_eq_true, if_false, if_true]
  rfl

/-- **The branches of a match** with an arm for one name and a wildcard. -/
theorem resolve_lands (harms : m.arms = [a, w]) (ha : isWildcard a = false)
    (hw : isWildcard w = true) (htag : names.idxOf? a.constr = some tag) :
    Lands (m.resolve names) s fun slots _ => slots = ⟨slotArms a w tag names.length, none⟩ := by
  have hfilled : ((List.replicate names.length (none : Option Arm)).set tag (some a)).map
      (fun s => s.or (some w)) = slotArms a w tag names.length := by
    rw [List.map_set, List.map_replicate]
    rfl
  unfold Matching.resolve
  rw [harms]
  refine .read (assignArms_run ha hw htag) ?_
  simp only [hfilled]
  -- each branch has an arm, whether or not the wildcard is reached
  have hreport : ∀ {s : State} {f : String × Option Arm → LowerM Unit},
      f = (fun p => if p.2.isNone = true then
        warn .unreachableArm m.span ("no arm for " ++ p.1 ++ "; the branch fails at runtime")
        else pure ()) →
      Lands ((names.zip (slotArms a w tag names.length)).forM f) s fun _ _ => True := by
    rintro s f rfl
    refine .forM fun p _ s' _ => ?_
    split
    · exact FirstOrder.warn_lands
    · exact .pure trivial
  split
  · refine .bind FirstOrder.warn_lands fun _ _ _ _ _ => ?_
    exact .bind (hreport rfl) fun _ _ _ _ _ => .pure rfl
  · exact .bind (hreport rfl) fun _ _ _ _ _ => .pure rfl

theorem arm_slotArms {i n : Nat} (hi : i < n) (shared : Option ValueId) :
    (⟨slotArms a w tag n, shared⟩ : Slots).arm i = some (if i = tag then a else w) := by
  simp only [Slots.arm, slotArms, List.getElem?_set, List.length_replicate, List.getElem?_replicate,
    hi, if_true]
  split
  · rename_i h
    rw [if_pos (h ▸ hi), if_pos h.symm]
    rfl
  · rename_i h
    rw [if_neg (Ne.symm h)]
    rfl

/-- A value that gives a field as it is kept in the list of fields, and that
uses the list and some variables of its own. -/
structure FieldValue (s : State) (fields j : Nat) (t : Ty) (owned : List ValueId) (b : Nat) :
    Prop where
  known : ∃ n, At s b n t .packed
  used : ∀ u : Nat, u ∈ (s.usedOf b).ids → u ∈ owned ∨ u ∈ (s.usedOf fields).ids
  reads : ∀ g, Later 0 s g → ReadsItem g fields j b

namespace FieldValue

variable {owned : List ValueId} {b : Nat}

theorem grow (h : FieldValue s fields j t owned b) (hv : Valid s fields) (hl : Later 0 s s') :
    FieldValue s' fields j t owned b := by
  obtain ⟨⟨n, hat⟩, hused, hreads⟩ := h
  refine ⟨⟨n, hat.later hl hat.valid.1⟩, ?_, fun g hg => hreads g (hl.trans hg)⟩
  rw [hl.usedOf hat.valid.1 hat.valid, hl.usedOf hv.1 hv]
  exact hused

/-- The variables of its own are bound around the value. -/
theorem letIn_lands (h : FieldValue s fields j t owned id) (hv : Valid s fields) :
    Lands (letIn owned none id span) s fun b s' => FieldValue s' fields j t [] b := by
  obtain ⟨⟨n, hat⟩, hinside, hreads⟩ := h
  have hid := hat.valid
  obtain ⟨v, hval, -, rfl, hrep⟩ := hat
  refine .read (value_run hval) ?_
  rw [hrep]
  refine (newNode_at (by simpa [Node.subs] using hid)).mono ?_
  rintro b s' he ⟨-, hb, hused⟩
  have hl : Later 0 s s' := he.later
  refine ⟨⟨_, hb⟩, fun u hu => ?_, fun g hg => ?_⟩
  · rw [hused, mem_usedBy] at hu
    obtain ⟨⟨y, hy, huy⟩, hout⟩ := hu
    rw [Node.subs, List.mem_singleton] at hy
    subst hy
    rw [hl.usedOf hv.1 hv]
    exact .inr ((hinside u huy).resolve_left fun hmem => (hout u hmem).1 rfl)
  · have hnode := hg.node? hb.valid.1 hb.node
    have hreads := hreads g (hl.trans hg)
    refine ⟨fun ht => .node hnode rfl fun y hy => ?_,
      fun hc hd => .letIn hnode (hreads.comes hc hd)⟩
    simp only [reach, strict?, Node.rhs?, Node.subs, Option.toList_none, List.nil_append,
      List.mem_singleton] at hy
    exact hy ▸ hreads.tidy ht

end FieldValue

/-- The variable of a field. -/
theorem FieldsBound.field {fs : List (Field × Ty)} {xs owned : List ValueId} {f : Field × Ty}
    (h : FieldsBound s fields 0 fs xs owned) (hf : fs[j]? = some f) (ht : Stored f.2) :
    ∃ x : Nat, xs[j]? = some x ∧ FieldValue s fields j f.2 owned x := by
  obtain ⟨hlt, rfl⟩ := List.getElem?_eq_some_iff.1 hf
  have hlt' : j < xs.length := h.known.length_eq ▸ hlt
  obtain ⟨name, rhs, hx⟩ := h.known.get hlt hlt'
  refine ⟨xs[j], List.getElem?_eq_getElem hlt', ⟨.var name (some rhs), ?_⟩,
    h.used _ (List.getElem_mem hlt'), ?_⟩
  · rw [← ht.plain.packedRep s.decls]
    exact hx.known
  · simpa using h.reads j xs[j] (List.getElem?_eq_getElem hlt')

/-- The values of branches by their numbers, before branches meet: the field in
one branch, the failure in all others. -/
inductive ArmMade (s : State) (fields j tag : Nat) (t : Ty) (message : String) :
    Nat → Option ValueId → Prop where
  | field {b : Nat} : FieldValue s fields j t [] b →
      ArmMade s fields j tag t message tag (some b)
  | fails {i e : Nat} : i ≠ tag → Is s e (.error message) t .error →
      ArmMade s fields j tag t message i (some e)

theorem ArmMade.grow {i : Nat} {b : Option ValueId} (h : ArmMade s fields j tag t message i b)
    (hv : Valid s fields) (hl : Later 0 s s') : ArmMade s' fields j tag t message i b := by
  cases h with
  | field hb => exact .field (hb.grow hv hl)
  | fails hne he => exact .fails hne (he.grow hl)

theorem ArmMade.valid {i x : Nat} (h : ArmMade s fields j tag t message i (some x)) :
    Valid s x := by
  cases h with
  | field hb => exact hb.known.choose_spec.valid
  | fails _ he => exact he.valid

/-- What a match that reads a field is made of. -/
structure ReadsField (m : Matching) (a w : Arm) (t : Ty) (j : Nat) (message : String) : Prop where
  stored : Stored t
  result : m.result = t
  arms : m.arms = [a, w]
  named : isWildcard a = false
  gives : GivesField a t j
  fails : FailsWith w t message

theorem FailsWith.isWildcard (h : FailsWith w t message) : Graph.isWildcard w = true := by
  simp [Graph.isWildcard, h.wild]

/-- The arm of one constructor, in which its fields are bound. -/
def lowerConstrArm (lower : Lowerer) (m : Matching) (d : Decl) (args : List Ty)
    (fields : ValueId) (slots : Slots) (c : Constructor) (i : Nat) (a : Arm) :
    LowerM (Option ValueId × Slots) := do
  let (binders, owned) ← bindFields (some a) m.span (c.fields.zip (d.fieldTypes c args)) 0
    fields
  let (body, slots) ← lowerArm lower m slots i binders
  let body ←
    match body with
    | some id =>
      if owned.isEmpty || isWildcard a then pure (some id)
      else some <$> letIn owned none id a.span
    | none => pure none
  return (body, slots)

theorem lowerConstrArms_cons {lower : Lowerer} {d : Decl} {args : List Ty} {slots : Slots}
    {c : Constructor} {i : Nat} {rest : List (Constructor × Nat)} (h : slots.arm i = some a) :
    lowerConstrArms lower m d args fields slots ((c, i) :: rest) =
      lowerConstrArm lower m d args fields slots c i a >>= fun p => do
        return p.1 :: (← lowerConstrArms lower m d args fields p.2 rest) := by
  conv => lhs; unfold lowerConstrArms
  simp only [h, lowerConstrArm, bind_assoc, pure_bind]
  refine bind_congr ?_
  rintro ⟨xs, owned⟩
  refine bind_congr ?_
  rintro ⟨body, slots⟩
  cases body with
  | none => simp only [pure_bind]
  | some id =>
    dsimp only
    split <;> simp only [bind_assoc, pure_bind]

section

variable {d : Decl} {args : List Ty} {fuel n i : Nat} {c : Constructor} {shared : Option ValueId}
  (hm : ReadsField m a w t j message) (hw : s.target ≠ .unknown) (hscope : s.scope ≠ [])
  (hv : Valid s fields) (hfn : ∀ u ∈ d.fieldTypes c args, s.decls.family u ≠ .function)

include hw hv hfn in
theorem bindFields_fieldTypes (arm : Option Arm) :
    Lands (bindFields arm span (c.fields.zip (d.fieldTypes c args)) 0 fields) s fun p s' =>
      FieldsBound s' fields 0 (c.fields.zip (d.fieldTypes c args)) p.1 p.2 :=
  bindFields_reads hw hv arm (fun _ hf => hfn _ (List.of_mem_zip hf).2)

include hm hw hscope hv hfn

/-- The branch of the constructor whose field is read. -/
theorem fieldArm_made (hi : tag < n) (hlen : a.binders.length ≤ c.fields.length)
    (hj : (d.fieldTypes c args)[j]? = some t) :
    Lands (lowerConstrArm (lowerExprIn (fuel + 1)) m d args fields
        ⟨slotArms a w tag n, shared⟩ c tag a) s fun p s' =>
      ArmMade s' fields j tag t message tag p.1 ∧ p.2 = ⟨slotArms a w tag n, shared⟩ := by
  refine .bind (bindFields_fieldTypes hw hv hfn _) ?_
  rintro ⟨xs, owned⟩ s1 e1 k1 hb
  have l1 : Later 0 s s1 := e1.later
  have hv1 := l1.valid hv
  have hxs : xs.length = c.fields.length := by
    rw [← hb.known.length_eq]
    simp [Decl.fieldTypes]
  obtain ⟨f, hf⟩ : ∃ f, c.fields[j]? = some f := by
    have hlt := (List.getElem?_eq_some_iff.1 hj).1
    rw [Decl.fieldTypes, List.length_map] at hlt
    exact ⟨_, List.getElem?_eq_getElem hlt⟩
  obtain ⟨x, hx, hvalue⟩ := hb.field (f := (f, t)) (List.getElem?_zip_eq_some.2 ⟨hf, hj⟩) hm.stored
  obtain ⟨k, hat⟩ := hvalue.known
  refine .bind (P := fun p s' => p = (some x, ⟨slotArms a w tag n, shared⟩)) ?_ ?_
  · simp only [lowerArm, arm_slotArms hi, if_true, hm.named]
    refine .bind (hm.gives.lowers hm.stored hm.result (hxs ▸ hlen) (k1 ▸ hscope) hx hat) ?_
    rintro y s2 e2 - rfl
    exact .pure rfl
  rintro _ s2 e2 - rfl
  have l2 : Later 0 s1 s2 := e2.later
  have hvalue := hvalue.grow hv1 l2
  simp only [hm.named, Bool.or_false, pure_bind]
  split
  · rename_i hempty
    rw [List.isEmpty_iff.1 hempty] at hvalue
    exact .pure ⟨.field hvalue, rfl⟩
  · simp only [bind_map_left]
    refine .bind (hvalue.letIn_lands (l2.valid hv1)) fun b s3 _ _ hb => ?_
    exact .pure ⟨.field hb, rfl⟩

/-- The branch of any other constructor. -/
theorem wildArm_made (hi : i < n) (hne : i ≠ tag)
    (hshared : ∀ e : Nat, shared = some e → Is s e (.error message) t .error) :
    Lands (lowerConstrArm (lowerExprIn (fuel + 1)) m d args fields
        ⟨slotArms a w tag n, shared⟩ c i w) s fun p s' =>
      ∃ e : Nat, p = (some e, ⟨slotArms a w tag n, some e⟩) ∧
        Is s' e (.error message) t .error := by
  refine .bind (bindFields_fieldTypes hw hv hfn _) ?_
  rintro ⟨xs, owned⟩ s1 e1 k1 -
  have hwild := hm.fails.isWildcard
  refine .bind (P := fun p s' => ∃ e : Nat, p = (some e, ⟨slotArms a w tag n, some e⟩) ∧
    Is s' e (.error message) t .error) ?_ ?_
  · simp only [lowerArm, arm_slotArms hi, if_neg hne, hwild]
    cases shared with
    | some e =>
      exact .pure ⟨e, rfl, (hshared e rfl).grow e1.later⟩
    | none =>
      refine .bind (hm.fails.lowers hm.stored hm.result (k1 ▸ hscope)) fun e s2 e2 _ he => ?_
      exact .pure ⟨e, rfl, he⟩
  · rintro _ s2 e2 - ⟨e, rfl, he⟩
    simp only [hwild, Bool.or_true, if_true, pure_bind]
    exact .pure ⟨e, rfl, he⟩

end

/-- **The arms of all constructors** are lowered: one gives the field, all
others fail. -/
theorem lowerConstrArms_made {d : Decl} {args : List Ty} {fuel n i : Nat} {cs : List Constructor}
    {shared : Option ValueId} (hm : ReadsField m a w t j message) (hw : s.target ≠ .unknown)
    (hscope : s.scope ≠ []) (hv : Valid s fields) (hn : i + cs.length = n)
    (hfn : ∀ c ∈ cs, ∀ u ∈ d.fieldTypes c args, s.decls.family u ≠ .function)
    (hk : ∀ c, (c, tag) ∈ cs.zipIdx i →
      a.binders.length ≤ c.fields.length ∧ (d.fieldTypes c args)[j]? = some t)
    (hshared : ∀ e : Nat, shared = some e → Is s e (.error message) t .error) :
    Lands (lowerConstrArms (lowerExprIn (fuel + 1)) m d args fields
        ⟨slotArms a w tag n, shared⟩ (cs.zipIdx i)) s fun bs s' =>
      List.Forall₂ (fun p b => ArmMade s' fields j tag t message p.2 b) (cs.zipIdx i) bs := by
  induction cs generalizing s i shared with
  | nil => exact .pure .nil
  | cons c cs ih =>
    rw [List.zipIdx_cons] at hk ⊢
    rw [List.forall_mem_cons] at hfn
    rw [List.length_cons] at hn
    have hi : i < n := by omega
    rw [lowerConstrArms_cons (arm_slotArms hi shared)]
    -- the rest goes on with the failure that the wildcard has become, if it has
    have hrest : ∀ {s1 : State} {b : Option ValueId} {shared : Option ValueId}, Extends s s1 →
        s1.scope = s.scope → ArmMade s1 fields j tag t message i b →
        (∀ e : Nat, shared = some e → Is s1 e (.error message) t .error) →
        Lands (do
          return b :: (← lowerConstrArms (lowerExprIn (fuel + 1)) m d args fields
            ⟨slotArms a w tag n, shared⟩ (cs.zipIdx (i + 1)))) s1 fun bs s' =>
          List.Forall₂ (fun p b => ArmMade s' fields j tag t message p.2 b)
            ((c, i) :: cs.zipIdx (i + 1)) bs := by
      intro s1 b shared e1 k1 hb hshared
      have hv1 : Valid s1 fields := e1.valid hv
      refine .bind (ih (e1.target ▸ hw) (k1 ▸ hscope) hv1 (by omega)
        (fun c hc u hu => e1.decls ▸ hfn.2 c hc u hu)
        (fun c hc => hk c (List.mem_cons_of_mem _ hc)) hshared) fun bs s2 e2 _ hbs => ?_
      exact .pure (.cons (hb.grow hv1 e2.later) hbs)
    by_cases htag : i = tag
    · subst htag
      rw [if_pos rfl]
      obtain ⟨hlen, hj⟩ := hk c (List.mem_cons_self ..)
      refine .bind (fieldArm_made hm hw hscope hv hfn.1 hi hlen hj) ?_
      rintro ⟨b, _⟩ s1 e1 k1 ⟨hb, rfl⟩
      exact hrest e1 k1 hb fun e he => (hshared e he).grow e1.later
    · rw [if_neg htag]
      refine .bind (wildArm_made hm hw hscope hv hfn.1 hi htag hshared) ?_
      rintro _ s1 e1 k1 ⟨e, rfl, he⟩
      refine hrest e1 k1 (.fails htag he) ?_
      rintro _ ⟨⟩
      exact he

/-! ## Where branches meet -/

/-- Values that are packed meet in that layout, whatever fails beside them. -/
theorem commonRepFrom_packed {ds : Decls} {first : Option Rep} {rs : List Rep}
    (hrs : ∀ r ∈ rs, r = .packed ∨ r = .error)
    (h : first = some .packed ∨ first = none ∧ .packed ∈ rs) :
    commonRepFrom ds t first rs = .packed := by
  induction rs generalizing first with
  | nil =>
    rcases h with rfl | ⟨-, hmem⟩
    · rfl
    · cases hmem
  | cons r rs ih =>
    rw [List.forall_mem_cons] at hrs
    rcases hrs.1 with rfl | rfl
    · rcases h with rfl | ⟨rfl, -⟩
      · have hc : ds.compatible t .packed .packed = true := by
          simp [Decls.compatible, Decls.alwaysCompatible]
        simp only [commonRepFrom, hc, if_true]
        exact ih hrs.2 (.inl rfl)
      · exact ih hrs.2 (.inl rfl)
    · have hskip : commonRepFrom ds t first (.error :: rs) =
          commonRepFrom ds t first rs := by
        cases first <;> rfl
      rw [hskip]
      exact ih hrs.2 (h.imp_right (And.imp_right (by simp)))

/-- The layouts that are looked at to find the one in which values meet. -/
theorem commonRep_found {ids : List ValueId} (type : Ty) (h : ∀ x : Nat, x ∈ ids → Valid s x) :
    ∃ rs, (commonRep ids type).run s =
        (.ok (commonRepFrom s.decls type none rs), s) ∧
      ∀ r, r ∈ rs ↔ ∃ x : Nat, x ∈ ids ∧ ∃ n t, At s x n t r := by
  suffices ∃ vs, (ids.mapM value).run s = (.ok vs, s) ∧
      ∀ r, r ∈ vs.map (·.rep) ↔ ∃ x : Nat, x ∈ ids ∧ ∃ n t, At s x n t r by
    obtain ⟨vs, hrun, hvs⟩ := this
    refine ⟨vs.map (·.rep), ?_, hvs⟩
    rw [commonRep, run_bind_of_ok hrun, run_bind_of_ok decls_run,
      run_pure]
  induction ids with
  | nil => exact ⟨[], rfl, by simp⟩
  | cons x ids ih =>
    rw [List.forall_mem_cons] at h
    obtain ⟨v, hv⟩ := h.1.exists_value
    obtain ⟨vs, hrun, hvs⟩ := ih h.2
    refine ⟨v :: vs, ?_, fun r => ?_⟩
    · rw [List.mapM_cons, run_bind_of_ok (value_run hv), run_bind_of_ok hrun,
        run_pure]
    · have hx : (∃ n t, At s x n t r) ↔ r = v.rep := by
        constructor
        · rintro ⟨n, t, w, hw, -, -, rfl⟩
          rw [hv, Option.some.injEq] at hw
          rw [hw]
        · rintro rfl
          exact ⟨_, _, v, hv, rfl, rfl, rfl⟩
      rw [List.map_cons, List.mem_cons, hvs]
      simp only [List.mem_cons, or_and_right, exists_or, exists_eq_left, hx]

theorem At.rep_unique {n n' : Node} {t' : Ty} {r r' : Rep} (h : At s id n t r)
    (h' : At s id n' t' r') : r = r' := by
  obtain ⟨v, hv, -, -, rfl⟩ := h
  obtain ⟨w, hw, -, -, rfl⟩ := h'
  rw [hv, Option.some.injEq] at hw
  rw [hw]

/-- The values of branches by their numbers, where branches meet: the field, or
a failure seen in the layout of the field. -/
inductive BranchMade (s : State) (fields j tag : Nat) (t : Ty) : Nat → Nat → Prop where
  | field {b : Nat} : FieldValue s fields j t [] b → BranchMade s fields j tag t tag b
  | fails {i b e : Nat} {message : String} : i ≠ tag → Is s b (.reinterpret e) t .packed →
      Is s e (.error message) t .error → BranchMade s fields j tag t i b

namespace BranchMade

variable {i b : Nat}

theorem grow (h : BranchMade s fields j tag t i b) (hv : Valid s fields) (hl : Later 0 s s') :
    BranchMade s' fields j tag t i b := by
  cases h with
  | field hb => exact .field (hb.grow hv hl)
  | fails hne hb he => exact .fails hne (hb.grow hl) (he.grow hl)

theorem known (h : BranchMade s fields j tag t i b) : ∃ n, At s b n t .packed := by
  cases h with
  | field hb => exact hb.known
  | fails _ hb _ => exact ⟨_, hb.known⟩

theorem used (h : BranchMade s fields j tag t i b) {u : Nat} (hu : u ∈ (s.usedOf b).ids) :
    u ∈ (s.usedOf fields).ids := by
  cases h with
  | field hb => exact (hb.used u hu).resolve_left List.not_mem_nil
  | fails _ hb he =>
    rcases (hb.used u).1 hu with ⟨-, hid⟩ | ⟨x, hx, hux⟩
    · cases hid
    · rw [part_reinterpret.1 hx] at hux
      rcases (he.used u).1 hux with ⟨-, hid⟩ | ⟨y, hy, -⟩
      · cases hid
      · simp [Part, Node.rhs?, Node.subs] at hy

theorem tidy (h : BranchMade s fields j tag t i b) (hl : Later 0 s g) (hf : Tidy g Δ fields) :
    Tidy g Δ b := by
  cases h with
  | field hb => exact (hb.reads g hl).tidy hf
  | fails _ hb he =>
    refine (hb.grow hl).tidy rfl rfl fun x hx => ?_
    rw [part_reinterpret.1 hx]
    exact .leaf (he.grow hl).node rfl

theorem field_of_tag (h : BranchMade s fields j tag t tag b) : FieldValue s fields j t [] b := by
  cases h with
  | field hb => exact hb
  | fails hne => exact absurd rfl hne

end BranchMade

/-- A branch is brought into the layout of the field. -/
theorem ArmMade.toRep_lands {i : Nat} {b : Option ValueId}
    (h : ArmMade s fields j tag t message i b) (ht : Stored t) :
    ∃ id : Nat, b = some id ∧
      Lands (toRep id .packed) s fun out s' => BranchMade s' fields j tag t i out := by
  cases h with
  | @field id hb =>
    obtain ⟨n, hat⟩ := hb.known
    refine ⟨id, rfl, id, s, toRep_same hat, .refl, rfl, .field hb⟩
  | @fails _ e hne he =>
    have hc : s.decls.compatible t .error .packed = true := by
      simp [Decls.compatible, Decls.alwaysCompatible]
    refine ⟨e, rfl, ?_⟩
    refine (toRep_view he.known (by decide) hc (by simp) ht.plain.ne_missing).mono ?_
    rintro out s' he' ⟨-, hout⟩
    exact .fails hne hout (he.grow he'.later)

theorem toReps_lands (ht : Stored t) (hv : Valid s fields)
    (h : List.Forall₂ (fun p b => ArmMade s fields j tag t message p.2 b) ps bs) :
    Lands (bs.mapM fun b =>
        match b with
        | some id => toRep id .packed
        | none => typeErrorValue "non-exhaustive match" m.result m.span) s fun out s' =>
      List.Forall₂ (fun q b => BranchMade s' fields j tag t q.2 b) ps out := by
  induction ps generalizing s bs with
  | nil =>
    cases h
    exact .pure .nil
  | cons q ps ih =>
    cases h with
    | @cons _ b _ bs hb hbs =>
      obtain ⟨x, rfl, hto⟩ := hb.toRep_lands ht
      rw [List.mapM_cons]
      refine .bind hto fun y s1 e1 _ hy => ?_
      have l1 : Later 0 s s1 := e1.later
      have hbs := hbs.imp fun _ _ hb => hb.grow hv l1
      refine .bind (ih (l1.valid hv) hbs) fun ys s2 e2 _ hys => ?_
      exact .pure (.cons (hy.grow (l1.valid hv) e2.later) hys)

/-- **Branches meet in the layout of the field.** -/
theorem meet_lands (hm : ReadsField m a w t j message) (hv : Valid s fields)
    (h : List.Forall₂ (fun p b => ArmMade s fields j tag t message p.2 b) ps bs)
    (htag : ∃ p ∈ ps, p.2 = tag) :
    Lands (meet m bs) s fun p s' => p.2 = .packed ∧
      List.Forall₂ (fun q b => BranchMade s' fields j tag t q.2 b) ps p.1 := by
  have harms : (∀ x : Nat, x ∈ bs.filterMap (fun b => b) →
      ∃ i, ArmMade s fields j tag t message i (some x)) ∧
      ∀ q ∈ ps, ∃ x : Nat, x ∈ bs.filterMap (fun b => b) ∧
        ArmMade s fields j tag t message q.2 (some x) := by
    clear htag
    induction h with
    | nil => simp
    | @cons q b ps bs hb _ ih =>
      obtain ⟨x, rfl, -⟩ := hb.toRep_lands hm.stored
      have hcons : (some x :: bs).filterMap (fun b => b) = x :: bs.filterMap (fun b => b) := rfl
      rw [hcons, List.forall_mem_cons, List.forall_mem_cons]
      refine ⟨⟨⟨_, hb⟩, ih.1⟩, ⟨x, List.mem_cons_self .., hb⟩, fun q hq => ?_⟩
      obtain ⟨y, hy, harm⟩ := ih.2 q hq
      exact ⟨y, List.mem_cons_of_mem _ hy, harm⟩
  obtain ⟨rs, hrun, hrs⟩ := commonRep_found (s := s) m.result fun x hx => by
    obtain ⟨i, harm⟩ := harms.1 x hx
    exact harm.valid
  have hrep : commonRepFrom s.decls m.result none rs = .packed := by
    refine commonRepFrom_packed (fun r hr => ?_) (.inr ⟨rfl, (hrs _).2 ?_⟩)
    · obtain ⟨x, hx, n, t', hat⟩ := (hrs r).1 hr
      obtain ⟨i, harm⟩ := harms.1 x hx
      cases harm with
      | field hb =>
        obtain ⟨_, hb⟩ := hb.known
        exact .inl (hat.rep_unique hb)
      | fails _ he => exact .inr (hat.rep_unique he.known)
    · obtain ⟨q, hq, rfl⟩ := htag
      obtain ⟨x, hx, harm⟩ := harms.2 q hq
      cases harm with
      | field hb => exact ⟨x, hx, hb.known.imp fun _ h => ⟨_, h⟩⟩
      | fails hne => exact absurd rfl hne
  rw [hrep] at hrun
  exact .read hrun (.bind (toReps_lands hm.stored hv h) fun out s' _ _ hout => .pure ⟨rfl, hout⟩)

/-! ## Matches -/

theorem toNat_ofNat (h : tag < UInt64.size) : (UInt64.ofNat tag).toNat = tag :=
  UInt64.toNat_ofNat_of_lt h

theorem call_unConstrData (h : tag < UInt64.size) (items : List Data) :
    Machine.call .unConstrData [.con (.data (.constr (.ofNat tag) items))] =
      .ok (.con (.pairOf (.integer tag) (.dataList items))) := by
  have hword : ∀ word : UInt64, Machine.call .unConstrData [.con (.data (.constr word items))] =
      .ok (.con (.pairOf (.integer word.toNat) (.dataList items))) := fun _ => rfl
  rw [hword, toNat_ofNat h]

/-- What is known of a declaration, the constructor of which a match takes
apart. -/
structure TakesApart (ds : Decls) (d : Decl) (args : List Ty) (k : Constructor) (tag : Nat)
    (a : Arm) (t : Ty) (j : Nat) : Prop where
  constr : d.constructors[tag]? = some k
  binders : a.binders.length ≤ k.fields.length
  field : (d.fieldTypes k args)[j]? = some t
  noFunction : ∀ c ∈ d.constructors, ∀ u ∈ d.fieldTypes c args, ds.family u ≠ .function

/-- A value that gives a field of what a tag and a list of fields make up. -/
structure FieldTaken (s : State) (native : Bool) (tagVar fields tag j : Nat) (t : Ty) (id : Nat) :
    Prop where
  known : ∃ n, At s id n t .packed
  used : native = true → ∀ u : Nat, u ∈ (s.usedOf id).ids →
    u ∈ (s.usedOf tagVar).ids ∨ u ∈ (s.usedOf fields).ids
  tidy : ∀ g, Later 0 s g → ∀ Δ : List ValueId, Tidy g Δ tagVar → Tidy g Δ fields → Tidy g Δ id
  comes : ∀ g, Later 0 s g → ∀ ρ ds x, Comes g ρ tagVar (.con (.integer tag)) →
    Comes g ρ fields (.con (.dataList ds)) → ds[j]? = some x → Comes g ρ id (.con (.data x))

theorem takenBranch_of_lt {native : Bool} {bs : List ValueId} {b : ValueId}
    (h : bs[tag]? = some b) : takenBranch native bs tag = some b := by
  have hlt := (List.getElem?_eq_some_iff.1 h).1
  rw [takenBranch, Nat.min_eq_left (by omega), h, ite_self]

/-- **The switch on the tag** takes the branch that gives the field. -/
theorem constrArms_takes {d : Decl} {args : List Ty} {k : Constructor} {tagVar : Nat} {n : Node}
    {fuel : Nat} (hm : ReadsField m a w t j message) (hd : TakesApart s.decls d args k tag a t j)
    (hw : s.target ≠ .unknown) (hscope : s.scope ≠ []) (htag : At s tagVar n .integer .constant)
    (hvar : n.isIdentifiable = true) (hv : Valid s fields) :
    Lands (constrArms (lowerExprIn (fuel + 1)) m
        ⟨slotArms a w tag d.constructors.length, none⟩ d args tagVar fields) s fun id s' =>
      FieldTaken s' (isNative s.target) tagVar fields tag j t id := by
  have hlt := (List.getElem?_eq_some_iff.1 hd.constr).1
  have hmem : (k, tag) ∈ d.constructors.zipIdx := List.mk_mem_zipIdx_iff_getElem?.2 hd.constr
  refine .bind (lowerConstrArms_made hm hw hscope hv (Nat.zero_add _) hd.noFunction ?_ (by simp)) ?_
  · intro c hc
    rw [List.mk_mem_zipIdx_iff_getElem?, hd.constr, Option.some.injEq] at hc
    exact hc ▸ ⟨hd.binders, hd.field⟩
  intro arms s1 e1 _ harms
  have l1 : Later 0 s s1 := e1.later
  refine .bind (meet_lands hm (l1.valid hv) harms ⟨_, hmem, rfl⟩) ?_
  rintro ⟨bs, rep⟩ s2 e2 - ⟨rfl, hbs⟩
  have e12 : Extends s s2 := e1.trans e2
  have l12 : Later 0 s s2 := e12.later
  have hv2 := l12.valid hv
  -- the branch of the tag
  have hlen : d.constructors.zipIdx.length = bs.length := hbs.length_eq
  rw [List.length_zipIdx] at hlen
  have hall : ∀ b : Nat, b ∈ bs → ∃ i, BranchMade s2 fields j tag t i b := by
    intro b hb
    obtain ⟨i, hi, rfl⟩ := List.getElem_of_mem hb
    exact ⟨_, hbs.get (by simpa [hlen] using hi) hi⟩
  obtain ⟨b, hb, hfield⟩ : ∃ b : Nat, bs[tag]? = some b ∧ FieldValue s2 fields j t [] b := by
    have hmade := hbs.get (i := tag) (by simpa using hlt) (hlen ▸ hlt)
    simp only [List.get_eq_getElem, List.getElem_zipIdx, Nat.zero_add] at hmade
    exact ⟨bs[tag], List.getElem?_eq_getElem (hlen ▸ hlt), hmade.field_of_tag⟩
  rw [hm.result]
  refine (switchInteger_takes (e12.target ▸ hw) (htag.later l12 htag.valid.1) hvar ?_
    fun b hb => (hall b hb).choose_spec.known).mono ?_
  · rintro rfl
    cases hb
  rintro id s3 e3 ⟨hat, hused, h⟩
  have l3 : Later 0 s2 s3 := e3.later
  rw [e12.target] at hused h
  refine ⟨hat, fun hn u hu => ?_, fun g hg Δ htag hf => ?_, fun g hg ρ ds x htag hf hx => ?_⟩
  · refine (hused hn u hu).imp_right fun ⟨b, hb, hub⟩ => ?_
    obtain ⟨i, hmade⟩ := hall b hb
    exact (hmade.grow hv2 l3).used hub
  · refine (h g hg).1 Δ htag fun b hb => ?_
    obtain ⟨i, hmade⟩ := hall b hb
    exact hmade.tidy (l3.trans hg) hf
  · exact (h g hg).2 ρ tag b _ htag (takenBranch_of_lt hb)
      ((hfield.reads g (l3.trans hg)).comes hf hx)

/-- A variable without a definition, which uses nothing but itself. -/
def BlankVar (s : State) (id : Nat) (t : Ty) (r : Rep) : Prop :=
  ∃ x, At s id (.var x none) t r ∧ ∀ u : Nat, u ∈ (s.usedOf id).ids ↔ u = id

namespace BlankVar

variable {y : Nat} {r : Rep}

theorem grow (h : BlankVar s y t r) (hl : Later 0 s s') : BlankVar s' y t r := by
  obtain ⟨x, hat, hused⟩ := h
  refine ⟨x, hat.later hl hat.valid.1, ?_⟩
  rwa [hl.usedOf hat.valid.1 hat.valid]

theorem blank (h : BlankVar s y t r) : Blank s y := by
  obtain ⟨x, hat, -⟩ := h
  exact ⟨x, hat.node⟩

theorem tidy (h : BlankVar s y t r) (hy : y ∈ Δ) : Tidy s Δ y := by
  obtain ⟨x, hat, hused⟩ := h
  exact .given hy hat.node rfl fun u hu hne => absurd ((hused u).1 hu) hne

theorem comes {c : Constant} (h : BlankVar s y t r) (hc : ρ.lookup y = some c) :
    Comes s ρ y (.con c) := by
  obtain ⟨x, hat, -⟩ := h
  exact .given hat.node hc

end BlankVar

theorem bindNative_blank {bs : List Binder} :
    Lands (bindNative span bs) s fun ids s' => ids.Nodup ∧ (∀ y : Nat, y ∈ ids → s.size < y) ∧
      List.Forall₂ (fun b y => BlankVar s' y b.type b.rep) bs ids := by
  unfold bindNative
  induction bs generalizing s with
  | nil => exact .pure ⟨.nil, by simp, .nil⟩
  | cons b bs ih =>
    rw [List.mapM_cons]
    refine .bind newBinder_at ?_
    rintro y s1 e1 - ⟨hlt, x, hat, hused⟩
    refine .bind ih ?_
    rintro ys s2 e2 - ⟨hnd, hlts, hys⟩
    have hy : BlankVar s1 y b.type b.rep := ⟨x, hat, hused⟩
    have hsize := e1.size
    have hvalid := hat.valid.2
    refine .pure ⟨List.nodup_cons.2 ⟨fun hmem => ?_, hnd⟩, ?_, .cons (hy.grow e2.later) hys⟩
    · have := hlts y hmem
      omega
    · rw [List.forall_mem_cons]
      exact ⟨hlt, fun z hz => Nat.lt_of_le_of_lt hsize (hlts z hz)⟩

theorem bind_native {c : OpenCase} (hc : c.native = true) {branch : Nat} {bs : List Binder} :
    Lands (c.bind branch bs) s fun p s' => ∃ ids : List ValueId,
      p = ({ c with binders := c.binders.set branch ids }, ids) ∧ ids.Nodup ∧
        List.Forall₂ (fun b y => BlankVar s' y b.type b.rep) bs ids := by
  unfold OpenCase.bind
  rw [if_pos hc]
  refine .bind bindNative_blank ?_
  rintro ids s1 - - ⟨hnd, -, hids⟩
  exact .pure ⟨ids, rfl, hnd, hids⟩

/-- The variables of a native case on data: a tag and a list of fields in the
first branch, one variable in each of the others. -/
theorem bindData_native {x : Nat} :
    Lands (bindData ⟨.data, true, x, [], List.replicate 5 [], span⟩ fun _ => none) s
      fun p s' => ∃ (tag fields : Nat) (rest : List (List ValueId)),
        p = (⟨.data, true, x, [], [tag, fields] :: rest, span⟩, [tag, fields] :: rest) ∧
        tag ≠ fields ∧ BlankVar s' tag .integer .constant ∧
        BlankVar s' fields dataListT .constant ∧
        ∀ y : Nat, y ∈ rest.flatten → Blank s' y := by
  have single : ∀ {s : State} {c : OpenCase} (branch : Nat) (b : Binder),
      c.native = true → Lands (c.bind branch [b]) s fun p s' => ∃ y : Nat,
        p = ({ c with binders := c.binders.set branch [y] }, [y]) ∧ BlankVar s' y b.type b.rep := by
    intro s c branch b hc
    refine (bind_native hc).mono ?_
    rintro _ s' - ⟨ids, rfl, -, hids⟩
    cases hids with
    | cons hy hnil =>
      cases hnil
      exact ⟨_, rfl, hy⟩
  refine .bind (bind_native rfl) ?_
  rintro _ s1 - - ⟨ids, rfl, hnd, hids⟩
  obtain ⟨tag, fields, rfl, htag, hfields⟩ : ∃ tag fields : Nat, ids = [tag, fields] ∧
      BlankVar s1 tag .integer .constant ∧ BlankVar s1 fields dataListT .constant := by
    cases hids with
    | cons htag hids =>
      cases hids with
      | cons hfields hnil =>
        cases hnil
        exact ⟨_, _, rfl, htag, hfields⟩
  refine .bind (single 1 _ rfl) ?_
  rintro _ s2 e2 - ⟨y1, rfl, h1⟩
  refine .bind (single 2 _ rfl) ?_
  rintro _ s3 e3 - ⟨y2, rfl, h2⟩
  refine .bind (single 3 _ rfl) ?_
  rintro _ s4 e4 - ⟨y3, rfl, h3⟩
  refine .bind (single 4 _ rfl) ?_
  rintro _ s5 e5 - ⟨y4, rfl, h4⟩
  have l5 : Later 0 s4 s5 := e5.later
  have l4 : Later 0 s3 s5 := e4.later.trans l5
  have l3 : Later 0 s2 s5 := e3.later.trans l4
  have l2 : Later 0 s1 s5 := e2.later.trans l3
  refine .pure ⟨tag, fields, [[y1], [y2], [y3], [y4]], rfl, by simpa using hnd, htag.grow l2,
    hfields.grow l2, ?_⟩
  simpa using ⟨(h1.grow l3).blank, (h2.grow l4).blank, (h3.grow l5).blank, h4.blank⟩

/-- Branches that are left out fail. -/
theorem fillBranches_none (n : Nat) :
    Lands (fillBranches t span (List.replicate n none)) s fun bs s' => bs.length = n ∧
      ∀ b : Nat, b ∈ bs → ∃ message, Is s' b (.typeError message) t .error := by
  unfold fillBranches
  induction n generalizing s with
  | zero => exact .pure ⟨rfl, by simp⟩
  | succ n ih =>
    rw [List.replicate_succ, List.mapM_cons]
    refine .bind
      (newNode_is (n := .typeError "unreachable branch") rfl rfl (by simp [Node.subs])) ?_
    rintro b s1 e1 - ⟨-, hb⟩
    refine .bind ih ?_
    rintro bs s2 e2 - ⟨hlen, hbs⟩
    exact .pure ⟨congrArg (· + 1) hlen,
      List.forall_mem_cons.2 ⟨⟨_, hb.grow e2.later⟩, hbs⟩⟩

/-- A native case on data, of which the first branch only gives a value. -/
theorem finishData_lands {x inner : Nat} {binders : List (List ValueId)} {r : Rep}
    (hx : Valid s x) (hinner : Valid s inner) :
    Lands (OpenCase.finish ⟨.data, true, x, [], binders, span⟩
        [some inner, none, none, none, none] t r) s fun id s' => ∃ bs : List ValueId,
      At s' id (.caseOf .data true x (inner :: bs) [] binders) t r ∧ bs ≠ [] ∧
      (∀ b : Nat, b ∈ bs → ∃ n, s'.node? b = some n ∧ n.isLeaf = true) ∧
      ∀ u : Nat, u ∈ (s'.usedOf id).ids →
        (u ∈ (s'.usedOf x).ids ∨ u ∈ (s'.usedOf inner).ids) ∧ u ∉ binders.flatten := by
  refine .bind (P := fun bs s' => ∃ bs' : List ValueId, bs = inner :: bs' ∧ bs'.length = 4 ∧
    ∀ b : Nat, b ∈ bs' → ∃ message, Is s' b (.typeError message) t .error) ?_ ?_
  · unfold fillBranches
    rw [List.mapM_cons, pure_bind]
    exact .bind (fillBranches_none 4) fun bs _ _ _ hbs => .pure ⟨bs, rfl, hbs⟩
  rintro _ s1 e1 - ⟨bs, rfl, hlen, hbs⟩
  have l1 : Later 0 s s1 := e1.later
  have hx1 := l1.valid hx
  have hinner1 := l1.valid hinner
  refine (newNode_at ?_).mono ?_
  · rw [Node.subs, List.forall_mem_cons, List.forall_mem_cons]
    refine ⟨hx1, hinner1, fun b hb => ?_⟩
    obtain ⟨message, hb⟩ := hbs b hb
    exact hb.valid
  rintro id s2 e2 ⟨-, hat, hused⟩
  have l2 : Later 0 s1 s2 := e2.later
  refine ⟨bs, hat, List.ne_nil_of_length_pos (by omega), fun b hb => ?_, fun u hu => ?_⟩
  · obtain ⟨message, hb⟩ := hbs b hb
    exact ⟨_, (hb.grow l2).node, rfl⟩
  · rw [hused, mem_usedBy] at hu
    obtain ⟨⟨y, hy, huy⟩, hscope⟩ := hu
    rw [l2.usedOf hx1.1 hx1, l2.usedOf hinner1.1 hinner1]
    refine ⟨?_, fun hmem => (hscope u (by simpa [Node.scopeOf] using hmem)).1 rfl⟩
    rw [Node.subs, List.mem_cons, List.mem_cons] at hy
    rcases hy with rfl | rfl | hy
    · exact .inl huy
    · exact .inr huy
    · obtain ⟨message, hb⟩ := hbs y hy
      rcases (hb.used u).1 huy with ⟨-, hid⟩ | ⟨z, hz, -⟩
      · cases hid
      · simp [Part, Node.rhs?, Node.subs] at hz

section

variable {d : Decl} {args : List Ty} {k : Constructor} {fuel x : Nat} {items : List Data}
  {item : Data} (hm : ReadsField m a w t j message)
  (hd : TakesApart s.decls d args k tag a t j) (hw : s.target ≠ .unknown) (hscope : s.scope ≠ [])
  (hx : Yields s x (.data (.constr (.ofNat tag) items))) (hlt : tag < UInt64.size)
  (hitem : items[j]? = some item)

include hm hd hw hscope hx hlt hitem

/-- A match by a native case. -/
theorem nativeMatch_yields (hn : isNative s.target = true) :
    Lands (do
        let opened ← beginCase .data x m.span
        let (opened, binders) ← bindData opened fun _ => none
        match binders with
        | [tagVar, fields] :: _ =>
          let inner ← constrArms (lowerExprIn (fuel + 1)) m
            ⟨slotArms a w tag d.constructors.length, none⟩ d args tagVar fields
          let v ← value inner
          opened.finish [some inner, none, none, none, none] v.type v.rep
        | _ => failAt (.noBinders .data) m.span) s fun id s' =>
      Yields s' id (.data item) ∧ ∃ n, At s' id n t .packed ∧ isOperation n = true := by
  refine .bind (beginCase_native hn) ?_
  rintro _ s1 e1 k1 rfl
  refine .bind bindData_native ?_
  rintro _ s2 e2 k2 ⟨tagVar, fields, rest, rfl, hne, htag, hfields, hrest⟩
  have e : Extends s s2 := e1.trans e2
  have hx2 := hx.grow e.later
  obtain ⟨tagName, htagAt, htagUsed⟩ := id htag
  obtain ⟨fieldsName, hfieldsAt, hfieldsUsed⟩ := id hfields
  refine .bind (constrArms_takes hm (e.decls ▸ hd) (e.target ▸ hw) ?_ htagAt rfl
    hfieldsAt.valid) ?_
  · rw [k2, k1]
    exact hscope
  intro inner s3 e3 _ hinner
  have l3 : Later 0 s2 s3 := e3.later
  obtain ⟨n, v, hv, -, rfl, hrep⟩ := hinner.known
  refine .read (value_run hv) ?_
  rw [hrep]
  refine (finishData_lands (l3.valid hx2.valid) (valid_of_value hv)).mono ?_
  rintro out s4 e4 ⟨bs, hat, hne', hleaf, hused⟩
  have l4 : Later 0 s3 s4 := e4.later
  have l24 : Later 0 s2 s4 := l3.trans l4
  have hinnerValid := valid_of_value hv
  -- what the case uses is used by what it takes apart, for its own variables are bound in it
  have hinside : ∀ u : Nat, u ∈ (s4.usedOf out).ids → u ∈ (s4.usedOf x).ids := by
    intro u hu
    obtain ⟨hu, hscope⟩ := hused u hu
    refine hu.resolve_right fun hu => hscope ?_
    rw [l4.usedOf hinnerValid.1 hinnerValid] at hu
    rcases hinner.used (e.target ▸ hn) u hu with hu | hu
    · rw [l3.usedOf htagAt.valid.1 htagAt.valid, htagUsed] at hu
      simp [hu]
    · rw [l3.usedOf hfieldsAt.valid.1 hfieldsAt.valid, hfieldsUsed] at hu
      simp [hu]
  have hleafs : ∀ g, Later 0 s4 g → ∀ b : Nat, b ∈ bs →
      ∃ n, g.node? b = some n ∧ n.isLeaf = true := by
    intro g hg b hb
    obtain ⟨n, hn, hl⟩ := hleaf b hb
    exact ⟨n, hg.node? (valid_of_node? hn).1 hn, hl⟩
  refine ⟨⟨hat.valid, fun g hg => ?_, fun g hg ρ => ?_⟩, _, hat, rfl⟩
  all_goals
    have hnode := hg.node? hat.valid.1 hat.node
    have hg2 := l24.trans hg
    have hg3 := l4.trans hg
    have htag := htag.grow hg2
    have hfields := hfields.grow hg2
  · refine .unpack hnode (hleafs g hg) (fun y hy => ?_) (hx2.tidy g hg2)
      (hinner.tidy g hg3 _ (htag.tidy (by simp)) (hfields.tidy (by simp))) fun u hu hux => ?_
    · simp only [List.cons_append, List.nil_append, List.mem_cons] at hy
      rcases hy with rfl | rfl | hy
      · exact htag.blank
      · exact hfields.blank
      · obtain ⟨name, hy⟩ := hrest y hy
        exact ⟨name, hg2.node? (valid_of_node? hy).1 hy⟩
    · have hxv := l24.valid hx2.valid
      rw [hg.usedOf hat.valid.1 hat.valid] at hu
      rw [hg.usedOf hxv.1 hxv] at hux
      exact absurd (hinside u hu) hux
  · have hnative : g.target.hasBuiltinCase = true := by
      rw [hg.target, e4.target, e3.target, e.target]
      exact hn
    obtain ⟨b, hb⟩ := List.exists_mem_of_ne_nil bs hne'
    refine .case hnode hnative (hx2.comes g hg2 ρ) rfl rfl rfl rfl (by simpa using hne)
      (.inr ⟨b, List.mem_cons_of_mem _ hb, hleafs g hg b hb⟩) ?_
    rw [toNat_ofNat hlt]
    refine hinner.comes g hg3 _ items item (htag.comes ?_) (hfields.comes ?_) hitem
    · simp
    · have hbeq : (fields == tagVar) = false := by simpa using Ne.symm hne
      simp [List.lookup_cons, hbeq]

/-- A match by builtins that take the constructor apart. -/
theorem emulatedMatch_yields :
    Lands (do
        let taken ← builtin .unConstrData constrT .constant m.span [x]
        let whole ← newVar "constr" constrT .constant taken m.span
        let fst ← builtin .fstPair .integer .constant m.span [whole]
        let tagVar ← newVar "tag" .integer .constant fst m.span
        let snd ← builtin .sndPair dataListT .constant m.span [whole]
        let fields ← newVar "fields" dataListT .constant snd m.span
        let inner ← constrArms (lowerExprIn (fuel + 1)) m
          ⟨slotArms a w tag d.constructors.length, none⟩ d args tagVar fields
        letIn [whole, tagVar, fields] (some whole) inner m.span) s fun id s' =>
      Yields s' id (.data item) ∧ ∃ n, At s' id n t .packed ∧ isOperation n = true := by
  refine .bind (call_yields hw hx ⟨rfl, rfl, rfl⟩ (call_unConstrData hlt items)) ?_
  rintro taken s1 e1 k1 ⟨htaken, -⟩
  refine .bind (newVar_is htaken.valid) ?_
  rintro whole s2 e2 k2 ⟨-, name, hwhole⟩
  have hwhole := Yields.of_var hwhole (htaken.grow e2.later)
  have hw2 : s2.target ≠ .unknown := (e1.trans e2).target ▸ hw
  refine .bind (call_yields hw2 hwhole ⟨rfl, rfl, rfl⟩ rfl) ?_
  rintro fst s3 e3 k3 ⟨hfst, -⟩
  refine .bind (newVar_is hfst.valid) ?_
  rintro tagVar s4 e4 k4 ⟨-, tagName, htag⟩
  have hwhole := hwhole.grow (e3.trans e4).later
  have e24 : Extends s2 s4 := e3.trans e4
  have hw4 : s4.target ≠ .unknown := e24.target ▸ hw2
  refine .bind (call_yields hw4 hwhole ⟨rfl, rfl, rfl⟩ rfl) ?_
  rintro snd s5 e5 k5 ⟨hsnd, -⟩
  refine .bind (newVar_is hsnd.valid) ?_
  rintro fields s6 e6 k6 ⟨-, fieldsName, hfields⟩
  have e46 : Extends s4 s6 := e5.trans e6
  have e : Extends s s6 := (e1.trans e2).trans (e24.trans e46)
  have htagAt := (htag.grow e46.later).known
  have htag := (Yields.of_var htag (hfst.grow e4.later)).grow e46.later
  have hfields := Yields.of_var hfields (hsnd.grow e6.later)
  have hwhole := hwhole.grow e46.later
  refine .bind (constrArms_takes hm (e.decls ▸ hd) (e.target ▸ hw) ?_ htagAt rfl
    hfields.valid) ?_
  · rw [k6, k5, k4, k3, k2, k1]
    exact hscope
  intro inner s7 e7 _ hinner
  have l7 : Later 0 s6 s7 := e7.later
  obtain ⟨n, v, hv, -, rfl, hrep⟩ := hinner.known
  have hvalid := valid_of_value hv
  refine .read (value_run hv) ?_
  rw [hrep]
  refine (newNode_at (by simpa [Node.subs] using hvalid)).mono ?_
  rintro out s8 e8 ⟨-, hat, -⟩
  have l8 : Later 0 s7 s8 := e8.later
  refine ⟨⟨hat.valid, fun g hg => ?_, fun g hg ρ => ?_⟩, _, hat, rfl⟩
  all_goals
    have hnode := hg.node? hat.valid.1 hat.node
    have hg6 := l7.trans (l8.trans hg)
  · refine .node hnode rfl fun y hy => ?_
    simp only [reach, strict?, Node.rhs?, Node.subs, Option.toList_some, Option.toList_none,
      List.append_nil, List.cons_append, List.nil_append, List.mem_cons, List.not_mem_nil,
      or_false] at hy
    rcases hy with rfl | rfl
    · exact hwhole.tidy g hg6
    · exact hinner.tidy g (l8.trans hg) [] (htag.tidy g hg6) (hfields.tidy g hg6)
  · exact .strict hnode (hwhole.comes g hg6 ρ)
      (hinner.comes g (l8.trans hg) ρ items item (htag.comes g hg6 ρ) (hfields.comes g hg6 ρ) hitem)

end

/-- **A match on a declared type gives the field of the constructor** as it is
kept in the data. -/
theorem matchConstr_yields {d : Decl} {k : Constructor} {x : Nat} {n : Node} {items : List Data}
    {item : Data} (fuel : Nat) (type : Ty) (hm : ReadsField m a w t j message)
    (hd : TakesApart s.decls d type.args k tag a t j) (hfind : s.decls.find? type.declName = some d)
    (htag : (d.constructors.map (·.name)).idxOf? a.constr = some tag) (hw : s.target ≠ .unknown)
    (hscope : s.scope ≠ []) (hx : Yields s x (.data (.constr (.ofNat tag) items)))
    (hat : At s x n type (s.decls.packedRep type)) (hlt : tag < UInt64.size)
    (hitem : items[j]? = some item) :
    Lands (matchConstr (lowerExprIn (fuel + 1)) m x type) s fun id s' =>
      Yields s' id (.data item) ∧ ∃ n, At s' id n t .packed ∧ isOperation n = true := by
  refine .read decls_run ?_
  simp only [hfind]
  refine .bind (resolve_lands hm.arms hm.named hm.fails.isWildcard htag) ?_
  rintro _ s1 e1 k1 rfl
  have hat := hat.later e1.later hat.valid.1
  have hx := hx.grow e1.later
  rw [← e1.decls] at hat hd
  rw [← e1.target] at hw
  rw [← k1] at hscope
  rw [List.length_map, ← e1.decls]
  refine .read (toRep_same hat) (.read target_run ?_)
  split
  · exact nativeMatch_yields hm hd hw hscope hx hlt hitem ‹_›
  · exact emulatedMatch_yields hm hd hw hscope hx hlt hitem

end

end CoreLowering.Encoding
