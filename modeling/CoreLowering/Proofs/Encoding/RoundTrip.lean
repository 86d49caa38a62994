import CoreLowering.Proofs.Encoding.Converting
import CoreLowering.Proofs.Encoding.Evaluating
import CoreLowering.Proofs.Encoding.Matching

/-!
# From constants through data and back

A constructor is applied to constants, and one of its fields is read again: by
a match with an arm for the constructor, or, if the type has one constructor
only, by a selection.  The field is packed, becomes a part of data, is read
from there and unpacked.

Main statement: `lowerModule_field`, lowering succeeds, and the machine gives
the constant of the field.
-/

namespace CoreLowering.Encoding

open CoreLowering.Graph
open CoreLowering.FirstOrder (Extends Lands InScope availableIn_of_since)
open CoreLowering.Layout (Boxed)
open Machine (Settings)

variable {g s s' : State} {id : Nat} {n : Node} {t : Ty} {c : Constant} {d : Data} {span : Span}
  {target : Version} {decls : Decls} {debug : Bool} {root : Expr} {u : Module} {tag : Nat}

/-! ## Units whose root is packed -/

/-- Lowering the unit succeeds, and without a budget the machine of the target
evaluates the term to the constant. -/
def Computes (u : Module) (target : Version) (c : Constant) : Prop :=
  ∀ debug, ∃ r, (lowerModule u target debug).result = .ok r ∧
    ∀ m : Settings, m.version = target → m.budget ≤ 0 → Machine.Ends m r.term (.ok (.con c))

/-- The value of a packed operation is brought into the layout of a constant. -/
theorem toRep_unpacked (hw : s.target ≠ .unknown) (hviews : s.views = [])
    (hhelpers : s.helpers = []) (ht : Stored t) (hp : Boxed t c d) (hat : At s id n t .packed)
    (hn : isOperation n = true) (h : Yields s id (.data d)) :
    Makes (toRep id .constant) s fun out s' => ∀ g, Later 0 s' g → UsedInside g →
      Tidy g [] out ∧ ∀ ρ, Comes g ρ out (.con c) := by
  rcases ht.plain.exists_unpack ht.unpackable with rfl | ⟨work, hr⟩
  · obtain ⟨rfl, -⟩ := hp
    refine .of_lands ((toRep_view hat (by decide) (compatible_data s.decls .unpack) ?_
      Plain.data.ne_missing).mono ?_)
    · rintro x rfl
      cases hn
    · rintro out s' he ⟨-, hout⟩ g hg -
      have hy := Yields.of_view hout (h.grow he.later)
      exact ⟨hy.tidy g hg, hy.comes g hg⟩
  · have hs : Progress 0 .unpack s s := .start hw (Nat.zero_le _) (.empty hviews hhelpers)
    obtain ⟨k, hk, hrun⟩ := toRep_step hat
    rw [Makes, hrun]
    refine (((toRepIn_converts (k + 1)).1 hr (by omega)).2 hs hat.valid.1 hat hn).mono ?_
    intro out s' hl hout g hg hu
    have hconv := hout.later g hg hu (.empty hhelpers)
    have hg' := hl.trans hg
    exact ⟨hconv.tidy (h.tidy g hg'), fun ρ => hconv.comes
      ⟨d, rfl, hp.data_valid, hp.unpack ht.unpackable⟩ (h.comes g hg' ρ)⟩

/-- **Building a root whose value is packed** gives the constant that is kept in
the data. -/
theorem build_unpacked (ht : Stored t) (hp : Boxed t c d) (htype : root.type = t)
    (h : Lands (lowerExpr root) (State.new target decls debug) fun id s' =>
      Yields s' id (.data d) ∧ ∃ n, At s' id n t .packed ∧ isOperation n = true) :
    ∃ id g, (build root).run (State.new target decls debug) = (.ok id, g) ∧
      g.target = target.orStandard ∧ UsedInside g ∧ Tidy g [] id ∧ Comes g [] id (.con c) := by
  have hi0 := Graph.Inv.new target decls debug
  have hw0 := (FirstOrder.inScope_new target decls debug).target
  obtain ⟨x, s1, hr1, e1, -, hx, n, hat, hn⟩ := h
  obtain ⟨t1, k1⟩ := (lowerExpr_kept root).run hi0
  rw [hr1] at t1 k1
  have hi1 := t1.inv hi0
  have hr2 : (upcast x t root.span).run s1 = (.ok x, s1) := upcast_self hat ht.plain.same
  obtain ⟨out, s2, hr2', l2, hout⟩ :=
    toRep_unpacked (e1.target ▸ hw0) e1.views e1.helpers ht hp hat hn hx
  obtain ⟨t2, -⟩ := (toRep_kept (k1 x rfl).2).run hi1
  rw [hr2'] at t2
  have hused := t2.usedInside (t1.usedInside (.new target decls debug))
  obtain ⟨htidy, hcomes⟩ := hout s2 .refl hused
  have hcheck := FirstOrder.checkAll_run fun u hu => htidy.defined (t2.inv hi1) hused hu
  refine ⟨out, s2, ?_, l2.target.trans e1.target, hused, htidy, hcomes []⟩
  have hrun : (do
      let id ← lowerExpr root
      let id ← upcast id root.type root.span
      let id ← toRep id (← standardRep root.type)
      ((← get).usedOf id).ids.forM checkDefined
      return id : LowerM ValueId).run (State.new target decls debug) = (.ok out, s2) := by
    rw [htype, run_bind_of_ok hr1, run_bind_of_ok hr2,
      run_bind_of_ok (standardRep_run t), ht.plain.standardRep, run_bind_of_ok hr2',
      run_bind_of_ok run_get, run_bind_of_ok hcheck, run_pure]
  rw [build, reporting, run_tryCatch, hrun]

/-- The term of a root that comes to a constant is lowered, and has its value. -/
theorem run_computes (hw : target ≠ .unknown)
    (hbuild : (build root).run (State.new target decls debug) = (.ok id, g))
    (ht : g.target = target.orStandard) (hu : UsedInside g) (htidy : Tidy g [] id)
    (hc : Comes g [] id (.con c)) :
    ∃ r, ((run root).run (State.new target decls debug)).1 = .ok r ∧
      ∀ m : Settings, m.version = target → m.budget ≤ 0 →
        Machine.Ends m r.term (.ok (.con c)) := by
  have hb := Built.of_run hbuild
  obtain ⟨u, s, hemit, hs, hemits, hfix⟩ :=
    exists_emit (htidy.emitWith_works hb.inv hu) hb.unfilled hb.usesFix
  obtain ⟨n, hn⟩ := htidy.exists_node
  have hvalid := valid_of_node? hn
  obtain ⟨v, hv⟩ : ∃ v, s.value? id = some v :=
    Valid.exists_value ⟨hvalid.1, hs.size ▸ hvalid.2⟩
  have hrun : ((run root).run (State.new target decls debug)).1 =
      .ok ⟨link (u.erase g.nameOf) s.usesFix, u.erase g.nameOf, s.usesFix, v.type, v.rep⟩ := by
    rw [run, run_bind_of_ok hbuild, run_bind_of_ok hemit,
      run_bind_of_ok (value_run hv), run_bind_of_ok run_get,
      run_pure]
  refine ⟨_, hrun, fun m hm hbudget => ?_⟩
  have hversion : m.version = g.target := by
    rw [hm, ht]
    cases target <;> first | rfl | exact absurd rfl hw
  obtain ⟨h, hd⟩ := hc
  obtain ⟨k, hk⟩ := htidy.link_hasValue hb.inv hu hb.named hversion (hm ▸ hw) hemits hd
    hfix.trans
  exact hk.ends hbudget

/-- A unit whose root is packed. -/
theorem computes_of_packed (hs : u.scope = .ok decls) (hw : target ≠ .unknown) (ht : Stored t)
    (hp : Boxed t c d) (htype : u.root.type = t)
    (h : ∀ debug, Lands (lowerExpr u.root) (State.new target decls debug) fun id s' =>
      Yields s' id (.data d) ∧ ∃ n, At s' id n t .packed ∧ isOperation n = true) :
    Computes u target c := by
  intro debug
  obtain ⟨id, g, hbuild, htarget, hu, htidy, hc⟩ := build_unpacked ht hp htype (h debug)
  obtain ⟨r, hr, hends⟩ := run_computes hw hbuild htarget hu htidy hc
  refine ⟨r, ?_, hends⟩
  have hroot : u.root ≠ .missing := by
    intro hmissing
    rw [hmissing] at htype
    exact ht.plain.ne_missing htype.symm
  unfold lowerModule
  split
  · exact absurd ‹_› hroot
  · rw [hs]
    simp only [lowerWith, hr]
    rfl

/-! ## Constructions -/

/-- A constructor applied to expressions for its fields, with the types of the
fields and the constants that the expressions give. -/
structure Construction where
  decl : Decl
  constr : Constructor
  args : List Ty
  /-- Whether its type is that of the one constructor. -/
  ofCase : Bool
  fields : List (Ty × Constant)
  operands : List Expr

namespace Construction

def tyCon (x : Construction) : TyCon :=
  if x.ofCase then .caseClass x.decl.name x.constr.name else .sum x.decl.name

def type (x : Construction) : Ty := .con x.tyCon x.args

/-- The expression. -/
def expr (x : Construction) (span : Span) : Expr :=
  .node x.type span (.constr x.decl.name x.constr.name x.operands)

/-- The construction is one of a declared type other than that of lists, whose
tags are words, and its operands give constants of the types of the fields. -/
structure Sound (x : Construction) (ds : Decls) : Prop where
  found : ds.find? x.decl.name = some x.decl
  notList : x.decl.name ≠ Ty.listName
  distinct : (x.decl.constructors.map (·.name)).Nodup
  member : x.constr ∈ x.decl.constructors
  tags : x.decl.constructors.length ≤ UInt64.size
  types : x.decl.fieldTypes x.constr x.args = x.fields.map (·.1)
  given : FieldsGiven x.fields x.operands

/-- Moreover no constructor of the type keeps a function. -/
structure Proper (x : Construction) (ds : Decls) : Prop extends x.Sound ds where
  noFunction : ∀ k ∈ x.decl.constructors, ∀ u ∈ x.decl.fieldTypes k x.args,
    ds.family u ≠ .function

/-- The place of the constructor. -/
theorem Proper.exists_tag {x : Construction} {ds : Decls} (h : x.Proper ds) :
    ∃ tag, x.decl.constructors[tag]? = some x.constr ∧ x.decl.tag? x.constr.name = some tag ∧
      x.decl.find? x.constr.name = some x.constr ∧
      (x.decl.constructors.map (·.name)).idxOf? x.constr.name = some tag ∧ tag < UInt64.size := by
  obtain ⟨tag, hlt, htag⟩ := List.getElem_of_mem h.member
  have hnames : ∀ i (hi : i < x.decl.constructors.length),
      x.decl.constructors[i].name = x.constr.name → i = tag := by
    intro i hi hname
    have hinj := List.nodup_iff_injective_get.1 h.distinct
    exact congrArg Fin.val (@hinj ⟨i, by simpa using hi⟩ ⟨tag, by simpa using hlt⟩
      (by simp [hname, htag]))
  have hbefore : ∀ i (hi : i < tag), x.decl.constructors[i].name ≠ x.constr.name := by
    intro i hi hname
    have := hnames i (by omega) hname
    omega
  refine ⟨tag, by rw [List.getElem?_eq_getElem hlt, htag], ?_, ?_, ?_,
    Nat.lt_of_lt_of_le hlt h.tags⟩
  · rw [Decl.tag?, List.findIdx?_eq_some_iff_getElem]
    exact ⟨hlt, by simp [htag], fun i hi => by simpa using hbefore i hi⟩
  · rw [Decl.find?, List.find?_eq_some_iff_getElem]
    exact ⟨by simp, tag, hlt, htag, fun i hi => by simpa using hbefore i hi⟩
  · rw [List.idxOf?, List.findIdx?_eq_some_iff_getElem]
    exact ⟨by simpa using hlt, by simp [htag], fun i hi => by simpa using hbefore i hi⟩

namespace Proper

variable {x : Construction} {ds : Decls}

theorem family (h : x.Proper ds) : ds.family x.type = .product ∨ ds.family x.type = .sum := by
  unfold Construction.type Construction.tyCon
  split
  · simp [Decls.family, Ty.unwrap, h.notList]
  · simp only [Decls.family, Ty.unwrap, if_neg h.notList]
    split
    · exact .inl rfl
    · exact .inr rfl

/-- What is constructed has the layout that its type has inside data. -/
theorem constrRep_eq (h : x.Proper ds) : constrRep x.decl x.type = ds.packedRep x.type := by
  unfold Construction.type Construction.tyCon
  split
  · simp [constrRep, Decls.packedRep, Decls.family, Ty.unwrap, h.notList]
  · simp only [constrRep, Decls.packedRep, Decls.family, Ty.unwrap, if_neg h.notList,
      Decls.isProduct, h.found]
    split <;> rfl

theorem family_of_one (h : x.Proper ds) (hone : x.decl.constructors.length = 1) :
    ds.family x.type = .product := by
  unfold Construction.type Construction.tyCon
  split
  · simp [Decls.family, Ty.unwrap, h.notList]
  · simp [Decls.family, Ty.unwrap, h.notList, Decls.isProduct, h.found, Decl.isProduct, hone]

theorem unwrap_type : x.type.unwrap = x.type := rfl

theorem declName_type : x.type.declName = x.decl.name := by
  unfold Construction.type Construction.tyCon
  split <;> rfl

/-- The construction is lowered to data with the tag and the packed fields. -/
theorem lowers {fuel : Nat} {items : List Data} (h : x.Proper s.decls)
    (hk : x.decl.find? x.constr.name = some x.constr) (htag : x.decl.tag? x.constr.name = some tag)
    (hlt : tag < UInt64.size) (hp : FieldsPacked x.fields items)
    (hd : ∀ e ∈ x.operands, e.depth < fuel) (hs : InScope s [] []) :
    Lands (lowerExprIn (fuel + 1) (x.expr span)) s fun id s' =>
      Yields s' id (.data (.constr (.ofNat tag) items)) ∧
        ∃ n, At s' id n x.type (s'.decls.packedRep x.type) := by
  refine .bind FirstOrder.point_lands fun _ s1 e1 k1 _ => ?_
  refine (lowerConstr_yields h.given hp hd (hs.extend e1 k1) (e1.decls ▸ h.found) h.notList hk htag
    hlt h.types).mono ?_
  rintro id s2 e2 ⟨hy, n, hat⟩
  refine ⟨hy, n, ?_⟩
  rw [(e1.trans e2).decls, ← h.constrRep_eq]
  exact hat

theorem selectedConstr_run {field : String} (h : x.Proper s.decls)
    (hk : x.decl.find? x.constr.name = some x.constr) (hone : x.decl.constructors.length = 1) :
    (selectedConstr field x.type span).run s = (.ok (x.decl, x.constr), s) := by
  obtain ⟨k, hk'⟩ := List.length_eq_one_iff.1 hone
  obtain rfl : x.constr = k := by simpa [hk'] using h.member
  rw [selectedConstr, run_bind_of_ok decls_run, declName_type]
  simp only [h.found, hk']
  have hname : x.type.constrName = "" ∨ x.type.constrName = x.constr.name := by
    unfold Construction.type Construction.tyCon
    split
    · exact .inr rfl
    · exact .inl rfl
  split
  · rename_i heq
    cases heq
    simp only [pure_bind, hk]
    rfl
  · rename_i hnot
    exact absurd rfl (hnot _)
  · rename_i hnot
    rw [hname.resolve_left fun h => hnot _ h rfl]
    simp only [pure_bind, hk]
    rfl

end Proper

end Construction

/-! ## Reading a field again -/

theorem joinArms_run {a w : Arm} (ht : Stored t) (ha : a.body.type = t) (hw : w.body.type = t) :
    (joinArms "Match" t span [a.body, w.body]).run s = (.ok t, s) := by
  have hjoin : (joinTypes "Match" .missing [a.body, w.body]).run s = (.ok t, s) := by
    obtain ⟨tc, args, rfl⟩ := ht.con
    simp only [joinTypes, ha, hw, ht.join_self]
    rfl
  rw [joinArms, run_bind_of_ok hjoin]
  split
  · rfl
  · rfl
  · rw [ht.join_self]
    rfl

/-- The rest of a list of fields. -/
theorem dropFields_yields {k : Nat} {items : List Data} (hw : s.target ≠ .unknown)
    (h : Yields s id (.dataList items)) (hk : k ≤ items.length) :
    Lands (dropFields span k id) s fun rest s' => Yields s' rest (.dataList (items.drop k)) := by
  induction k generalizing s id items with
  | zero => exact .pure h
  | succ k ih =>
    obtain _ | ⟨item, items⟩ := items
    · cases hk
    · refine .bind (call_yields hw h ⟨rfl, rfl, rfl⟩ rfl) ?_
      rintro tail s1 e1 - ⟨htail, -⟩
      exact ih (e1.target ▸ hw) htail (by simpa using hk)

theorem nthField_yields {j : Nat} {items : List Data} {item : Data} (hw : s.target ≠ .unknown)
    (ht : Stored t) (h : Yields s id (.dataList items)) (hitem : items[j]? = some item) :
    Lands (nthField id j t span) s fun out s' => Yields s' out (.data item) ∧
      ∃ n, At s' out n t .packed ∧ isOperation n = true := by
  have hlt := (List.getElem?_eq_some_iff.1 hitem).1
  refine .bind (dropFields_yields hw h (Nat.le_of_lt hlt)) fun rest s1 e1 _ hrest => ?_
  have hw1 : s1.target ≠ .unknown := e1.target ▸ hw
  have hrep : (fieldRep t span).run s1 = (.ok .packed, s1) := by
    rw [fieldRep_run (ht.plain.not_function _), ht.plain.packedRep]
  refine .read hrep ?_
  rw [List.drop_eq_getElem_cons hlt, (List.getElem?_eq_some_iff.1 hitem).2] at hrest
  refine (builtin_is (availableIn_of_since rfl rfl hw1) (by simpa using hrest.valid)).mono ?_
  rintro out s2 e2 ⟨-, hout⟩
  exact ⟨.of_builtin hout (availableIn_of_since rfl rfl (e2.target ▸ hw1)) rfl (by simp)
    (.cons (hrest.grow e2.later) .nil) rfl, _, hout.known, rfl⟩

theorem fieldList_yields {items : List Data} (hw : s.target ≠ .unknown)
    (h : Yields s id (.data (.constr (.ofNat tag) items))) (hlt : tag < UInt64.size)
    (hat : At s id n t .prodConstr) :
    Lands (fieldList id span) s fun fields s' => Yields s' fields (.dataList items) := by
  obtain ⟨v, hv, -, -, hrep⟩ := hat
  refine .read (value_run hv) ?_
  rw [hrep, if_neg (by nofun)]
  refine .read (run_pure id) (.bind (call_yields hw h ⟨rfl, rfl, rfl⟩
    (call_unConstrData hlt items)) ?_)
  rintro taken s1 e1 - ⟨htaken, -⟩
  exact (call_yields (e1.target ▸ hw) htaken ⟨rfl, rfl, rfl⟩ rfl).mono fun _ _ _ h => h.1

section

variable {x : Construction} {j fuel : Nat} {items : List Data} {item : Data} {span' : Span}
  (h : x.Proper s.decls) (ht : Stored t) (hfield : x.fields[j]? = some (t, c))
  (hp : FieldsPacked x.fields items) (hitem : items[j]? = some item)
  (hd : ∀ e ∈ x.operands, e.depth < fuel) (hs : InScope s [] [])

include h ht hfield hp hitem hd hs

/-- A match with an arm for the constructor gives the field. -/
theorem match_yields {a w : Arm} {message : String} (ha : a.constr = x.constr.name)
    (hne : x.constr.name ≠ Arm.wildcard) (hlen : a.binders.length ≤ x.constr.fields.length)
    (hgives : GivesField a t j) (hfails : FailsWith w t message) :
    Lands (lowerExprIn (fuel + 2) (.node t span (.matchOn [x.expr span'] [a, w]))) s
      fun id s' => Yields s' id (.data item) ∧
        ∃ n, At s' id n t .packed ∧ isOperation n = true := by
  obtain ⟨tag, hconstr, htag, hfind, hidx, hlt⟩ := h.exists_tag
  have hm : ReadsField ⟨t, span, [a, w]⟩ a w t j message :=
    ⟨ht, rfl, rfl, by simp [isWildcard, ha, hne], hgives, hfails⟩
  have htypes : (x.decl.fieldTypes x.constr x.args)[j]? = some t := by
    simp [h.types, hfield]
  have hbodies : a.body.type = t ∧ w.body.type = t := by
    obtain ⟨_, _, _, hbody, -⟩ := hgives
    obtain ⟨-, -, _, hbody'⟩ := hfails
    simp [hbody, hbody', Expr.type]
  obtain ⟨tc, args, rfl⟩ := ht.con
  refine .bind FirstOrder.point_lands fun _ s1 e1 k1 _ => ?_
  refine .read (run_pure ()) ?_
  refine .read (joinArms_run ht hbodies.1 hbodies.2) ?_
  rw [← e1.decls] at h
  refine .bind (h.lowers hfind htag hlt hp hd (hs.extend e1 k1)) ?_
  rintro y s2 e2 k2 ⟨hy, n, hat⟩
  obtain ⟨v, hv, -, htype, -⟩ := id hat
  refine .read (value_run hv) ?_
  rw [htype]
  have hfamily : (Graph.family x.type.unwrap).run s2 = (.ok (s2.decls.family x.type), s2) := rfl
  refine .read hfamily ?_
  rw [← e2.decls] at h
  have hvar : s2.decls.family x.type ≠ .typeVar := by
    rcases h.family with hf | hf <;> rw [hf] <;> decide
  have hs2 := (hs.extend e1 k1).extend e2 k2
  have hmatch := matchConstr_yields fuel x.type hm
    ⟨hconstr, hlen, htypes, h.noFunction⟩ (Construction.Proper.declName_type ▸ h.found) (ha ▸ hidx)
    hs2.target hs2.ne hy hat hlt hitem
  rw [if_neg hvar, Construction.Proper.unwrap_type]
  unfold Construction.type Construction.tyCon at hmatch ⊢
  split
  all_goals
    rename_i hcase
    simp only [hcase, Bool.false_eq_true, if_true, if_false] at hmatch
    simpa only [Ty.isList, h.notList, decide_false, Bool.false_eq_true, if_false] using hmatch

/-- A selection gives the field of the only constructor. -/
theorem select_yields {field : String} (hone : x.decl.constructors.length = 1)
    (hindex : x.constr.fieldIndex? field = some j) :
    Lands (lowerExprIn (fuel + 2) (.node t span (.select field [x.expr span']))) s
      fun id s' => Yields s' id (.data item) ∧
        ∃ n, At s' id n t .packed ∧ isOperation n = true := by
  obtain ⟨tag, hconstr, htag, hfind, hidx, hlt⟩ := h.exists_tag
  have htypes : (x.decl.fieldTypes x.constr x.args)[j]? = some t := by
    simp [h.types, hfield]
  obtain ⟨tc, args, rfl⟩ := ht.con
  refine .bind FirstOrder.point_lands fun _ s1 e1 k1 _ => ?_
  refine .read (run_pure ()) ?_
  rw [← e1.decls] at h
  refine .bind (h.lowers hfind htag hlt hp hd (hs.extend e1 k1)) ?_
  rintro y s2 e2 k2 ⟨hy, n, hat⟩
  rw [← e2.decls] at h
  have hs2 := (hs.extend e1 k1).extend e2 k2
  have hproduct := h.family_of_one hone
  rw [Decls.packedRep, hproduct] at hat
  obtain ⟨v, hv, -, htype, hrep⟩ := id hat
  refine .read (value_run hv) (.read decls_run ?_)
  rw [htype, Construction.Proper.unwrap_type]
  simp only [hproduct, reduceCtorEq, if_false]
  refine .read (h.selectedConstr_run hfind hone) ?_
  simp only [hindex, hrep]
  refine .bind (fieldList_yields hs2.target hy hlt hat) fun fields s3 e3 _ hfields => ?_
  have htype : ((x.decl.fieldTypes x.constr x.type.args)[j]?).getD .missing = .con tc args := by
    rw [show x.type.args = x.args from rfl, htypes]
    rfl
  rw [htype]
  exact nthField_yields (e3.target ▸ hs2.target) ht hfields hitem

end

theorem depth_le_depthAll {e : Expr} {es : List Expr} (he : e ∈ es) :
    e.depth ≤ Expr.depthAll es := by
  induction es with
  | nil => cases he
  | cons e' es ih =>
    rw [Expr.depthAll]
    rcases List.mem_cons.1 he with rfl | he
    · exact Nat.le_max_left ..
    · exact Nat.le_trans (ih he) (Nat.le_max_right ..)

/-- An expression is lowered with more than the depth of the operands of a
construction in it. -/
theorem lowerExpr_of_depth {P : ValueId → State → Prop} (x : Construction) (span : Span)
    (hroot : (x.expr span).depth < root.depth) (h : ∀ fuel, (∀ e ∈ x.operands, e.depth < fuel) →
      Lands (lowerExprIn (fuel + 2) root) s P) : Lands (lowerExpr root) s P := by
  have hdepth : Expr.depthAll x.operands + 1 < root.depth := by
    simpa [Construction.expr, Expr.depth] using hroot
  obtain ⟨fuel, hfuel⟩ := Nat.exists_eq_add_of_le' (show 2 ≤ root.depth + 1 by omega)
  rw [lowerExpr, hfuel]
  refine h fuel fun e he => ?_
  have := depth_le_depthAll he
  omega

theorem FieldsPacked.get {fs : List (Ty × Constant)} {items : List Data} {j : Nat}
    (h : FieldsPacked fs items) (hj : fs[j]? = some (t, c)) :
    ∃ item, items[j]? = some item ∧ Boxed t c item := by
  obtain ⟨hlt, heq⟩ := List.getElem?_eq_some_iff.1 hj
  have hlt' : j < items.length := h.length_eq ▸ hlt
  have hpacks := List.Forall₂.get h hlt hlt'
  simp only [List.get_eq_getElem, heq] at hpacks
  exact ⟨items[j], List.getElem?_eq_getElem hlt', hpacks⟩

/-- **A constant goes through data and comes back.**  A constructor is applied
to constants.  A match with an arm for the constructor that gives a field, and a
wildcard that fails, is lowered, and the machine evaluates it to the constant of
the field; so is the selection of the field, if there is one constructor only. -/
theorem lowerModule_field (u : Module) (hs : u.scope = .ok decls) (hw : target ≠ .unknown)
    (x : Construction) (hx : x.Proper decls) {j : Nat} (hj : x.fields[j]? = some (t, c)) :
    (∀ (a w : Arm) (message : String) (span span' : Span), a.constr = x.constr.name →
      a.constr ≠ Arm.wildcard → a.binders.length ≤ x.constr.fields.length → GivesField a t j →
      FailsWith w t message →
      Computes { u with root := .node t span (.matchOn [x.expr span'] [a, w]) } target c) ∧
    (x.decl.constructors.length = 1 → ∀ (field : String) (span span' : Span),
      x.constr.fieldIndex? field = some j →
      Computes { u with root := .node t span (.select field [x.expr span']) } target c) := by
  obtain ⟨items, hitems⟩ := hx.given.exists_packed
  obtain ⟨item, hitem, hp⟩ := hitems.get hj
  have ht : Stored t := by
    obtain ⟨hlt, heq⟩ := List.getElem?_eq_some_iff.1 hj
    have hgiven := List.Forall₂.get hx.given hlt (hx.given.length_eq ▸ hlt)
    simp only [List.get_eq_getElem, heq] at hgiven
    exact hgiven.1
  refine ⟨fun a w message span span' ha hne hlen hgives hfails => ?_,
    fun hone field span span' hindex => ?_⟩
  · refine computes_of_packed hs hw ht hp rfl fun debug => lowerExpr_of_depth x span'
      ?_ fun fuel hfuel => ?_
    · simp only [Expr.depth, Expr.depthAll]
      omega
    · exact match_yields hx ht hj hitems hitem hfuel (FirstOrder.inScope_new target decls debug) ha
        (ha ▸ hne) hlen hgives hfails
  · refine computes_of_packed hs hw ht hp rfl fun debug => lowerExpr_of_depth x span'
      ?_ fun fuel hfuel => ?_
    · simp only [Expr.depth, Expr.depthAll]
      omega
    · exact select_yields hx ht hj hitems hitem hfuel
        (FirstOrder.inScope_new target decls debug) hone hindex

/-- A parcel with its labels, as one of the constructors of its type. -/
def parcel (others : List Constructor) : Construction where
  decl := ⟨"Shipment", [], others ++ [constr]⟩
  constr := constr
  args := []
  ofCase := false
  fields := [(.integer, .integer 5), (labelsType, labels)]
  operands := [.node .integer default (.const (some (.integer 5))),
    .node labelsType default (.const (some labels))]
where
  labelsType : Ty := .builtinList (.builtinList .string)
  labels : Constant := .list (.list .string) [.list .string [.string "fragile"], .list .string []]
  constr : Constructor := ⟨"Parcel", [⟨"weight", .integer⟩, ⟨"labels", labelsType⟩]⟩

/-- The labels of a parcel are found again among two constructors, and in a type
that has no other. -/
theorem parcel_labels :
    Computes ⟨"Shipping", [(parcel [⟨"Empty", []⟩]).decl],
      .node parcel.labelsType default (.matchOn [(parcel [⟨"Empty", []⟩]).expr default]
        [⟨"Parcel", ["_", "l"], .node parcel.labelsType default (.var "l"), default⟩,
          ⟨"_", [], .node parcel.labelsType default (.error "empty"), default⟩])⟩ .v4
      parcel.labels ∧
    Computes ⟨"Shipping", [(parcel []).decl],
      .node parcel.labelsType default (.select "labels" [(parcel []).expr default])⟩ .v1
      parcel.labels := by
  have hproper : ∀ others ∈ [[], [⟨"Empty", []⟩]],
      (parcel others).Proper ⟨(parcel others).decl :: Decls.prelude⟩ := by
    intro others hothers
    have hgiven : FieldsGiven (parcel others).fields (parcel others).operands :=
      .cons ⟨.primitive rfl, .literal _ rfl rfl⟩
        (.cons ⟨.list (.list (.primitive rfl)), .literal _ rfl rfl⟩ .nil)
    obtain rfl | rfl : others = [] ∨ others = [⟨"Empty", []⟩] := by simpa using hothers
    all_goals
      exact ⟨⟨rfl, by decide, by decide, by simp [parcel], by decide, rfl, hgiven⟩, by decide⟩
  refine ⟨(lowerModule_field ⟨"Shipping", _, .missing⟩ rfl (by decide) (parcel [⟨"Empty", []⟩])
      (hproper _ (by simp)) (j := 1) rfl).1 _ _ "empty" _ _ rfl (by decide) (by decide)
      ⟨by decide, _, _, rfl, rfl, by decide, by decide⟩ ⟨rfl, rfl, _, rfl⟩,
    (lowerModule_field ⟨"Shipping", _, .missing⟩ rfl (by decide) (parcel []) (hproper _ (by simp))
      (j := 1) rfl).2 rfl "labels" _ _ rfl⟩

/-! ## A constructor that keeps a function -/

/-- What is lowered has a root that is. -/
theorem exists_lowerExpr_of_lowerModule {r : Result}
    (h : (lowerModule u target debug).result = .ok r) :
    ∃ decls, u.scope = .ok decls ∧
      ∃ id s, (lowerExpr u.root).run (State.new target decls debug) = (.ok id, s) := by
  obtain ⟨decls, hs, hr⟩ := lowerModule_ok h
  refine ⟨decls, hs, ?_⟩
  obtain ⟨g, id, hy⟩ := run_yields hr
  have hb := hy.built.run
  rw [build, reporting, run_tryCatch, run_bind] at hb
  rcases hlower : (lowerExpr u.root).run (State.new target decls debug) with ⟨_ | id, s⟩
  · rw [hlower] at hb
    revert hb
    dsimp only
    split
    · rw [run_bind_of_ok (run_modify _)]
      intro hb
      cases hb
    · intro hb
      cases hb
  · exact ⟨id, s, rfl⟩

/-- A number beside a function: one constructor of the type keeps a number, the
other one a function. -/
def besideFunction : Construction where
  decl := ⟨"D", [], [⟨"A", [⟨"x", .integer⟩]⟩, ⟨"B", [⟨"f", .arrow .integer .integer⟩]⟩]⟩
  constr := ⟨"A", [⟨"x", .integer⟩]⟩
  args := []
  ofCase := false
  fields := [(.integer, .integer 5)]
  operands := [.node .integer default (.const (some (.integer 5)))]

/-- The arm that gives the number. -/
def numberArm : Arm := ⟨"A", ["x"], .node .integer default (.var "x"), default⟩

/-- The arm that fails. -/
def otherwiseArm : Arm := ⟨Arm.wildcard, [], .node .integer default (.error "no"), default⟩

/-- The unit that takes the number out again. -/
def readsBesideFunction : Module where
  name := "Beside"
  decls := [besideFunction.decl]
  root := .node .integer default
    (.matchOn [besideFunction.expr default] [numberArm, otherwiseArm])

/-- A number beside a function is not found again: all constructors are taken
apart, and a function is no field. -/
theorem number_beside_function :
    ∃ ds, readsBesideFunction.scope = .ok ds ∧ besideFunction.Sound ds ∧
      numberArm.constr = besideFunction.constr.name ∧ numberArm.constr ≠ Arm.wildcard ∧
      GivesField numberArm .integer 0 ∧ FailsWith otherwiseArm .integer "no" ∧
      ¬ Computes readsBesideFunction .v3 (.integer 5) := by
  refine ⟨_, rfl, ⟨rfl, by decide, by decide, .head _, by decide, rfl,
    .cons ⟨.primitive rfl, .literal _ rfl rfl⟩ .nil⟩, rfl, by decide,
    ⟨by decide, _, _, rfl, rfl, by decide, by decide⟩, ⟨rfl, rfl, _, rfl⟩, fun h => ?_⟩
  obtain ⟨r, hr, -⟩ := h false
  obtain ⟨ds, hs, id, s, hlower⟩ := exists_lowerExpr_of_lowerModule hr
  obtain rfl := Except.ok.inj hs
  -- joining types does not evaluate, so its result is put in by hand
  obtain ⟨_, s1, hpoint, hlower⟩ := run_bind_ok.1 hlower
  cases hpoint
  obtain ⟨_, s2, hone, hlower⟩ := run_bind_ok.1 hlower
  cases hone
  obtain ⟨_, s3, hjoined, hlower⟩ := run_bind_ok.1 hlower
  cases hjoined.symm.trans (joinArms_run (.primitive rfl) rfl rfl)
  have hsome := (congrArg (fun p => p.1.toOption.isSome) hlower).trans Option.isSome_some
  exact absurd hsome (by decide +kernel)

end CoreLowering.Encoding
