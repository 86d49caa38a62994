import CoreLowering.Proofs.Encoding.Direction
import CoreLowering.Proofs.Encoding.Growing

/-!
# Putting constants into data

A field of a constructor is given by an expression: by a constant, or, if its
type is primitive, by any expression of first order.  Lowering packs the value
into data; a known constant is packed right away, any other one at run time.
The fields then make up a list, and the list with a tag makes up data.

Main statement: `lowerConstr_yields`, the value of a constructor comes to the
data with its tag and its packed fields.
-/

namespace CoreLowering.Encoding

open CoreLowering.Graph
open CoreLowering.FirstOrder (Extends Lands Means Lowered Typed meaning availableIn_of_since)
open CoreLowering.Layout (Boxed)

variable {g s s' : State} {id : Nat} {n : Node} {t : Ty} {r : Rep} {c : Constant} {d : Data}
  {span : Span} {ρ : Given} {f : Builtin} {fuel : Nat} {rep : Rep} {cs : List Constant}
  {work : Work} {type : Ty}

/-! ## Values of first order -/

theorem arity_ne_zero (hf : FirstOrder.onPrimitives f = true) : f.arity ≠ 0 := by
  cases f <;> first | decide | cases hf

theorem comes_of_means (hw : g.target ≠ .unknown) (h : Means g id (some c)) :
    Comes g ρ id (.con c) := by
  induction id using Nat.strongRecOn generalizing c with
  | ind id ih =>
    obtain ⟨n, hn⟩ : ∃ n, g.node? id = some n := by
      obtain ⟨hn, -⟩ := h
      exact ⟨_, hn⟩
    have hreads := h.reads hn
    generalize ho : some c = o at hreads
    cases hreads with
    | const =>
      cases ho
      exact .const hn
    | error => cases ho
    | var _ hlt hm => exact .defined hn (ih _ hlt (ho ▸ hm))
    | letIn _ hlt hm => exact .letIn hn (ih _ hlt (ho ▸ hm))
    | reinterpret hlt hm => exact .reinterpret hn (ih _ hlt (ho ▸ hm))
    | @choice cond no yes binders native oc on oy _ hnat hb _ hc hmc hno hmno hyes hmyes =>
      -- the condition is a truth value, and the branch it takes comes to the same
      obtain ⟨b, rfl, htaken⟩ : ∃ b, oc = some (.bool b) ∧
          Comes g ρ (if b then yes else no) (.con c) := by
        rcases FirstOrder.choose_eq_some ho.symm with ⟨rfl, rfl⟩ | ⟨rfl, rfl⟩
        · exact ⟨true, rfl, ih _ hyes hmyes⟩
        · exact ⟨false, rfl, ih _ hno hmno⟩
      have hcond := ih _ hc hmc
      cases native with
      | false => exact .choice hn hcond rfl htaken
      | true =>
        have hnil : (binders[if b then 1 else 0]?).getD [] = [] := by
          cases hi : binders[if b then 1 else 0]? with
          | none => rfl
          | some ys => exact List.flatten_eq_nil_iff.1 hb ys (List.mem_of_getElem? hi)
        refine .case hn (hnat rfl) hcond rfl ?_ hnil rfl .nil (.inl rfl) htaken
        cases b <;> rfl
    | @builtin f args os hf hl hlt hm =>
      obtain ⟨cs, hcs, hcall⟩ := FirstOrder.call_eq_some ho.symm
      refine .builtin hn (FirstOrder.availableIn_of_onPrimitives hf hw) hl ?_ ?_ hcall
      · rintro rfl
        exact arity_ne_zero hf hl.symm
      · have hargs : ∀ {args : List ValueId} {cs : List Constant}, args.map os = cs.map some →
            (∀ a : Nat, a ∈ args → a < id) → (∀ a : Nat, a ∈ args → Means g a (os a)) →
            List.Forall₂ (fun a c => Comes g ρ a (.con c)) args cs := by
          intro args
          induction args with
          | nil =>
            rintro (_ | _) hcs - -
            · exact .nil
            · cases hcs
          | cons a args ihargs =>
            rintro (_ | ⟨c, cs⟩) hcs hlt hm
            · cases hcs
            · rw [List.map_cons, List.map_cons, List.cons.injEq] at hcs
              rw [List.forall_mem_cons] at hlt hm
              exact .cons (ih a hlt.1 (hcs.1 ▸ hm.1)) (ihargs hcs.2 hlt.2 hm.2)
        exact hargs hcs hlt hm

/-! ## Values that come to a constant -/

/-- A value that is tidy and comes to a constant, in this graph and in all
later ones. -/
structure Yields (s : State) (id : Nat) (c : Constant) : Prop where
  valid : Valid s id
  tidy : ∀ g, Later 0 s g → Tidy g [] id
  comes : ∀ g, Later 0 s g → ∀ ρ, Comes g ρ id (.con c)

theorem comes_of_constantIn (h : s.constantIn fuel id = some c) : Comes s ρ id (.con c) := by
  induction fuel generalizing id with
  | zero => cases h
  | succ fuel ih =>
    rw [State.constantIn] at h
    split at h
    · cases h
    · rename_i v hv
      have hn := node?_of_value hv
      split at h <;> rename_i heq
      · cases h
        exact .const (heq ▸ hn)
      · exact .defined (heq ▸ hn) (ih h)
      · exact .aliased (heq ▸ hn) (ih h)
      · exact .reinterpret (heq ▸ hn) (ih h)
      · cases h

namespace Yields

variable {x : Nat} {c' : Constant}

theorem grow (h : Yields s id c) (hl : Later 0 s s') : Yields s' id c :=
  ⟨hl.valid h.valid, fun g hg => h.tidy g (hl.trans hg), fun g hg => h.comes g (hl.trans hg)⟩

/-- What a value is known to be is what it comes to. -/
theorem eq_of_constant? (h : Yields s id c) (hc : s.constant? id = some c') : c' = c :=
  Sense.con.inj ((comes_of_constantIn hc).unique (h.comes s .refl []))

theorem of_means (hw : s.target ≠ .unknown) (h : Means s id (some c)) : Yields s id c := by
  have hkeep : ∀ g, Later 0 s g → Means g id (some c) := fun g hg =>
    h.keep hg.target fun i n hn => hg.node? (valid_of_node? hn).1 hn
  exact ⟨h.valid, fun g hg => tidy_of_means (hkeep g hg),
    fun g hg ρ => comes_of_means (hg.target ▸ hw) (hkeep g hg)⟩

theorem of_const (h : At s id (.const c) t r) : Yields s id c :=
  ⟨h.valid, fun _ hg => .leaf (hg.node? h.valid.1 h.node) rfl,
    fun _ hg _ => .const (hg.node? h.valid.1 h.node)⟩

theorem of_view (h : Is s id (.reinterpret x) t r) (hx : Yields s x c) : Yields s id c :=
  ⟨h.valid, fun g hg => (h.grow hg).tidy rfl rfl (by simpa using hx.tidy g hg),
    fun g hg ρ => .reinterpret (h.grow hg).node (hx.comes g hg ρ)⟩

theorem of_var {name : String} (h : Is s id (.var name (some x)) t r) (hx : Yields s x c) :
    Yields s id c :=
  ⟨h.valid, fun g hg => (h.grow hg).tidy rfl rfl (by simpa using hx.tidy g hg),
    fun g hg ρ => .defined (h.grow hg).node (hx.comes g hg ρ)⟩

theorem of_builtin {args : List ValueId} (h : Is s id (.builtin f args) t r)
    (hf : f.availableIn s.target = true) (hl : args.length = f.arity) (hne : args ≠ [])
    (hargs : List.Forall₂ (Yields s) args cs)
    (hcall : Machine.call f (cs.map .con) = .ok (.con c)) : Yields s id c := by
  refine ⟨h.valid, fun g hg => (h.grow hg).tidy rfl rfl fun x hx => ?_, fun g hg ρ => ?_⟩
  · obtain ⟨i, hi, rfl⟩ := List.getElem_of_mem (part_builtin.1 hx)
    exact (hargs.get hi (hargs.length_eq ▸ hi)).tidy g hg
  · exact .builtin (h.grow hg).node (hg.target ▸ hf) hl hne
      (hargs.imp fun _ _ hx => hx.comes g hg ρ) hcall

end Yields

/-! ## Packing -/

theorem constIn_yields :
    Lands (constIn c type rep span) s fun out s' =>
      Yields s' out c ∧ At s' out (.const c) type rep :=
  constIn_is.mono fun _ _ _ h => ⟨.of_const h.2.known, h.2.known⟩

section

variable (hw : s.target ≠ .unknown)

include hw

/-- A builtin that all versions have comes to what it makes of its arguments. -/
theorem builtin_yields {args : List ValueId} (hf : f.isKnown = true ∧ f.since = .v1)
    (hl : args.length = f.arity) (hne : args ≠ []) (h : List.Forall₂ (Yields s) args cs)
    (hcall : Machine.call f (cs.map .con) = .ok (.con c)) :
    Lands (Graph.builtin f type rep span args) s fun out s' =>
      Yields s' out c ∧ ∃ n, At s' out n type rep := by
  have ha : ∀ {w : Version}, w ≠ .unknown → f.availableIn w = true :=
    availableIn_of_since hf.1 hf.2
  refine (builtin_is (ha hw) fun x hx => ?_).mono ?_
  · obtain ⟨i, hi, rfl⟩ := List.getElem_of_mem hx
    exact (h.get hi (h.length_eq ▸ hi)).valid
  · rintro out s' he ⟨-, hout⟩
    exact ⟨.of_builtin hout (ha (he.target ▸ hw)) hl hne
      (h.imp fun _ _ hx => hx.grow he.later) hcall, _, hout.known⟩

variable (h : Yields s id c)

include h

theorem call_yields {c' : Constant} (hf : f.isKnown = true ∧ f.since = .v1 ∧ f.arity = 1)
    (hcall : Machine.call f [.con c] = .ok (.con c')) :
    Lands (Graph.builtin f type rep span [id]) s fun out s' =>
      Yields s' out c' ∧ ∃ n, At s' out n type rep :=
  builtin_yields hw ⟨hf.1, hf.2.1⟩ hf.2.2.symm (by simp) (.cons h .nil) hcall

/-- The work of putting a constant of a primitive type into data. -/
theorem build_yields {convert : Converter} (ht : FirstOrder.primitive t = true)
    (hr : Route .pack t work) (hp : Boxed t c d) :
    Lands (work.build convert .packed id t span) s fun out s' =>
      Yields s' out (.data d) ∧ ∃ n, At s' out n t .packed := by
  cases hr with
  | packInteger | packByteString =>
    obtain ⟨_, rfl, rfl⟩ := hp
    exact call_yields hw h ⟨rfl, rfl, rfl⟩ rfl
  | packString =>
    obtain ⟨text, rfl, rfl⟩ := hp
    refine .bind (call_yields hw h ⟨rfl, rfl, rfl⟩ rfl) ?_
    rintro bytes s1 e1 - ⟨hbytes, -⟩
    exact call_yields (e1.target ▸ hw) hbytes ⟨rfl, rfl, rfl⟩ rfl
  | packBoolean =>
    obtain ⟨b, rfl, rfl⟩ := hp
    refine .bind constIn_yields ?_
    rintro yes s1 e1 - ⟨hyes, -⟩
    refine .bind constIn_yields ?_
    rintro no s2 e2 - ⟨hno, -⟩
    have h := h.grow (e1.trans e2).later
    have hyes := hyes.grow e2.later
    refine builtin_yields ((e1.trans e2).target ▸ hw) ⟨rfl, rfl⟩ rfl (by simp)
      (.cons h (.cons hyes (.cons hno .nil))) ?_
    cases b <;> rfl
  | packUnit =>
    obtain ⟨rfl, rfl⟩ := hp
    refine .bind constIn_yields ?_
    rintro unit s1 e1 - ⟨hunit, hat⟩
    have h := h.grow e1.later
    refine .read (effortless_run h.valid) ?_
    split
    · refine (reinterpret_is hat (by simp) (by nofun) (by nofun)).mono ?_
      rintro out s2 e2 ⟨-, hout⟩
      exact ⟨.of_view hout (hunit.grow e2.later), _, hout.known⟩
    · exact builtin_yields (e1.target ▸ hw) ⟨rfl, rfl⟩ rfl (by simp)
        (.cons h (.cons hunit .nil)) rfl
  | packDataList | packMap | packItems | packPair | packComponents => cases ht

/-- **A constant is brought into packed layout.** -/
theorem convertValue_yields {convert : Converter} (hr : Route .pack t work) (hp : Boxed t c d)
    (hat : At s id n t .constant) (hknown : FirstOrder.primitive t = true ∨ n = .const c) :
    Lands (convertValue convert id .packed) s fun out s' => Yields s' out (.data d) := by
  have hconst : n = .const c → s.constant? id = some c := by
    rintro rfl
    obtain ⟨v, hv, hn, -⟩ := hat
    rw [State.constant?, State.constantReach, State.constantIn, hv]
    simp only [hn]
  obtain ⟨v, hv, rfl, rfl, hrep⟩ := hat
  refine .read (value_run hv) (.read decls_run ?_)
  rw [hrep]
  simp only [Rep.isTypeVar, Rep.isClosure, hr.normalRep, Bool.or_self, Bool.false_eq_true, if_false,
    reduceCtorEq, decide_false]
  refine .read target_run ?_
  have hpath : path? (edges s.decls s.target v.type) .constant .packed =
    some [⟨.constant, .packed, work⟩] := hr.path s.decls s.target
  simp only [hpath, List.foldlM_cons, List.foldlM_nil, bind_pure]
  refine .bind (P := fun out s' => Yields s' out (.data d) ∧ ∃ n, At s' out n v.type .packed) ?_ ?_
  · refine .read (constantOf_run h.valid) ?_
    cases hk : s.constant? id with
    | some c' =>
      cases h.eq_of_constant? hk
      rw [Option.bind_some, hr.fold_pack hp]
      exact constIn_yields.mono fun _ _ _ hout => ⟨hout.1, _, hout.2⟩
    | none =>
      have ht : FirstOrder.primitive v.type = true :=
        hknown.resolve_right fun hn => by simp [hconst hn] at hk
      rw [Option.bind_none]
      refine .bind (build_yields hw h ht hr hp) ?_
      intro out s1 _ _ hout
      obtain ⟨_, w, hw, -, -, hwrep⟩ := hout.2
      refine .read (value_run hw) ?_
      rw [if_pos hwrep]
      exact .pure hout
  · rintro out s1 e1 - ⟨hout, m, hm⟩
    exact ⟨out, s1, reinterpret_self hm hr.plain.same, .refl, rfl, hout⟩

end

/-! ## Changing the layout of built values -/

theorem upcast_self (hat : At s id n t r) (ht : t.same t = true) :
    (upcast id t span).run s = (.ok id, s) := by
  obtain ⟨v, hv, -, rfl, -⟩ := hat
  rw [upcast, run_bind_of_ok (value_run hv)]
  split
  · rfl
  · rfl
  · rw [if_pos (by simp [ht])]
    rfl

/-- **A constant becomes a packed field.** -/
theorem toRep_yields (hw : s.target ≠ .unknown) (h : Yields s id c) (ht : Stored t)
    (hp : Boxed t c d) (hat : At s id n t .constant) (hn : isBuilt n = true)
    (hknown : FirstOrder.primitive t = true ∨ n = .const c) :
    Lands (toRep id .packed) s fun out s' => Yields s' out (.data d) := by
  rcases ht.plain.exists_pack with rfl | ⟨work, hr⟩
  · obtain ⟨rfl, -⟩ := hp
    refine (toRep_view hat (by decide) (compatible_data s.decls .pack) ?_
      Plain.data.ne_missing).mono ?_
    · rintro x rfl
      cases hn
    · rintro out s' he ⟨-, hout⟩
      exact .of_view hout (h.grow he.later)
  · obtain ⟨k, -, hrun⟩ := toRep_step hat
    have hnot : s.decls.compatible t .constant .packed = false := hr.not_compatible s.decls
    rw [Lands, hrun, toRepStep_convert hat (by decide) hn hnot]
    exact convertValue_yields hw h hr hp hat hknown

/-! ## Expressions of first order build their values -/

/-- Whatever the step returns is built. -/
def Builds (m : LowerM ValueId) : Prop :=
  ∀ s id s', m.run s = (.ok id, s') → ∃ n, s'.node? id = some n ∧ isBuilt n = true

theorem Builds.bind {α : Type} {m : LowerM α} {f : α → LowerM ValueId} (h : ∀ a, Builds (f a)) :
    Builds (m >>= f) := by
  intro s id s' hrun
  obtain ⟨a, s1, -, hf⟩ := run_bind_ok.1 hrun
  exact h a _ _ _ hf

theorem forM_value_ok {ids : List ValueId}
    (h : (ids.forM fun i => do let _ ← value i).run s = (.ok (), s')) :
    s' = s ∧ ∀ i ∈ ids, Valid s i := by
  induction ids with
  | nil =>
    cases h
    exact ⟨rfl, by simp⟩
  | cons i ids ih =>
    obtain ⟨_, s1, h1, h2⟩ := run_bind_ok.1 h
    obtain ⟨v, s2, hv, hpure⟩ := run_bind_ok.1 h1
    obtain ⟨hv, rfl⟩ := run_value_ok.1 hv
    cases hpure
    obtain ⟨rfl, hids⟩ := ih h2
    exact ⟨rfl, List.forall_mem_cons.2 ⟨valid_of_value hv, hids⟩⟩

theorem newNode_builds (hn : isBuilt n = true) : Builds (newNode n type rep span) := by
  intro s id s' h
  rw [newNode, run_bind_of_ok (alloc_run _)] at h
  obtain ⟨_, s1, h1, h⟩ := run_bind_ok.1 h
  obtain ⟨rfl, hvalid⟩ := forM_value_ok h1
  obtain ⟨s2, hslots, hcounted⟩ := forM_counted (f := noteSlot) (l := n.subs)
    fun i hi s1 hs1 => noteSlot_run (hs1.valid.2 (hvalid i hi))
  rw [run_bind_of_ok run_get, run_bind_of_ok hslots,
    run_bind_of_ok (update_run _), run_pure] at h
  cases h
  have hpushed :
      (s.push (.new n type rep span)).value? (s.size + 1) = some (.new n type rep span) := by
    rw [value?_push, if_pos rfl]
  obtain ⟨w, hw, hcore⟩ := hcounted.exists_value hpushed
  refine ⟨n, ?_, hn⟩
  rw [node?_of_value (by rw [value?_bump (Nat.succ_pos _), if_pos rfl, hw]; rfl)]
  exact congrArg some (FirstOrder.node_of_core hcore)

theorem builtin_builds {args : List ValueId} : Builds (Graph.builtin f type rep span args) := by
  refine .bind fun w => ?_
  split
  · refine .bind fun _ => newNode_builds rfl
  · exact newNode_builds rfl

theorem ifThenElse_builds {cond yes no : ValueId} :
    Builds (Graph.ifThenElse cond yes no type rep span) := by
  refine .bind fun c => .bind fun bs => ?_
  split <;> exact newNode_builds rfl

theorem letIn_builds {owned : List ValueId} {strict : Option ValueId} {body : ValueId} :
    Builds (Graph.letIn owned strict body span) :=
  .bind fun _ => newNode_builds rfl

theorem spine_of_typedCall {Γ : List (String × Ty)} {e : Expr} {ts : List Ty}
    (h : FirstOrder.TypedCall Γ e f ts) :
    ∃ type span args, spine e = (.node type span (.builtin f), args) ∧
      args.length = ts.length := by
  induction hlen : ts.length generalizing e ts with
  | zero =>
    cases h with
    | head => exact ⟨_, _, [], rfl, rfl⟩
    | arg => simp at hlen
  | succ n ih =>
    cases h with
    | head => cases hlen
    | @arg _ _ a _ _ _ _ t sp hfn _ _ =>
      obtain ⟨type, span, args, hspine, hargs⟩ := ih hfn (by simpa using hlen)
      exact ⟨type, span, (a, t, sp) :: args, by rw [spine, hspine], by simp [hargs]⟩

/-- The value of a closed expression of first order is built. -/
theorem lowerStep_builds {lower : Lowerer} {e : Expr} (h : Typed [] e t) :
    Builds (lowerStep lower e) := by
  obtain ⟨c, args, rfl⟩ := FirstOrder.con_of_simple (h.simple (by simp))
  cases h with
  | var hx => cases hx
  | const | error => exact .bind fun _ => newNode_builds rfl
  | letIn =>
    exact .bind fun _ => .bind fun _ => .bind fun _ => .bind fun _ => .bind fun _ =>
      .bind fun _ => .bind fun _ => letIn_builds
  | and | or =>
    exact .bind fun _ => .bind fun _ => .bind fun _ => .bind fun _ => .bind fun _ =>
      ifThenElse_builds
  | not =>
    exact .bind fun _ => .bind fun _ => .bind fun _ => .bind fun _ => .bind fun _ =>
      ifThenElse_builds
  | ifThenElse =>
    exact .bind fun _ => .bind fun _ => .bind fun _ => .bind fun _ => .bind fun _ =>
      .bind fun _ => .bind fun _ => .bind fun _ => .bind fun _ => .bind fun _ => .bind fun _ =>
      ifThenElse_builds
  | @call _ fn a f _ sp hf ht h =>
    obtain ⟨type, span, _, hspine, hlen⟩ := spine_of_typedCall h
    have hcall : Builds (lowerApply lower (.con c args) sp fn a) := by
      rw [FirstOrder.lowerApply_call hspine (hlen.trans (FirstOrder.arity_eq _))]
      simp only [lowerBuiltinCall]
      split <;> exact .bind fun _ => .bind fun _ => builtin_builds
    exact .bind fun _ => hcall

/-! ## Fields -/

/-- An expression that gives a constant of a type: the constant itself, or an
expression of first order that comes to it. -/
inductive Gives (t : Ty) (c : Constant) : Expr → Prop where
  | literal (span : Span) : c.WellFormed → t.constType? = some c.type →
      Gives t c (.node t span (.const (some c)))
  | computed {e : Expr} : Typed [] e t → meaning [] [] e = some c → Gives t c e

namespace Gives

variable {e : Expr}

/-- The constant is kept as some data. -/
theorem exists_boxed (h : Gives t c e) (ht : Stored t) : ∃ d, Boxed t c d := by
  cases h with
  | literal _ hwell htype => exact Layout.exists_boxed ht.plain.packable htype hwell
  | computed h hc =>
    have hp := h.has .nil c hc
    refine Layout.exists_boxed ht.plain.packable ?_ ?_
    · cases c <;> cases hp <;> rfl
    · cases c <;> first | rfl | cases hp

theorem lowers (h : Gives t c e) (ht : Stored t) (hd : e.depth < fuel)
    (hs : FirstOrder.InScope s [] []) :
    Lands (lowerExprIn fuel e) s fun id s' => Yields s' id c ∧
      ∃ n, At s' id n t .constant ∧ isBuilt n = true ∧
        (FirstOrder.primitive t = true ∨ n = .const c) := by
  obtain ⟨fuel, rfl⟩ := Nat.exists_eq_succ_of_ne_zero (Nat.ne_zero_of_lt hd)
  cases h with
  | literal span hwell htype =>
    obtain ⟨tc, args, rfl⟩ := ht.con
    refine .bind FirstOrder.point_lands fun _ s1 _ _ _ => constIn_yields.mono ?_
    rintro id s2 - ⟨hid, hat⟩
    exact ⟨hid, _, hat, rfl, .inr rfl⟩
  | computed h hc =>
    have hp := h.has .nil c hc
    obtain ⟨id, s1, hrun, he, hscope, hid⟩ := FirstOrder.lowerExprIn_lowersTyped _ h hd hs
    obtain ⟨n, hn, hbuilt⟩ := lowerStep_builds h _ _ _ hrun
    rw [hc] at hid
    obtain ⟨v, hv, htype, hrep⟩ := hid.value
    rw [node?_of_value hv, Option.some.injEq] at hn
    refine ⟨id, s1, hrun, he, hscope, .of_means (he.target ▸ hs.target) hid.means, n,
      ⟨v, hv, hn, htype, ?_⟩, hbuilt, .inl ?_⟩
    · exact hrep.resolve_right fun hnone => by cases hnone.2
    · cases c <;> cases hp <;> rfl

/-- A field is lowered and packed. -/
theorem field (h : Gives t c e) (ht : Stored t) (hp : Boxed t c d) (hd : e.depth < fuel)
    (hs : FirstOrder.InScope s [] []) :
    Lands (do
        let x ← lowerExprIn fuel e
        let x ← upcast x t e.span
        toRep x (← fieldRep t e.span)) s fun id s' => Yields s' id (.data d) := by
  refine .bind (h.lowers ht hd hs) ?_
  rintro x s1 e1 - ⟨hx, n, hat, hbuilt, hknown⟩
  have hrep : (fieldRep t e.span).run s1 = (.ok .packed, s1) := by
    rw [fieldRep, run_bind_of_ok decls_run, if_neg (ht.plain.not_function _),
      ht.plain.packedRep]
    rfl
  refine .read (upcast_self hat ht.plain.same) (.read hrep ?_)
  exact toRep_yields (e1.target ▸ hs.target) hx ht hp hat hbuilt hknown

end Gives

/-- Expressions for the fields of a constructor, with the types of the fields
and the constants that the expressions give. -/
def FieldsGiven (fs : List (Ty × Constant)) (es : List Expr) : Prop :=
  List.Forall₂ (fun f e => Stored f.1 ∧ Gives f.1 f.2 e) fs es

/-- The constants of fields and the data they are kept as. -/
def FieldsPacked (fs : List (Ty × Constant)) (ds : List Data) : Prop :=
  List.Forall₂ (fun f d => Boxed f.1 f.2 d) fs ds

section

variable {fs : List (Ty × Constant)} {es : List Expr} {ds : List Data} {ids : List ValueId}

theorem FieldsGiven.exists_packed (h : FieldsGiven fs es) : ∃ ds, FieldsPacked fs ds := by
  induction h with
  | nil => exact ⟨[], .nil⟩
  | cons h _ ih =>
    obtain ⟨d, hd⟩ := h.2.exists_boxed h.1
    obtain ⟨ds, hds⟩ := ih
    exact ⟨d :: ds, .cons hd hds⟩

theorem lowerFields_yields (h : FieldsGiven fs es) (hp : FieldsPacked fs ds)
    (hd : ∀ e ∈ es, e.depth < fuel) (hs : FirstOrder.InScope s [] []) :
    Lands (lowerFields (lowerExprIn fuel) es (fs.map (·.1))) s fun ids s' =>
      List.Forall₂ (fun id d => Yields s' id (.data d)) ids ds := by
  unfold lowerFields
  induction h generalizing s ds with
  | nil =>
    cases hp
    exact .pure .nil
  | cons h _ ih =>
    cases hp with
    | cons hp hps =>
      rw [List.forall_mem_cons] at hd
      rw [List.map_cons, List.zip_cons_cons, List.mapM_cons]
      refine .bind (h.2.field h.1 hp hd.1 hs) fun x s1 e1 k1 hx => ?_
      refine .bind (ih hps hd.2 (hs.extend e1 k1)) fun xs s2 e2 _ hxs => ?_
      exact .pure (.cons (hx.grow e2.later) hxs)

/-- An item in front of a list; constants that are known are joined right
away. -/
theorem consValue_yields {head list : Nat} (hw : s.target ≠ .unknown) (hh : Yields s head (.data d))
    (hl : Yields s list (.dataList ds)) :
    Lands (consValue head list type rep span) s fun id s' =>
      Yields s' id (.dataList (d :: ds)) := by
  refine .read (constantOf_run hh.valid) (.read (constantOf_run hl.valid) ?_)
  split
  · rename_i h e xs hc hcs
    cases hh.eq_of_constant? hc
    cases hl.eq_of_constant? hcs
    rw [if_pos (by rfl)]
    exact constIn_yields.mono fun _ _ _ hid => hid.1
  · refine (builtin_yields hw ⟨rfl, rfl⟩ rfl (by simp) (.cons hh (.cons hl .nil)) ?_).mono
      fun _ _ _ hid => hid.1
    exact call_mkCons rfl _

theorem consAll_yields (hw : s.target ≠ .unknown)
    (h : List.Forall₂ (fun id d => Yields s id (.data d)) ids ds) :
    Lands (consAll ids span) s fun list s' => Yields s' list (.dataList ds) := by
  refine .bind constIn_yields ?_
  rintro nil s1 e1 - ⟨hnil, -⟩
  replace h := h.imp fun _ _ hx => hx.grow e1.later
  have hw1 : s1.target ≠ .unknown := e1.target ▸ hw
  -- the last field is put in front of the empty list first
  induction h with
  | nil => exact .pure hnil
  | cons hx _ ih =>
    rw [List.reverse_cons, List.foldlM_append]
    refine .bind ih fun list s2 e2 _ hlist => ?_
    rw [List.foldlM_cons]
    refine .bind (consValue_yields (e2.target ▸ hw1) (hx.grow e2.later) hlist) ?_
    exact fun _ _ _ _ hout => .pure hout

theorem dataItems_dataList (ds : List Data) : (Constant.dataList ds).dataItems = some ds :=
  mapM_data? ds

/-- The layout of a declared type. -/
def constrRep (d : Decl) : Ty → Rep
  | .con (.sum _) _ => if d.isProduct then .prodConstr else .sumConstr
  | _ => .prodConstr

/-- **The value of a constructor** comes to the data with its tag and its
packed fields. -/
theorem lowerConstr_yields {tag : Nat} {d : Decl} {k : Constructor} {tc : TyCon} {args : List Ty}
    {decl : String} (h : FieldsGiven fs es) (hp : FieldsPacked fs ds)
    (hd : ∀ e ∈ es, e.depth < fuel) (hs : FirstOrder.InScope s [] [])
    (hfind : s.decls.find? decl = some d) (hlist : d.name ≠ Ty.listName)
    (hk : d.find? k.name = some k) (htag : d.tag? k.name = some tag) (hlt : tag < UInt64.size)
    (htypes : d.fieldTypes k args = fs.map (·.1)) :
    Lands (lowerConstr (lowerExprIn fuel) (.con tc args) span decl k.name es) s
      fun id s' => Yields s' id (.data (.constr (.ofNat tag) ds)) ∧
        ∃ n, At s' id n (.con tc args) (constrRep d (.con tc args)) := by
  refine .read decls_run ?_
  have hlen : es.length = k.fields.length := by
    have := congrArg List.length htypes
    rw [Decl.fieldTypes, List.length_map, List.length_map] at this
    rw [this, ← h.length_eq]
  simp only [hfind, hk, htag, hlen, ne_eq, not_true_eq_false, if_false, Ty.unwrap, Ty.args, htypes,
    if_neg hlist]
  refine .bind (lowerFields_yields h hp hd hs) fun ids s1 e1 _ hids => ?_
  have hw1 : s1.target ≠ .unknown := e1.target ▸ hs.target
  refine .bind (consAll_yields hw1 hids) fun list s2 e2 _ hl => ?_
  have hw2 : s2.target ≠ .unknown := e2.target ▸ hw1
  refine .read (constantOf_run hl.valid) ?_
  split
  · rename_i items hitems
    obtain ⟨c, hc, hitems⟩ := Option.bind_eq_some_iff.1 hitems
    cases hl.eq_of_constant? hc
    rw [dataItems_dataList] at hitems
    cases hitems
    exact constIn_yields.mono fun _ _ _ hid => ⟨hid.1, _, hid.2⟩
  · refine .bind constIn_yields ?_
    rintro number s3 e3 - ⟨hnumber, -⟩
    exact builtin_yields (e3.target ▸ hw2) ⟨rfl, rfl⟩ rfl (by simp)
      (.cons hnumber (.cons (hl.grow e3.later) .nil)) (call_constrData hlt ds)

end

end CoreLowering.Encoding
