import CoreLowering.Proofs.Encoding.Converting
import CoreLowering.Proofs.Encoding.Functions

/-!
# Folding agrees with running

The layout of a constant is changed when the term is made; the layout of any
other value is changed by the term.  Both ways give the same.

The value that is not known beforehand is the parameter of a function.  Its
conversion is the body, and all that the body uses besides the parameter is
defined over it or can be used anywhere.

Main statement: `performs_of_foldPath`, the term of the function can be made, and
applied to a constant it gives what folding makes of the constant.
-/

namespace CoreLowering.Encoding

open CoreLowering.Graph
open CoreLowering.FirstOrder (Extends Lands)
open Machine (Settings)

variable {g s : State} {id x y out : Nat} {t : Ty} {way : Direction} {c c' : Constant}
  {name : String} {barrier debug : Bool} {span : Span} {target : Version} {decls : Decls}

/-! ## The function -/

/-- The function that changes the layout of its argument. -/
def converter (name : String) (t : Ty) (way : Direction) (barrier : Bool) (span : Span) :
    LowerM ValueId := do
  let x ← newBinder name t way.source span
  let out ← toRep x way.goal
  lambda (some x) out (.arrow t t) (.closure way.source way.goal) barrier span

/-- The term of what is built, with the fixed-point combinator bound. -/
def linked (build : LowerM ValueId) : LowerM Term := do
  let id ← build
  let u ← emit id
  return link u (← get).usesFix

/-- Building the function makes changes only, and the function comes last. -/
theorem converter_kept (way : Direction) (hi : Inv s) :
    Grows s ((converter name t way barrier span).run s).2 ∧
      ∀ id, ((converter name t way barrier span).run s).1 = .ok id →
        Framed (· ≤ s.size) [] s ((converter name t way barrier span).run s).2 ∧
          ((converter name t way barrier span).run s).2.size = id := by
  have hkept : Kept (· ≤ s.size) (converter name t way barrier span) s
      fun id s' => s'.size = id := by
    refine .grow .refl newBinder_kept ?_
    rintro x s1 g1 - ⟨hx, -, hblank⟩
    refine .grow g1 (toRep_kept hx.within) fun out s2 g2 h2 hout => .last ?_
    have hx2 := (hx.claimable hblank).grow g2
    refine (newNode_sound (K := (· = x)) rfl ?_ ?_ ?_ ?_).mono fun _ _ _ h => h.1.size
    · simpa [Node.subs] using hout.widen fun _ => .inl
    · simpa [Node.scopeOf, Node.binds, Claimable] using hx2
    · exact fun _ u hu => .inr (hu ▸ hx2.2.2)
    · trivial
  exact hkept.run hi

/-! ## Its body -/

/-- The value `out` is a body for a function of `x`, which gives the parameter
in its other layout. -/
structure Body (g : State) (way : Direction) (t : Ty) (x out : Nat) : Prop where
  tidy : Tidy g [x] out
  outside : ∀ u : Nat, u ∈ (g.usedOf out).ids → u ≠ x → x ∉ (g.usedOf u).ids → Free g u
  comes : ∀ {c c' : Constant}, way.change t c c' → Comes g [(x, c)] out (.con c')

namespace Body

variable (hu : UsedInside g) (hx : g.node? x = some (.var name none))
  (hself : ∀ u : Nat, u ∈ (g.usedOf x).ids ↔ u = x)

include hu hx hself

/-- A value that is built over the parameter. -/
theorem of_over (hover : Over g x out)
    (hcomes : ∀ {c c' : Constant}, way.change t c c' → Comes g [(x, c)] x (.con c) →
      Comes g [(x, c)] out (.con c')) : Body g way t x out where
  tidy := hover.tidy (.blank hu (List.mem_singleton.2 rfl) ⟨name, hx⟩)
  outside u hmem hne hnot := by
    rcases hover.used u hmem with hself' | hfree | ⟨-, hall⟩
    · exact absurd ((hself u).1 hself') hne
    · exact hfree
    · exact absurd (hall x ((hself x).2 rfl)) hnot
  comes hc := hcomes hc (.given hx (by simp))

/-- An alias of the parameter, defined by its conversion. -/
theorem of_alias {o : ValueId} {other : String} {conv : Nat} {r : Rep}
    (h : Is g out (.aliased other o (some conv)) t r) (hconv : Converted g (way.change t) x conv) :
    Body g way t x out := by
  have hcomes : ∀ {c c' : Constant}, way.change t c c' → Comes g [(x, c)] x (.con c) →
      Comes g [(x, c)] out (.con c') := fun hc hx => .aliased h.node (hconv.comes hc hx)
  rcases hconv.built with hover | ⟨hsettled, -⟩
  · exact .of_over hu hx hself (.aliased h hover) hcomes
  -- what is known beforehand does not use the parameter
  · have hfree : Free g out := .loose h.node rfl hsettled
    refine ⟨.free hfree, fun u hmem _ _ => ?_, fun hc => hcomes hc (.given hx (by simp))⟩
    exact (hfree.ground hu).used u hmem

end Body

/-- **The parameter of a function is converted.** -/
theorem toRep_param (hw : s.target ≠ .unknown) (hviews : s.views = []) (hhelpers : s.helpers = [])
    (ht : t = .data ∨ ∃ work, Route way t work) (hat : At s x (.var name none) t way.source)
    (hself : ∀ u : Nat, u ∈ (s.usedOf x).ids ↔ u = x) :
    Makes (toRep x way.goal) s fun out s' => Valid s' out ∧
      ∀ g, Later 0 s' g → UsedInside g → Body g way t x out := by
  have hpos := hat.valid.1
  have hself' : ∀ {g}, Later 0 s g → ∀ u : Nat, u ∈ (g.usedOf x).ids ↔ u = x := fun hg u => by
    rw [hg.usedOf hpos hat.valid, hself]
  rcases ht with rfl | ⟨work, hr⟩
  · refine .of_lands ((toRep_view hat way.source_ne_goal (compatible_data s.decls way) (by simp)
      Plain.data.ne_missing).mono ?_)
    rintro out s' he ⟨-, hout⟩
    refine ⟨hout.valid, fun g hg hu => ?_⟩
    have hg' := he.later.trans hg
    have hout := hout.grow hg
    refine .of_over hu (hg'.node? hpos hat.node) (hself' hg') (.view hout .refl) fun hc hx => ?_
    rw [eq_of_change_data hc]
    exact .reinterpret hout.node hx
  · obtain ⟨k, hk, hrun⟩ := toRep_step hat
    rw [Makes, hrun]
    refine (((toRepIn_converts (k + 1)).1 hr (by omega)).1 hw (.empty hviews hhelpers)
      (by simp [hviews]) (Nat.zero_le _) hpos hat (constant?_of_blank ⟨name, hat.node⟩)).mono ?_
    rintro out s' hl ⟨conv, hout⟩
    obtain ⟨_, hmade⟩ := hout.made
    refine ⟨hmade.valid, fun g hg hu => ?_⟩
    have hg' := hl.trans hg
    exact .of_alias hu (hg'.node? hpos hat.node) (hself' hg') (hmade.grow hg)
      (hout.later g hg hu (.empty hhelpers))

/-- **The function is built**: its body gives the parameter in its other layout. -/
theorem converter_makes (name : String) (barrier : Bool) (span : Span) (hw : s.target ≠ .unknown)
    (hviews : s.views = []) (hhelpers : s.helpers = [])
    (ht : t = .data ∨ ∃ work, Route way t work) :
    Makes (converter name t way barrier span) s fun id g => UsedInside g →
      ∃ x out, g.node? id = some (.lambda (some x) out barrier) ∧ Blank g x ∧
        Body g way t x out := by
  refine .after newBinder_at ?_
  rintro x s1 e1 ⟨-, y, hat, hself⟩
  refine .bind (toRep_param (e1.target ▸ hw) (e1.views.trans hviews) (e1.helpers.trans hhelpers) ht
    hat hself) ?_
  rintro out s2 l2 ⟨hvalid, hbody⟩
  refine .of_lands ((newNode_at (by simpa [Node.subs] using hvalid)).mono ?_)
  rintro id g e3 ⟨-, hfn, -⟩ hu
  have l3 : Later 0 s2 g := e3.later
  exact ⟨x, out, hfn.node, ⟨y, (l2.trans l3).node? hat.valid.1 hat.node⟩, hbody g l3 hu⟩

/-! ## Its term -/

/-- The function is emitted and linked, and applied to a constant its term
gives what the body comes to. -/
theorem linked_ends {build : LowerM ValueId}
    (hbuild : build.run (State.new target decls debug) = (.ok id, g))
    (ht : Trace 0 (State.new target decls debug) g) (hfn : Abstraction g id x out)
    (hc : Comes g [(x, c)] out (.con c')) :
    ∃ term, ((linked build).run (State.new target decls debug)).1 = .ok term ∧
      ∀ m : Settings, m.version = target.orStandard → m.budget ≤ 0 →
        Machine.Ends m (.apply term (.con c)) (.ok (.con c')) := by
  have hi := ht.inv (.new target decls debug)
  have hu := ht.usedInside (.new target decls debug)
  obtain ⟨t, s, hemit, -, hemits, hfix⟩ := exists_emit (hfn.emitWith_works hi hu)
    (ht.unfilled (.new target decls debug)) ht.evolves.usesFix
  refine ⟨link (t.erase g.nameOf) s.usesFix, ?_, fun m hm hbudget => ?_⟩
  · rw [linked, run_bind_of_ok hbuild, run_bind_of_ok hemit,
      run_bind_of_ok run_get, run_pure]
  · have htarget : g.target = target.orStandard := ht.evolves.target
    obtain ⟨k, hd⟩ := hc
    obtain ⟨n, hn⟩ := hfn.link_hasValue hi hu (ht.named (.new ..)) (hm.trans htarget.symm)
      (hm ▸ (FirstOrder.inScope_new target decls debug).target) hemits hd
      hfix.trans
    exact hn.ends hbudget

/-- Whatever the function and its parameter are like otherwise, the function
that changes the layout of its argument can be made into a term, and without a
budget the machine of the target evaluates its application to the first
constant to the second one. -/
def Performs (target : Version) (decls : Decls) (t : Ty) (way : Direction) (c c' : Constant) :
    Prop :=
  ∀ name barrier span debug, ∃ term,
    ((linked (converter name t way barrier span)).run (State.new target decls debug)).1 = .ok term ∧
    ∀ m : Settings, m.version = target.orStandard → m.budget ≤ 0 →
      Machine.Ends m (.apply term (.con c)) (.ok (.con c'))

/-- **Folding agrees with running**: what folding makes of a constant is what the
term gives for it, the same constant. -/
theorem performs_of_foldPath (ht : Plain t) (hc : c.WellFormed)
    (htype : way.prescribed t = some c.type)
    (hfold : Graph.foldPath decls target.orStandard t way.source way.goal c = some c') :
    Performs target decls t way c c' ∧ c'.same c' = true := by
  obtain ⟨hchange, hwell, hroute⟩ := ht.change_of_foldPath hc htype hfold
  refine ⟨fun name barrier span debug => ?_, Constant.same_self c' hwell⟩
  obtain ⟨id, g, hrun, -, hmade⟩ := converter_makes name barrier span
    (FirstOrder.inScope_new target decls debug).target rfl rfl hroute
  obtain ⟨trace, result⟩ := converter_kept way (.new target decls debug)
  rw [hrun] at trace result
  obtain ⟨x, out, hfn, hx, hbody⟩ := hmade (trace.usedInside (.new target decls debug))
  have hfun : Abstraction g id x out :=
    ⟨⟨barrier, hfn⟩, hx, hbody.tidy, hbody.outside, (result id rfl).2.symm⟩
  exact linked_ends hrun trace hfun (hbody.comes hchange)

/-- Pairs with lists in them are packed, and lists of lists of texts are
unpacked. -/
theorem performs_nested :
    (Performs .v1 ⟨[]⟩ (.builtinList (.builtinPair .integer (.builtinList .boolean))) .pack
        (.list (.pair .integer (.list .bool))
          [.pairOf (.integer 7) (.list .bool [.bool true, .bool false])])
        (.data (.list [.constr 0 [.int 7, .list [.constr 1 [], .constr 0 []]]])) ∧
      Constant.same (.data (.list [.constr 0 [.int 7, .list [.constr 1 [], .constr 0 []]]]))
        (.data (.list [.constr 0 [.int 7, .list [.constr 1 [], .constr 0 []]]])) = true) ∧
    Performs .v4 ⟨[]⟩ (.builtinList (.builtinList .string)) .unpack
        (.data (.list [.list [.bytes [104, 195, 169]], .list []]))
        (.list (.list .string) [.list .string [.string "hé"], .list .string []]) ∧
      Constant.same (.list (.list .string) [.list .string [.string "hé"], .list .string []])
        (.list (.list .string) [.list .string [.string "hé"], .list .string []]) = true :=
  ⟨performs_of_foldPath (.list (.pair (.primitive rfl) (.list (.primitive rfl)))) rfl rfl rfl,
    performs_of_foldPath (.list (.list (.primitive rfl))) rfl rfl rfl⟩

end CoreLowering.Encoding
