import CoreLowering.Proofs.Encoding.Boxing
import CoreLowering.Proofs.Encoding.Unpacking

/-!
# Changing the layout of unknown values

A change of layout does its work on operations right away, and gives a variable
an alias.  The work leads to changes of the items of lists and the components
of pairs, whose types are smaller.

Main statement: `toRepIn_converts`, variables and operations of plain types are
given their other layout.
-/

namespace CoreLowering.Encoding

open CoreLowering.Graph
open CoreLowering.FirstOrder (Extends Lands)

variable {s : State} {way : Direction} {lo id : Nat} {n : Node} {t : Ty}
  {work : Work} {convert : Converter}

/-- Nested changes of layout, of the items of lists and the components of
pairs. -/
structure Nested (convert : Converter) (way : Direction) (t : Ty) : Prop where
  items : ∀ {elem work}, t = .builtinList elem → Route way elem work →
    ConvertsVar (convert · way.goal) way elem
  components : ∀ {a b}, way = .pack → t = .builtinPair a b → Plain a → Plain b →
    ConvertsNode (convert · way.goal) way a ∧ ConvertsNode (convert · way.goal) way b

section

variable (hs : Progress lo way s s) (hid : lo < id) (hr : Route way t work)
  (hnested : Nested convert way t) (hat : At s id n t way.source)
  (hn : n.isIdentifiable = true ∨ isOperation n = true)

include hs hid hr hnested hat hn

theorem build_converts (span : Span) :
    Makes (work.build convert way.goal id t span) s (Conversion lo way s t id) := by
  cases way with
  | pack =>
    exact build_packs hs hid hat.valid hr hnested.items (hnested.components rfl) hat hn
  | unpack => exact build_unpacks hs hid hat.valid hr hnested.items hat hn

/-- **An unknown value is converted** by the work for its type. -/
theorem convertValue_converts (hconst : s.constant? id = none) :
    Makes (convertValue convert id way.goal) s (Conversion lo way s t id) := by
  have hbuild := build_converts hs hid hr hnested hat hn
  have hv := hat.valid
  have hplain : ∀ {way : Direction}, way.goal ≠ .typeVar true ∧ way.goal ≠ .typeVar false ∧
      way.source ≠ .error ∧ way.source.isTypeVar = false ∧ way.source.isClosure = false ∧
      way.goal.isClosure = false ∧ way.source ≠ way.goal := by
    intro way
    cases way <;> simp [Direction.source, Direction.goal, Rep.isTypeVar, Rep.isClosure]
  obtain ⟨hg1, hg2, hs1, hs2, hs3, hg3, hne⟩ := @hplain way
  obtain ⟨v, hval, rfl, rfl, hrep⟩ := hat
  refine .read (value_run hval) (.read decls_run ?_)
  rw [hrep]
  simp only [hg1, hg2, hs1, hs2, hs3, hg3, hne, hr.normalRep, Bool.or_self, Bool.false_eq_true,
    if_false, decide_false]
  refine .read target_run ?_
  simp only [hr.path, List.foldlM_cons, List.foldlM_nil, bind_pure]
  refine .bind (P := Conversion lo way s v.type id) ?_ fun out s1 _ h => ?_
  · refine .read (constantOf_run hv) ?_
    rw [hconst, Option.bind_none]
    refine .bind (hbuild v.span) fun out s1 _ h => ?_
    obtain ⟨m, w, hw, -, -, hwrep⟩ := h.known
    refine .read (value_run hw) ?_
    rw [if_pos hwrep]
    exact .pure h
  · obtain ⟨m, hm⟩ := h.known
    exact ⟨out, s1, reinterpret_self hm hr.plain.same, .refl, h⟩

end

/-- Operations are converted. -/
theorem toRepStep_converts (hr : Route way t work) (hnested : Nested convert way t) :
    ConvertsNode (toRepStep convert · way.goal) way t := by
  intro s lo id n hs hid hat hn
  rw [Makes, toRepStep_convert hat way.source_ne_goal (isBuilt_of_operation hn)
    (hr.not_compatible s.decls)]
  exact convertValue_converts hs hid hr hnested hat (.inr hn) (hat.constant?_of_operation hn)

/-- Data is used as it is. -/
theorem toRepStep_data : ConvertsNode (toRepStep convert · .packed) .pack .data := by
  intro s lo id n hs hid hat hn
  refine .of_lands ((toRepStep_view hat (by decide) (compatible_data s.decls .pack) ?_
    Plain.data.ne_missing).mono ?_)
  · rintro x rfl
    cases hn
  · rintro out s' he ⟨hlt, hout⟩
    have hs' := hs.extend he
    refine ⟨hlt, ⟨_, hout.known⟩, hs'.keeps, fun g hg hu hk => ?_⟩
    have hout := hout.later hg (hs.past hlt) (by simpa using hid)
    refine ⟨.inl (.view hout .refl), ?_⟩
    rintro _ _ ρ ⟨d, ⟨rfl, -⟩, rfl⟩ hc
    exact .reinterpret hout.node hc

/-- An alias of a variable, before further steps. -/
theorem Makes.alias {β : Type} {root rhs : Nat} {rep : Rep} {span : Span}
    {R : β → State → Prop} {k : ValueId → LowerM β} (base : String) (h : Valid s rhs)
    (hk : ∀ id s', Extends s s' → s.size < id →
      (∃ x, Is s' id (.aliased x root (some rhs)) t rep) → Makes (k id) s' R) :
    Makes (do
        let name ← freshName base
        let id ← allocVar (.aliased name root none) t rep span
        setRhs id rhs
        k id) s R := by
  have hassoc : Makes ((do
      let name ← freshName base
      let id ← allocVar (.aliased name root none) t rep span
      setRhs id rhs
      return id) >>= k) s R :=
    .after (newAlias_is h) fun id s' he hid => hk id s' he hid.1 hid.2
  simpa only [bind_assoc, pure_bind] using hassoc
/-- A variable in another layout is an alias. -/
theorem toRepStep_alias (hr : Route way t work) (hnested : Nested convert way t) :
    ConvertsVar (toRepStep convert · way.goal) way t := by
  intro s lo id x rhs hw ho hviews hlo hid hat hconst
  have hne := way.source_ne_goal
  have hmake := convertValue_converts (.start hw hlo ho) hid hr hnested hat (.inl rfl) hconst
  have hv := hat.valid
  obtain ⟨v, hval, hnode, rfl, hrep⟩ := hat
  have hcompat := hr.not_compatible s.decls
  have hroot : (rootVar id).run s = (.ok (some id), s) := by
    rw [rootVar, run_bind_of_ok (value_run hval), hnode]
    rfl
  have hfolded : (foldedView id v way.goal).run s = (.ok none, s) := by
    rw [foldedView, run_bind_of_ok (constantOf_run hv), hconst]
    rfl
  have hlookup : s.views.lookup (id, way.goal.key) = none :=
    List.lookup_eq_none_iff.2 fun p hp => bne_iff_ne.2 fun heq =>
      hviews p hp (congrArg Prod.fst heq).symm
  refine .read (value_run hval) ?_
  rw [hrep, if_neg hne]
  refine .read decls_run ?_
  rw [hcompat]
  refine .read hroot (.read (value_run hval) ?_)
  rw [hrep, if_neg hne]
  refine .read decls_run ?_
  rw [hcompat]
  refine .read run_get ?_
  rw [hlookup]
  refine .read hfolded (.bind hmake fun conv s1 l1 h => ?_)
  obtain ⟨m, hm⟩ := h.known
  refine .alias _ hm.valid ?_
  rintro first s2 e2 hlt2 ⟨name, hfirst⟩
  refine .bind (.modify rfl rfl rfl) fun _ s3 l3 h3 => ?_
  refine .bind (.modify rfl rfl rfl) fun _ s4 l4 h4 => ?_
  refine .after FirstOrder.point_lands fun _ s5 e5 _ => ?_
  have hk2 := h.keeps.extend e2
  have hk4 : Keeps lo way s s4 := by
    refine hk2.views (l3.trans l4) ?_ (by rw [h4, h3])
    rw [h4, h3]
    rintro p hp
    rcases List.mem_cons.1 hp with rfl | hp
    · exact Nat.le_trans hv.2 (Nat.le_trans l1.size e2.size)
    · exact hk2.orderly.views p hp
  have l : Later 0 s2 s5 := l3.trans (l4.trans e5.later)
  have l15 : Later lo s1 s5 := e2.later.trans (l.anti (Nat.zero_le lo))
  exact .pure ⟨conv, ⟨h.fresh, Nat.lt_of_le_of_lt l1.size hlt2⟩, ⟨name, hfirst.grow l⟩,
    hk4.extend e5, fun g hg => h.later g (l15.trans hg)⟩

/-- **Variables and operations are given their other layout**: variables by an
alias, operations by the work for their type. -/
theorem toRepIn_converts (fuel : Nat) :
    (∀ {way t work}, Route way t work → t.size ≤ fuel →
      ConvertsVar (toRepIn fuel · way.goal) way t ∧
        ConvertsNode (toRepIn fuel · way.goal) way t) ∧
      (1 ≤ fuel → ConvertsNode (toRepIn fuel · .packed) .pack .data) := by
  induction fuel with
  | zero =>
    refine ⟨fun {way t work} hr hfuel => ?_, fun h => ?_⟩
    · have := t.size_pos
      omega
    · cases h
  | succ fuel ih =>
    refine ⟨fun {way t work} hr hfuel => ?_, fun _ => toRepStep_data⟩
    have hnested : Nested (toRepIn fuel) way t := by
      constructor
      case items =>
        rintro elem work rfl he
        refine (ih.1 he ?_).1
        simp only [Ty.builtinList, Ty.size, Ty.sizeAll] at hfuel
        omega
      case components =>
        rintro a b rfl rfl ha hb
        have part : ∀ {u : Ty}, Plain u → u.size ≤ fuel →
            ConvertsNode (toRepIn fuel · .packed) .pack u := by
          intro u hu hsize
          rcases hu.exists_pack with rfl | ⟨work, hr⟩
          · exact ih.2 (Nat.le_trans (Ty.size_pos _) hsize)
          · exact (ih.1 hr hsize).2
        simp only [Ty.builtinPair, Ty.size, Ty.sizeAll] at hfuel
        exact ⟨part ha (by omega), part hb (by omega)⟩
    exact ⟨toRepStep_alias hr hnested, toRepStep_converts hr hnested⟩

end CoreLowering.Encoding
