import CoreLowering.Proofs.FirstOrder.Correctness
import CoreLowering.Proofs.Graph.Twins
import CoreLowering.Proofs.Machine.Versions

/-!
# What settings decide

A unit is lowered for a version, with debugging or without.  Debugging adds
messages before failures, which change nothing that the term computes.  Of
the versions without a case on builtin values a later one lowers whatever an
earlier one does, to the same.

Main statements: `lowerModule_debug` for debugging, `lowerModule_later` for
versions, `lowerWith_unbroken` for all of them: with orderly declarations no
lowering is left in the middle.
-/

namespace CoreLowering.Graph

/-! ## Two lowerings of a unit -/

/-- Two lowerings that differ in messages and trails at most. -/
structure Lowered.Likened (κ : Coupling) (l l' : Lowered) : Prop where
  stats : l.stats = l'.stats
  diagnostics : l.diagnostics = l'.diagnostics
  result : (∃ e, l.result = .error e ∧ l'.result = .error e) ∨
    ∃ r r', l.result = .ok r ∧ l'.result = .ok r' ∧ r.Likened κ r'

theorem Kin.findings {κ : Coupling} {s s' : State} (h : Kin κ s s') :
    s.stats = s'.stats ∧ s.diagnostics = s'.diagnostics := by
  obtain ⟨s, p, q⟩ := h
  exact ⟨rfl, rfl⟩

section

variable {κ : Coupling} {ds : Decls} {v v' : Version} {debug debug' : Bool}
  (hleft : κ.left = ⟨ds, v.orStandard, debug⟩) (hright : κ.right = ⟨ds, v'.orStandard, debug'⟩)
include hleft hright

/-- Both settings lower an expression alike, unless the left version lacks
something. -/
theorem lowerWith_likened (root : Expr) :
    (lowerWith ds root v debug).Likened κ (lowerWith ds root v' debug') ∨
      κ.left.target ≠ κ.right.target ∧ ∃ e, (lowerWith ds root v debug).result = .error e := by
  have hsame : κ.SameDecls := ⟨by rw [hleft, hright]⟩
  have hstart : (State.new v ds debug).under κ.left [] = State.new v ds debug := by
    rw [hleft]
    rfl
  have hstart' : (State.new v ds debug).under κ.right [] = State.new v' ds debug' := by
    rw [hright]
    rfl
  have hkin := Kin.mk (κ := κ) (State.new v ds debug) [] []
  rw [hstart, hstart'] at hkin
  have hmeets := run_alike root (.new v ds debug) hkin
  unfold lowerWith
  rcases hr : (run root).run (State.new v ds debug) with ⟨r, s⟩
  rcases hr' : (run root).run (State.new v' ds debug') with ⟨r', s'⟩
  rw [hr, hr'] at hmeets
  cases hmeets with
  | ok h hs => exact .inl ⟨hs.findings.1, hs.findings.2, .inr ⟨_, _, rfl, rfl, h⟩⟩
  | failed _ hs => exact .inl ⟨hs.findings.1, hs.findings.2, .inl ⟨_, rfl, rfl⟩⟩
  | lacking hc _ => exact .inr ⟨hc, _, rfl⟩

end

/-- A property of two lowerings of a unit: they are refused alike or both
begin with the same declarations. -/
theorem lowerModule_both (P : Lowered → Lowered → Prop) {u : Module} {v v' : Version}
    {debug debug' : Bool} (hrefused : ∀ e, P (.refused e) (.refused e))
    (hwith : ∀ ds, P (lowerWith ds u.root v debug) (lowerWith ds u.root v' debug')) :
    P (lowerModule u v debug) (lowerModule u v' debug') := by
  unfold lowerModule
  split
  · exact hrefused _
  · split
    · exact hrefused _
    · exact hwith _

/-! ## Debugging -/

/-- Terms that compute the same, by themselves and given constants: they end
with the same constants, and they fail or both do not. -/
def SameMeaning (t t' : Term) : Prop :=
  ∀ (m : Machine.Settings) (args : List Constant), m.budget ≤ 0 →
    let call := fun t : Term => t.applyAll (args.map .con)
    (∀ c, Machine.evaluateConstant m (call t) = .ok c ↔
      Machine.evaluateConstant m (call t') = .ok c) ∧
    (∀ c, Machine.Ends m (call t) (.ok (.con c)) ↔ Machine.Ends m (call t') (.ok (.con c))) ∧
    (Machine.Fails m (.start (call t)) ↔ Machine.Fails m (.start (call t')))

theorem Likened.sameMeaning {κ : Coupling} {t t' : Term} (h : Likened κ t t') :
    SameMeaning t t' := by
  intro m args hm
  have hargs : List.Forall₂ (Likened κ) (args.map .con) (args.map .con) :=
    List.forall₂_same.2 fun _ _ => .refl _
  have hcall := (h.applyAll hargs).hushed
  exact ⟨Machine.evaluateConstant_iff_of_hushed_eq hm hcall,
    Machine.ends_con_iff_of_hushed_eq hm hcall, Machine.fails_iff_of_hushed_eq hm hcall⟩

/-- **Debugging does not change what a program computes.**  A unit is lowered
with it exactly if it is without, with the same findings, and the terms
compute the same. -/
theorem lowerModule_debug (u : Module) (v : Version) :
    (lowerModule u v true).stats = (lowerModule u v false).stats ∧
      (lowerModule u v true).diagnostics = (lowerModule u v false).diagnostics ∧
      ((∃ e, (lowerModule u v true).result = .error e ∧
          (lowerModule u v false).result = .error e) ∨
        ∃ r r', (lowerModule u v true).result = .ok r ∧ (lowerModule u v false).result = .ok r' ∧
          r.usesFix = r'.usesFix ∧ r.type = r'.type ∧ r.rep = r'.rep ∧
          SameMeaning r.term r'.term) := by
  refine lowerModule_both (fun l l' => l.stats = l'.stats ∧ l.diagnostics = l'.diagnostics ∧
    ((∃ e, l.result = .error e ∧ l'.result = .error e) ∨
      ∃ r r', l.result = .ok r ∧ l'.result = .ok r' ∧ r.usesFix = r'.usesFix ∧
        r.type = r'.type ∧ r.rep = r'.rep ∧ SameMeaning r.term r'.term))
    (fun e => ⟨rfl, rfl, .inl ⟨e, rfl, rfl⟩⟩) fun ds => ?_
  let κ : Coupling :=
    ⟨⟨ds, v.orStandard, true⟩, ⟨ds, v.orStandard, false⟩, rfl, fun _ h => h⟩
  obtain h | ⟨hne, -⟩ := lowerWith_likened (κ := κ) rfl rfl u.root
  · refine ⟨h.stats, h.diagnostics, h.result.imp_right ?_⟩
    rintro ⟨r, r', hr, hr', hlike⟩
    exact ⟨r, r', hr, hr', hlike.usesFix, hlike.type, hlike.rep, hlike.term.sameMeaning⟩
  · exact absurd rfl hne

/-! ## Versions -/

/-- **A later version lowers to the same.**  Of the versions that match by
tests, what an earlier one lowers a later one does, to the same result and
with the same findings. -/
theorem lowerModule_later {v v' : Version} (hv : v ∈ [Version.v1, .v2, .v3])
    (hv' : v' ∈ [Version.v1, .v2, .v3]) (h : v.rank ≤ v'.rank) (u : Module) (debug : Bool)
    {r : Result} (hr : (lowerModule u v debug).result = .ok r) :
    (lowerModule u v' debug).result = .ok r ∧
      (lowerModule u v' debug).stats = (lowerModule u v debug).stats ∧
      (lowerModule u v' debug).diagnostics = (lowerModule u v debug).diagnostics := by
  have hnative : ∀ w ∈ [Version.v1, .v2, .v3], isNative w.orStandard = false := by decide
  have hknown : ∀ w ∈ [Version.v1, .v2, .v3], w.orStandard = w := by decide
  refine lowerModule_both (fun l l' => l.result = .ok r → l'.result = .ok r ∧
    l'.stats = l.stats ∧ l'.diagnostics = l.diagnostics) ?_ ?_ hr
  · intro e he
    cases he
  · intro ds hr
    let κ : Coupling := {
      left := ⟨ds, v.orStandard, debug⟩
      right := ⟨ds, v'.orStandard, debug⟩
      native := by rw [hnative v hv, hnative v' hv']
      available := fun f hf => by
        rw [hknown v hv] at hf
        rw [hknown v' hv']
        exact Builtin.availableIn_later h hf }
    obtain hlike | ⟨-, e, he⟩ := lowerWith_likened (κ := κ) rfl rfl u.root
    · obtain ⟨e, he, -⟩ | ⟨r1, r2, hr1, hr2, hlike'⟩ := hlike.result
      · rw [hr] at he
        cases he
      · rw [hr] at hr1
        cases hr1
        rw [hlike'.eq rfl]
        exact ⟨hr2, hlike.stats.symm, hlike.diagnostics.symm⟩
    · rw [hr] at he
      cases he

/-- A unit in which a name stands for two things is the same for the first
version and the third. -/
theorem lowerModule_later_shadowing :
    ∃ r, (lowerModule FirstOrder.shadowing .v1 true).result = .ok r ∧
      (lowerModule FirstOrder.shadowing .v3 true).result = .ok r := by
  obtain ⟨r, hr⟩ := FirstOrder.run_succeeds FirstOrder.typed_shadowing .v1 ⟨Decls.prelude⟩ true
  have hfirst : (lowerModule FirstOrder.shadowing .v1 true).result = .ok r := by
    have hscope : FirstOrder.shadowing.scope = .ok ⟨Decls.prelude⟩ := rfl
    unfold lowerModule
    split
    · next hmissing => cases hmissing
    · simp only [hscope, lowerWith, hr]
      rfl
  exact ⟨r, hfirst, (lowerModule_later (by decide) (by decide) (by decide) _ true hfirst).1⟩

/-! ## How a lowering stops -/

/-- Whether a lowering broke off. -/
def Lowered.breaksOff (l : Lowered) : Bool :=
  match l.result with
  | .error (.failed f) => f.cause.breaksOff
  | _ => false

/-- Lowering breaks off for no root, unless a declaration is not orderly: one of
the list type has a constructor of fewer than two fields or, for a version that
matches by tests, a type has no constructors. -/
theorem lowerWith_unbroken {ds : Decls} {target : Version}
    (hds : ds.list.all (Decl.orderly target.orStandard) = true) (root : Expr) (debug : Bool) :
    (lowerWith ds root target debug).breaksOff = false := by
  let g : Setting := ⟨ds, target.orStandard, debug⟩
  have hkin : Kin g.twice (State.new target ds debug) (State.new target ds debug) :=
    .mk (State.new target ds debug) [] []
  have hmeets := run_alike root (.new target ds debug) hkin
  unfold lowerWith
  rcases hr : (run root).run (State.new target ds debug) with ⟨f | r, s⟩
  · rw [hr] at hmeets
    exact hmeets.unbroken hds
  · rfl

end CoreLowering.Graph
