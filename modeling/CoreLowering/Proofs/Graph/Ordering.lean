import Mathlib.Logic.Relation
import Mathlib.Order.Nat
import CoreLowering.Proofs.Graph.Links

/-!
# Bindings in dependency order

Variables that are bound together are put in an order in which each comes after
those that it depends on.  There is one, since no variable depends on itself
through others.

A cycle would have a first variable.  That one depends on later variables only
if it stands for a recursive function, and what it depends on then was made
inside the function without the variable, or is a helper.  From there on one
never gets back to it (`Inner`): the rest of the cycle is a smaller one.

Main statement: `bindings_in_dependency_order`.
-/

namespace CoreLowering.Graph

variable {s : State} {m M x u w W : Nat}

theorem dependsFrom_iff : s.dependsFrom x u = true ↔ x ≠ u ∧ u ∈ (s.usedOf x).ids := by
  rw [State.dependsFrom, Bool.and_eq_true, bne_iff_ne, VarSet.has_iff]

/-! ## Inside a recursive function -/

/-- A value from inside the recursive function `M` of the variable `m` that does
not depend on the variable: one that the function uses, or one that has no need
of what is around it. -/
structure Inner (s : State) (m M x : Nat) : Prop where
  past : m < x
  without : m ∉ (s.usedOf x).ids
  kind : x ∈ (s.usedOf m).ids ∧ (∀ F, ¬Closed s x F) ∨ x < M ∧ UsesOnly (fun _ => False) s x

theorem Inv.usesOnly_helper (hi : Inv s) (h : IsHelper s x) : UsesOnly (fun _ => False) s x := by
  obtain ⟨key, hk⟩ := h
  exact (hi.helped _ hk).2

/-- Helpers from inside a recursive function do not depend on its variable. -/
theorem Layered.inner_helper (h : Layered s) (hi : Inv s) (hm : Closed s m M) (hw : IsHelper s w)
    (hmw : m < w) (hwM : w < M) : Inner s m M w := by
  refine ⟨hmw, fun hmem => ?_, .inr ⟨hwM, hi.usesOnly_helper hw⟩⟩
  obtain ⟨W, hW, huses⟩ := h.helpers w hw
  rcases huses m hmem with hs | ⟨-, M', hM', hle⟩
  · exact hs.not_closed hm
  · have := hi.nested m M w W hm hW hmw hwM
    have := hm.unique hM'
    omega

/-- What a recursive function uses from inside. -/
theorem Layered.inner_start (h : Layered s) (hi : Inv s) (hm : Closed s m M)
    (hw : w ∈ (s.usedOf m).ids) (hmw : m < w) : Inner s m M w := by
  have hwM : w < M := by
    rcases h.before m w hw with rfl | hb | ⟨M', hM', hlt⟩
    · omega
    · omega
    · exact hm.unique hM' ▸ hlt
  have hwin : w ∈ (s.usedOf M).ids := by
    obtain ⟨-, n, hn, hr⟩ := hm
    rcases hi.inside m n w hn hw with ⟨rfl, -⟩ | ⟨y, hy | hy, hu⟩
    · omega
    · exact Option.some.inj (hr.symm.trans hy) ▸ hu
    · cases n <;> simp [Node.rhs?, Node.subs] at hr hy
  obtain ⟨rec, hfix⟩ := hi.closed_fix hm
  obtain ⟨hout, hkind⟩ := (h.recursive m M rec w hfix (.inr hm) hwin).2 hmw
  rcases hkind with hs | hh | hb
  · exact ⟨hmw, hout, .inl ⟨hw, fun F => hs.not_closed⟩⟩
  · exact h.inner_helper hi hm hh hmw hwM
  · exact ⟨hmw, hout, .inl ⟨hw, fun F => hb.not_closed⟩⟩

/-- What such a value uses is one again. -/
theorem Layered.inner_step (h : Layered s) (hi : Inv s) (hm : Closed s m M) (hx : Inner s m M x)
    (hw : w ∈ (s.usedOf x).ids) (hmw : m ≤ w) : Inner s m M w := by
  have hlt : m < w := Nat.lt_of_le_of_ne hmw fun heq => hx.without (heq ▸ hw)
  rcases hx.kind with ⟨hxm, hopen⟩ | ⟨hxM, honly⟩
  · rcases h.through m x w hxm hopen hw with hwm | ⟨hh, W, hW, hb⟩
    · exact h.inner_start hi hm hwm hlt
    · have hWM : W < M := by
        rcases hb with hb | ⟨M', hM', hb⟩
        · have := hW.1
          omega
        · exact hm.unique hM' ▸ hb
      exact h.inner_helper hi hm hh hlt (Nat.lt_trans hW.1 hWM)
  · have hinside : ∀ {y}, Before s y x → y < M := fun hb => by
      rcases hb with hb | ⟨X, hX, hb⟩
      · omega
      · exact Nat.lt_trans hb (hi.nested m M x X hm hX hx.past hxM)
    have hwM : w < M := by
      rcases h.before x w hw with rfl | hb
      · exact hxM
      · exact hinside hb
    rcases honly w hw with hs | hh | hK
    · -- a settled variable adds nothing to what uses it, helpers apart
      have hthrough := fun u hu => h.through x w u hw (fun F => hs.not_closed) hu
      refine ⟨hlt, fun hmem => ?_, .inr ⟨hwM, fun u hu => ?_⟩⟩
      · rcases hthrough m hmem with hmx | ⟨-, M', hM', hb⟩
        · exact hx.without hmx
        · exact Nat.lt_irrefl _ (hm.unique hM' ▸ hinside hb)
      · rcases hthrough u hu with hux | ⟨hh, -⟩
        · exact honly u hux
        · exact .inr (.inl hh)
    · exact h.inner_helper hi hm hh hlt hwM
    · exact hK.elim

/-! ## No cycles -/

/-- Where each value depends on another there are none. -/
theorem Layered.eq_nil (h : Layered s) (hi : Inv s) (values : List Nat)
    (hnext : ∀ u ∈ values, ∃ w ∈ values, s.dependsFrom u w = true) : values = [] := by
  classical
  -- the values from inside the function of the first one are fewer
  induction hlen : values.length using Nat.strong_induction_on generalizing values with
  | _ len ih =>
  by_contra hne
  obtain ⟨v, hv⟩ := List.exists_mem_of_ne_nil values hne
  have hex : ∃ m, m ∈ values := ⟨v, hv⟩
  let m := Nat.find hex
  have hmem : m ∈ values := Nat.find_spec hex
  have hmin : ∀ x ∈ values, m ≤ x := fun x hx => Nat.find_min' hex hx
  obtain ⟨w, hw, hdep⟩ := hnext m hmem
  obtain ⟨hmw, hused⟩ := dependsFrom_iff.1 hdep
  have hlt : m < w := Nat.lt_of_le_of_ne (hmin w hw) hmw
  obtain ⟨M, hM⟩ : ∃ M, Closed s m M := by
    rcases h.before m w hused with heq | hb | ⟨M, hM, -⟩
    · exact absurd heq.symm hmw
    · omega
    · exact ⟨M, hM⟩
  have hinner := h.inner_start hi hM hused hlt
  let rest := values.filter fun x => decide (Inner s m M x)
  have hshort : rest.length < len := by
    rw [← hlen]
    refine List.length_filter_lt_length_iff_exists.2 ⟨m, hmem, ?_⟩
    simpa using fun hm : Inner s m M m => Nat.lt_irrefl _ hm.past
  have hrest : rest = [] := by
    refine ih rest.length hshort rest (fun u hu => ?_) rfl
    obtain ⟨hu, hin⟩ := List.mem_filter.1 hu
    obtain ⟨w, hw, hdep⟩ := hnext u hu
    refine ⟨w, List.mem_filter.2 ⟨hw, ?_⟩, hdep⟩
    exact decide_eq_true
      (h.inner_step hi hM (of_decide_eq_true hin) (dependsFrom_iff.1 hdep).2 (hmin w hw))
  have : w ∈ rest := List.mem_filter.2 ⟨hw, decide_eq_true hinner⟩
  rw [hrest] at this
  cases this

/-- **No value depends on itself** through others. -/
theorem Layered.acyclic (h : Layered s) (hi : Inv s) (u : Nat) :
    ¬Relation.TransGen (fun a b => s.dependsFrom a b = true) u u := by
  classical
  intro hcycle
  let cycle := (List.range (s.size + 1)).filter fun x => decide
    (Relation.TransGen (fun a b => s.dependsFrom a b = true) u x ∧
      Relation.TransGen (fun a b => s.dependsFrom a b = true) x u)
  have hmem : ∀ {x y : Nat}, s.dependsFrom y x = true →
      Relation.TransGen (fun a b => s.dependsFrom a b = true) u x →
      Relation.TransGen (fun a b => s.dependsFrom a b = true) x u → x ∈ cycle := by
    intro x y hdep h1 h2
    have := (hi.there y x (dependsFrom_iff.1 hdep).2).2
    exact List.mem_filter.2 ⟨List.mem_range.2 (by omega), decide_eq_true ⟨h1, h2⟩⟩
  have hnil : cycle = [] := by
    refine h.eq_nil hi cycle fun x hx => ?_
    obtain ⟨h1, h2⟩ := of_decide_eq_true (List.mem_filter.1 hx).2
    obtain ⟨y, hxy, hyu⟩ := Relation.TransGen.head'_iff.1 h2
    refine ⟨y, hmem hxy (h1.tail hxy) ?_, hxy⟩
    rcases Relation.reflTransGen_iff_eq_or_transGen.1 hyu with rfl | hyu
    · exact hcycle
    · exact hyu
  obtain ⟨y, -, hyu⟩ := Relation.TransGen.tail'_iff.1 hcycle
  have := hmem hyu hcycle hcycle
  rw [hnil] at this
  cases this

/-! ## The order -/

/-- Of some variables, one is ready. -/
theorem Layered.firstReady_isSome (h : Layered s) (hi : Inv s) (u : Nat) (rest : List Nat) :
    (s.firstReady (u :: rest)).isSome = true := by
  rw [← Option.ne_none_iff_isSome]
  intro hnone
  refine List.cons_ne_nil u rest (h.eq_nil hi _ fun x hx => ?_)
  have hx := List.find?_eq_none.1 hnone x hx
  simp only [List.all_eq_true, Bool.or_eq_true, not_forall, Bool.not_eq_true'] at hx
  obtain ⟨w, hw, hdep⟩ := hx
  exact ⟨w, hw, by simpa using (not_or.1 hdep).2⟩

/-- A variable that is ready depends on none of the others. -/
theorem dependsFrom_of_firstReady {pending : List ValueId} (hu : s.firstReady pending = some u)
    (hw : w ∈ pending) : s.dependsFrom u w = false := by
  have hready := List.find?_some hu
  rw [List.all_eq_true] at hready
  rcases Bool.or_eq_true _ _ ▸ hready w hw with heq | hdep
  · simp [State.dependsFrom, beq_iff_eq.1 heq]
  · simpa using hdep

/-- What comes earlier depends on nothing that comes later. -/
theorem Layered.topoOrderIn_pairwise (h : Layered s) (hi : Inv s) {fuel : Nat}
    {pending : List ValueId} (hfuel : pending.length ≤ fuel) :
    (s.topoOrderIn fuel pending).Pairwise fun a b => s.dependsFrom a b = false := by
  induction fuel generalizing pending with
  | zero =>
    obtain rfl : pending = [] := List.length_eq_zero_iff.1 (Nat.le_zero.1 hfuel)
    exact .nil
  | succ fuel ih =>
    cases pending with
    | nil => exact .nil
    | cons v rest =>
      obtain ⟨u, hu⟩ := Option.isSome_iff_exists.1 (h.firstReady_isSome hi v rest)
      have hmem := List.mem_of_find?_eq_some hu
      rw [State.topoOrderIn, hu]
      refine .cons (fun w hw => ?_) (ih ?_)
      · exact dependsFrom_of_firstReady hu
          (List.mem_of_mem_erase ((topoOrderIn_perm s fuel _).mem_iff.1 hw))
      · rw [List.length_erase_of_mem hmem]
        omega

/-- **Bindings come out in dependency order**, whatever a lowering has been asked
for.  No variable depends on itself through others; any set of variables is put
in an order in which none depends on a later one; and there is always one to go
on with. -/
theorem bindings_in_dependency_order (target : Version) (decls : Decls) (debug : Bool)
    (requests : List Request) (set : VarSet) :
    let s := (State.new target decls debug).serveAll requests
    (∀ u, ¬Relation.TransGen (fun a b => s.dependsFrom a b = true) u u) ∧
      (s.topoOrder set).Perm set.ids ∧
      (s.topoOrder set).Pairwise (fun a b => s.dependsFrom a b = false) ∧
      ∀ u rest, (s.firstReady (u :: rest)).isSome = true := by
  intro s
  have h : Sorted s := ((Sorted.new target decls debug).serveAll requests).1
  exact ⟨h.layered.acyclic h.inv, topoOrderIn_perm s _ _,
    h.layered.topoOrderIn_pairwise h.inv (Nat.le_refl _), h.layered.firstReady_isSome h.inv⟩

end CoreLowering.Graph
