import CoreLowering.Proofs.FirstOrder.Building

/-!
# Emission of expressions of first order

A value of first order is evaluated by its term wherever its variables are
bound: a variable is bound only where it costs nothing or where the value
cannot do without it.

Main statement: `harmless_of_placed`.
-/

namespace CoreLowering.FirstOrder

open CoreLowering.Graph

variable {g : State} {id : Nat} {o : Outcome} {n : Node}

/-! ## What a value cannot do without -/

/-- The value `id` comes to a constant only if `u` does. -/
def Sure (g : State) (id u : Nat) : Prop :=
  ∀ c, Means g id (some c) → ∃ c', Means g u (some c')

theorem sure_rules : SureRules g (Sure g) where
  self id _ _ _ := fun c hc => ⟨c, hc⟩
  rhs id n r u hn hr hu := by
    intro c hc
    generalize ho : some c = o at hc
    cases hc.reads hn with
    | var name _ hm =>
      cases hr
      subst ho
      exact hu c hm
    | _ => cases hr
  barrier id p body u hn _ _ := by
    intro c hc
    cases hc.reads hn
  forceDelay id x y u hn _ _ := by
    intro c hc
    cases hc.reads hn
  scrutinee id sh nat x bs ow bi u hn hu := by
    intro c hc
    generalize ho : some c = o at hc
    cases hc.reads hn with
    | choice _ _ _ _ _ hx _ _ _ _ =>
      obtain ⟨rfl, -⟩ | ⟨rfl, -⟩ := choose_eq_some ho.symm
      · exact hu _ hx
      · exact hu _ hx
  branches id sh nat x bs ow bi u hn _ hu := by
    intro c hc
    generalize ho : some c = o at hc
    cases hc.reads hn with
    | choice _ _ _ _ _ _ _ hno _ hyes =>
      obtain ⟨-, rfl⟩ | ⟨-, rfl⟩ := choose_eq_some ho.symm
      · exact hu _ (by simp) _ hyes
      · exact hu _ (by simp) _ hno
  letIn id ow st body u hn hu _ := by
    intro c hc
    cases hc.reads hn with
    | letIn _ _ hm => exact hu c hm
  sub id n x u hn heager hx hu := by
    intro c hc
    generalize ho : some c = o at hc
    cases hc.reads hn with
    | reinterpret _ hm =>
      rw [Node.subs, List.mem_singleton] at hx
      subst hx ho
      exact hu c hm
    | @builtin f args r _ _ _ hm =>
      obtain ⟨cs, hcs, -⟩ := call_eq_some ho.symm
      rw [Node.subs] at hx
      have hsome := List.mem_map_of_mem (f := r) hx
      rw [hcs] at hsome
      obtain ⟨c', -, hc'⟩ := List.mem_map.1 hsome
      exact hu c' (hc' ▸ hm x hx)
    | _ => cases heager

/-! ## The variables bound at a value -/

/-- What is under the views of a value comes to what the value comes to. -/
theorem Means.underViewsIn {fuel : Nat} (h : Means g id o)
    (hn : g.underViewsIn fuel id = some n) : ∃ x : Nat, g.node? x = some n ∧ Means g x o :=
  underViewsIn_of_view (fun _ _ hx h => h.inner hx) h hn

/-- A variable that costs nothing to bind comes to a constant. -/
theorem exists_of_cheap (hc : Cheap g id) (h : Means g id o) : ∃ c, o = some c := by
  obtain ⟨rhs, hb, he⟩ := hc
  unfold State.bindable? at hb
  split at hb
  · rename_i v hv
    split at hb
    · cases hb
    · rename_i hin
      have hnode := node?_of_value hv
      cases hn : v.node with
      | var name r =>
        rw [hn] at hb hnode
        cases hb
        cases h.reads hnode with
        | var _ _ hm =>
          -- of what takes no effort, only a constant is of first order and not inlined
          unfold State.isEffortless at he
          unfold State.isInlined at hin
          rw [hn] at hin
          cases hview : g.underViews rhs with
          | none => simp [hview] at he
          | some m =>
            obtain ⟨x, hx, hmx⟩ := hm.underViewsIn hview
            simp only [Node.rhs?, hview] at he hin
            cases hmx.reads hx with
            | const c => exact ⟨c, rfl⟩
            | var => exact absurd rfl hin
            | _ => cases he
      | aliased => cases h.reads (hn ▸ hnode)
      | _ =>
        rw [hn] at hb
        cases hb
  · cases hb

/-- A variable that is bound at a value is needed for it or comes to a
constant. -/
structure Harmless (g : State) (id : Nat) (o : Outcome) (x : Nat) : Prop where
  lt : x < id
  means : ∃ ox, Means g x ox ∧ (ox = none → o = none)
  defined : Defined g x

theorem harmless_of_placed (hu : UsedInside g) (h : Means g id o) {xs : List ValueId}
    (hp : Placed g (Sure g) id xs) {x : Nat} (hx : x ∈ xs) : Harmless g id o x := by
  obtain ⟨n, set, hn, rfl, hset⟩ := hp
  rcases hset x (mem_topoOrder.1 hx) with hs | hh
  · obtain ⟨t, ht, hxt⟩ := mem_unions.1 (VarSet.mem_filter.1 hs.shared).1
    obtain ⟨y, hy, rfl⟩ := List.mem_map.1 ht
    obtain ⟨hlt, oy, hmy⟩ := h.sub hn hy
    obtain ⟨⟨ox, hmx⟩, hle, hd⟩ := hmy.used hu hxt
    refine ⟨Nat.lt_of_le_of_lt hle hlt, ⟨ox, hmx, ?_⟩, hd⟩
    rintro rfl
    rcases hs.harmless with hc | hsure
    · obtain ⟨c, hc⟩ := exists_of_cheap hc hmx
      cases hc
    · cases o with
      | none => rfl
      | some c =>
        obtain ⟨c', hc'⟩ := hsure c h
        cases hmx.unique hc'
  · obtain ⟨p, body, rfl, -⟩ := hh.barrier
    cases h.reads hn

end CoreLowering.FirstOrder
