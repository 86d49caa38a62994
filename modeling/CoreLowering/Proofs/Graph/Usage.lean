import CoreLowering.Proofs.Graph.Invariant

/-!
# What values use

The variables that a value uses are those its parts use, and a variable uses
itself.

Main statement: `Trace.usedInside`, which carries this along every trace of
changes.
-/

namespace CoreLowering.Graph

variable {s s' : State} {id i l : Nat} {v r : Value} {u : Nat} {n : Node} {sets : List VarSet}
  {xs : List ValueId}

/-! ## Sets of variables -/

namespace VarSet

theorem has_iff {s : VarSet} : s.has u = true ↔ u ∈ s.ids := by
  simp [has]

theorem mem_merge {ys : List ValueId} : u ∈ merge xs ys ↔ u ∈ xs ∨ u ∈ ys := by
  fun_induction merge xs ys with
  | case1 ys => simp
  | case2 xs => simp
  | case3 x xs y ys h ih =>
    simp only [List.mem_cons, ih]
    grind
  | case4 x xs y ys h h' ih =>
    simp only [List.mem_cons, ih]
    grind
  | case5 x xs y ys h h' ih =>
    obtain rfl : x = y := Nat.le_antisymm (Nat.not_lt.1 h') (Nat.not_lt.1 h)
    simp only [List.mem_cons, ih]
    grind

theorem mem_union {s t : VarSet} : u ∈ (s.union t).ids ↔ u ∈ s.ids ∨ u ∈ t.ids := mem_merge

theorem mem_filter {s : VarSet} {p : ValueId → Bool} :
    u ∈ (s.filter p).ids ↔ u ∈ s.ids ∧ p u = true :=
  List.mem_filter

theorem mem_inter {s t : VarSet} : u ∈ (s.inter t).ids ↔ u ∈ s.ids ∧ u ∈ t.ids := by
  rw [inter, mem_filter, has_iff]

end VarSet

theorem mem_foldl_union {s : VarSet} :
    u ∈ (sets.foldl VarSet.union s).ids ↔ u ∈ s.ids ∨ ∃ t ∈ sets, u ∈ t.ids := by
  induction sets generalizing s with
  | nil => simp
  | cons t sets ih =>
    rw [List.foldl_cons, ih, VarSet.mem_union]
    simp only [List.mem_cons, exists_eq_or_imp, or_assoc]

theorem mem_outside {owned : List ValueId} {all : VarSet} :
    u ∈ (s.outside owned all).ids ↔
      u ∈ all.ids ∧ ∀ o ∈ owned, u ≠ o ∧ s.dependsFrom u o = false := by
  rw [State.outside, VarSet.mem_filter]
  simp

/-! ## What values use -/


/-- What a value uses is used by a part of it or by its definition, a
variable's use of itself apart. -/
def UsedInside (s : State) : Prop :=
  ∀ (i : Nat) n u, s.node? i = some n → u ∈ (s.usedOf i).ids →
    (u = i ∧ n.isIdentifiable = true) ∨
      ∃ x, (n.rhs? = some x ∨ x ∈ n.subs) ∧ u ∈ (s.usedOf x).ids

theorem usedOf_of_value (h : s.value? i = some v) : s.usedOf i = v.used := by
  rw [State.usedOf, h]

theorem valid_of_mem_usedOf (h : u ∈ (s.usedOf i).ids) : Valid s i := by
  unfold State.usedOf at h
  split at h
  · exact valid_of_value ‹_›
  · cases h

theorem usedOf_eq_core : s.usedOf i = (((s.value? i).map Value.core).map (·.used)).getD .empty := by
  unfold State.usedOf
  cases s.value? i <;> rfl

theorem Adds.usedOf (h : Adds s s' v) (i : Nat) :
    s'.usedOf i = if i = s.size + 1 then v.used else s.usedOf i := by
  rw [usedOf_eq_core, h.value? i]
  split
  · rfl
  · rw [usedOf_eq_core]

theorem Defines.usedOf {rhs : Nat} (h : Defines s s' id rhs r) (hid : Valid s id) (i : Nat) :
    s'.usedOf i = if i = id then (VarSet.single id).union r.used else s.usedOf i := by
  obtain ⟨x, hx⟩ := hid.exists_value
  rw [usedOf_eq_core, h.value? i]
  split
  · rename_i heq
    rw [heq, hx]
    rfl
  · rw [usedOf_eq_core]

/-- A new value whose uses are accounted for. -/
theorem UsedInside.adds (h : UsedInside s) {v : Value} (ha : Adds s s' v)
    (hv : ∀ u ∈ v.used.ids, (u = s.size + 1 ∧ v.node.isIdentifiable = true) ∨
      ∃ x : Nat, (v.node.rhs? = some x ∨ x ∈ v.node.subs) ∧ u ∈ (s.usedOf x).ids) :
    UsedInside s' := by
  have hold : ∀ {x u : Nat}, u ∈ (s.usedOf x).ids → u ∈ (s'.usedOf x).ids := by
    intro x u hu
    have := (valid_of_mem_usedOf hu).2
    rwa [ha.usedOf, if_neg (by omega)]
  intro i n u hn hu
  rw [ha.node?] at hn
  rw [ha.usedOf] at hu
  split at hn
  · rename_i hi
    cases hn
    rw [if_pos hi] at hu
    rcases hv u hu with ⟨rfl, hid⟩ | ⟨x, hx, hux⟩
    · exact .inl ⟨hi.symm, hid⟩
    · exact .inr ⟨x, hx, hold hux⟩
  · rename_i hi
    rw [if_neg hi] at hu
    exact (h i n u hn hu).imp_right fun ⟨x, hx, hux⟩ => ⟨x, hx, hold hux⟩

/-- A variable that gets its definition. -/
theorem UsedInside.defines (h : UsedInside s) {x rhs : Nat} (hd : Defines s s' x rhs r)
    (hn : s.node? x = some n) (hid : n.isIdentifiable = true) (hnone : n.rhs? = none)
    (hr : s.value? rhs = some r) (hne : rhs ≠ x) : UsedInside s' := by
  have hx := valid_of_node? hn
  -- without a definition it used nothing but itself
  have hself : ∀ u ∈ (s.usedOf x).ids, u = x := by
    intro u hu
    rcases h x n u hn hu with ⟨hu, -⟩ | ⟨y, hy | hy, -⟩
    · exact hu
    · rw [hnone] at hy
      cases hy
    · cases n with
      | var | aliased => cases hy
      | _ => cases hid
  have hold : ∀ {y u : Nat}, u ∈ (s.usedOf y).ids → u ∈ (s'.usedOf y).ids := by
    intro y u hu
    rw [hd.usedOf hx]
    split
    · rename_i hy
      rw [VarSet.mem_union, hself u (hy ▸ hu)]
      exact .inl (List.mem_singleton_self x)
    · exact hu
  intro i m u hm hu
  rw [hd.usedOf hx] at hu
  split at hu
  · rename_i hi
    subst hi
    rw [hd.node?, if_pos rfl, hn] at hm
    cases hm
    rcases VarSet.mem_union.1 hu with hu | hu
    · refine .inl ⟨List.mem_singleton.1 hu, ?_⟩
      rwa [Node.isIdentifiable_withRhs]
    · refine .inr ⟨rhs, .inl ?_, hold (by rwa [usedOf_of_value hr])⟩
      cases n with
      | var | aliased => rfl
      | _ => cases hid
  · rename_i hi
    rw [hd.node?, if_neg hi] at hm
    exact (h i m u hm hu).imp_right fun ⟨y, hy, huy⟩ => ⟨y, hy, hold huy⟩

/-- A node uses what its parts use and what does not depend on its variables. -/
theorem mem_usedBy : u ∈ (s.usedBy n).ids ↔
    (∃ x ∈ n.subs, u ∈ (s.usedOf x).ids) ∧
      ∀ o : Nat, o ∈ n.scopeOf → u ≠ o ∧ o ∉ (s.usedOf u).ids := by
  rw [State.usedBy, mem_outside, ← List.foldl_map, mem_foldl_union]
  refine and_congr ⟨?_, ?_⟩
    (forall_congr' fun o => forall_congr' fun _ => and_congr_right fun hne => ?_)
  · rintro (hu | ⟨t, ht, hu⟩)
    · cases hu
    · obtain ⟨x, hx, rfl⟩ := List.mem_map.1 ht
      exact ⟨x, hx, hu⟩
  · exact fun ⟨x, hx, hu⟩ => .inr ⟨_, List.mem_map_of_mem hx, hu⟩
  · have hne : (u != o) = true := by simpa using hne
    rw [State.dependsFrom, hne, Bool.true_and, ← VarSet.has_iff, Bool.not_eq_true]

theorem usedOf_push (h : Valid s i) : (s.push v).usedOf i = s.usedOf i := by
  rw [State.usedOf, State.usedOf, value?_push, if_neg]
  have := h.2
  omega

theorem Change.usedInside (h : Change l s s') (hs : UsedInside s) : UsedInside s' := by
  cases h.effect with
  | adds ha hv hsubs =>
    refine hs.adds ha fun u hu => ?_
    cases hv with
    | node =>
      obtain ⟨⟨x, hx, hux⟩, -⟩ := mem_usedBy.1 hu
      rw [usedOf_push (hsubs x hx)] at hux
      exact .inr ⟨x, .inr hx, hux⟩
    | var _ _ _ _ hid => exact .inl ⟨List.mem_singleton.1 hu, hid⟩
  | defines hd _ _ hn hid hnone hr hwhere =>
    exact hs.defines hd hn hid hnone hr (by omega)
  | same hv =>
    have hused : ∀ j, s'.usedOf j = s.usedOf j := fun j => by
      rw [State.usedOf, State.usedOf, value?_congr hv]
    intro i n u hn hu
    simp only [hused] at hu ⊢
    exact hs i n u (node?_congr hv i ▸ hn) hu

/-- **Values use what their parts use.** -/
theorem Trace.usedInside (h : Trace l s s') (hs : UsedInside s) : UsedInside s' :=
  h.keeps (fun h => h.usedInside) hs

/-- The variables that values use are there. -/
def UsesThere (s : State) : Prop := ∀ i u : Nat, u ∈ (s.usedOf i).ids → Valid s u

theorem Change.usesThere (h : Change l s s') (hs : UsesThere s) : UsesThere s' := by
  intro i u hu
  have hsize : ∀ {u : Nat}, Valid s u → Valid s' u := h.evolves.valid
  cases h.effect with
  | adds ha hv hsubs =>
    rw [ha.usedOf] at hu
    split at hu
    · cases hv with
      | node =>
        obtain ⟨⟨x, hx, hux⟩, -⟩ := mem_usedBy.1 hu
        rw [usedOf_push (hsubs x hx)] at hux
        exact hsize (hs x u hux)
      | var =>
        rw [List.mem_singleton.1 hu]
        exact ⟨Nat.succ_pos _, Nat.le_of_eq ha.size.symm⟩
    · exact hsize (hs i u hu)
  | defines hd _ _ hn _ _ hr =>
    rw [hd.usedOf (valid_of_node? hn)] at hu
    split at hu
    · rcases VarSet.mem_union.1 hu with hu | hu
      · exact List.mem_singleton.1 hu ▸ hsize (valid_of_node? hn)
      · exact hsize (hs _ u (by rwa [usedOf_of_value hr]))
    · exact hsize (hs i u hu)
  | same hv =>
    rw [State.usedOf, value?_congr hv] at hu
    exact hsize (hs i u hu)

theorem UsedInside.new (target : Version) (decls : Decls) (debug : Bool) :
    UsedInside (State.new target decls debug) := by
  intro i n u hn
  cases i <;> simp [State.new, State.node?, State.value?] at hn

end CoreLowering.Graph
