import Mathlib.Data.List.Basic
import Mathlib.Data.List.Nodup
import Mathlib.Data.List.Perm.Subperm
import CoreLowering.Proofs.Graph.Lowering

/-!
# Names are given away once

Every variable of the graph has a name of its own, which is not the one of
the fixed-point combinator.

Main statement: `Trace.named`, which carries this along every trace of
changes.
-/

namespace CoreLowering.Graph

variable {s s' : State} {i c l : Nat}

/-! ## The search for a name -/

theorem toString_injective {m n : Nat} (h : toString m = toString n) : m = n := by
  have hd : Nat.toDigits 10 m = Nat.toDigits 10 n := by
    rw [← Nat.toList_repr, ← Nat.toList_repr]
    exact congrArg String.toList h
  rw [← Nat.ofDigitChars_ten_toDigits (n := m), hd, Nat.ofDigitChars_ten_toDigits]

/-- The numbered names of a base are different from each other. -/
theorem numbered_injective (base : String) {m n : Nat}
    (h : numbered base m = numbered base n) : m = n := by
  have hlen : ∀ k : Nat, base ≠ base ++ "_" ++ toString k := by
    intro k hk
    have hl := congrArg String.length hk
    have h1 : "_".length = 1 := rfl
    simp only [String.length_append, h1] at hl
    omega
  unfold numbered at h
  split at h <;> split at h <;> rename_i hm hn
  · omega
  · exact absurd h (hlen n)
  · exact absurd h.symm (hlen m)
  · refine toString_injective ?_
    have := congrArg String.toList h
    simp only [String.toList_append, List.append_assoc, List.append_cancel_left_eq] at this
    exact String.toList_inj.1 this

/-- The search ends at a name that is not taken, or all names it looked at
are taken. -/
theorem firstFree_spec (taken : List String) (base : String) (fuel n : Nat) :
    numbered base (firstFree taken base fuel n) ∉ taken ∨
      ∀ k < fuel, numbered base (n + k) ∈ taken := by
  induction fuel generalizing n with
  | zero => exact .inr (by omega)
  | succ fuel ih =>
    unfold firstFree
    split
    · rename_i h
      refine (ih (n + 1)).imp_right fun hall k hk => ?_
      cases k with
      | zero => simpa using h
      | succ k =>
        have := hall k (by omega)
        rwa [Nat.add_right_comm, Nat.add_assoc] at this
    · rename_i h
      exact .inl (by simpa using h)

/-- Among more numbers than there are names, one gives a name that is not
taken. -/
theorem firstFree_not_mem (taken : List String) (base : String) (n : Nat) :
    numbered base (firstFree taken base (taken.length + 1) n) ∉ taken := by
  refine (firstFree_spec taken base (taken.length + 1) n).resolve_right fun hall => ?_
  have hsub : (List.range (taken.length + 1)).map (fun k => numbered base (n + k)) ⊆ taken := by
    intro x hx
    obtain ⟨k, hk, rfl⟩ := List.mem_map.1 hx
    exact hall k (List.mem_range.1 hk)
  have hnodup : ((List.range (taken.length + 1)).map fun k => numbered base (n + k)).Nodup := by
    refine List.Nodup.map (fun j k h => ?_) List.nodup_range
    have := numbered_injective base h
    omega
  have hle := (hnodup.subperm hsub).length_le
  rw [List.length_map, List.length_range] at hle
  omega

theorem nextName_not_mem (s : State) (base : String) : s.nextName base ∉ s.taken :=
  firstFree_not_mem _ _ _

/-! ## The invariant -/

/-- Every variable has a name of its own that has been given away. -/
structure Named (s : State) : Prop where
  fix_taken : fixName ∈ s.taken
  taken : ∀ i n, s.node? i = some n → n.isIdentifiable = true → n.name ∈ s.taken
  ne_fix : ∀ i n, s.node? i = some n → n.isIdentifiable = true → n.name ≠ fixName
  inj : ∀ i j n m, s.node? i = some n → s.node? j = some m → n.isIdentifiable = true →
    m.isIdentifiable = true → n.name = m.name → i = j

theorem Node.name_withRhs (n : Node) (rhs : Nat) : (n.withRhs rhs).name = n.name := by
  cases n <;> rfl

/-- Names stay given away once while nodes keep their names. -/
theorem Named.keep (h : Named s) (ht : s'.taken = s.taken)
    (hn : ∀ i n, s'.node? i = some n → n.isIdentifiable = true →
      ∃ m, s.node? i = some m ∧ m.isIdentifiable = true ∧ m.name = n.name) : Named s' where
  fix_taken := ht ▸ h.fix_taken
  taken i n hi hid := by
    obtain ⟨m, hm, hid', heq⟩ := hn i n hi hid
    rw [ht, ← heq]
    exact h.taken i m hm hid'
  ne_fix i n hi hid := by
    obtain ⟨m, hm, hid', heq⟩ := hn i n hi hid
    rw [← heq]
    exact h.ne_fix i m hm hid'
  inj i j n m hi hj hid hjd heq := by
    obtain ⟨n', hn', hid', hn''⟩ := hn i n hi hid
    obtain ⟨m', hm', hjd', hm''⟩ := hn j m hj hjd
    exact h.inj i j n' m' hn' hm' hid' hjd' (by rw [hn'', hm'', heq])

/-- A variable with a name that was not taken. -/
theorem Named.adds (h : Named s) {v : Value} (ha : Adds s s' v)
    (ht : s'.taken = v.node.name :: s.taken) (hnew : v.node.name ∉ s.taken) : Named s' := by
  have hold : ∀ i n, s'.node? i = some n → i = s.size + 1 ∧ n = v.node ∨
      s.node? i = some n := by
    intro i n hn
    rw [ha.node?] at hn
    split at hn
    · exact .inl ⟨‹_›, (Option.some.inj hn).symm⟩
    · exact .inr hn
  refine ⟨ht ▸ List.mem_cons_of_mem _ h.fix_taken, ?_, ?_, ?_⟩
  · intro i n hn hid
    rw [ht]
    rcases hold i n hn with ⟨-, rfl⟩ | hn
    · exact List.mem_cons_self ..
    · exact List.mem_cons_of_mem _ (h.taken i n hn hid)
  · intro i n hn hid
    rcases hold i n hn with ⟨-, rfl⟩ | hn
    · exact fun heq => hnew (heq ▸ h.fix_taken)
    · exact h.ne_fix i n hn hid
  · intro i j n m hn hm hid hjd heq
    rcases hold i n hn with ⟨rfl, rfl⟩ | hn <;> rcases hold j m hm with ⟨rfl, rfl⟩ | hm
    · rfl
    · exact absurd (heq ▸ h.taken j m hm hjd) hnew
    · exact absurd (heq ▸ h.taken i n hn hid) hnew
    · exact h.inj i j n m hn hm hid hjd heq

theorem Change.named (h : Change l s s') (hs : Named s) : Named s' := by
  cases h.effect with
  | adds ha hv =>
    cases hv with
    | node _ _ _ hid ht =>
      refine hs.keep ht fun i n hn hid' => ⟨n, ?_, hid', rfl⟩
      rw [ha.node?] at hn
      split at hn
      · cases hn
        simp [State.summed, Value.new, hid] at hid'
      · exact hn
    | var base _ _ _ _ _ hname ht =>
      refine hs.adds ha ht ?_
      rw [State.variable, Value.new, hname]
      exact nextName_not_mem s base
  | defines hd ht =>
    refine hs.keep ht fun i m hm hid => ?_
    rcases hd.node?_iff.1 hm with ⟨-, hm⟩ | ⟨rfl, m', hm', rfl⟩
    · exact ⟨m, hm, hid, rfl⟩
    · rw [Node.isIdentifiable_withRhs] at hid
      exact ⟨m', hm', hid, (Node.name_withRhs m' _).symm⟩
  | same hv ht => exact hs.keep ht fun i n hn hid => ⟨n, node?_congr hv i ▸ hn, hid, rfl⟩

/-- **Changes give every name away once.** -/
theorem Trace.named (h : Trace l s s') (hs : Named s) : Named s' :=
  h.keeps (fun h => h.named) hs

theorem Named.new (target : Version) (decls : Decls) (debug : Bool) :
    Named (State.new target decls debug) := by
  have hnode : ∀ i : Nat, (State.new target decls debug).node? i = none := by
    intro i
    cases i <;> rfl
  exact ⟨by simp [State.new], by simp [hnode], by simp [hnode], by simp [hnode]⟩

end CoreLowering.Graph
