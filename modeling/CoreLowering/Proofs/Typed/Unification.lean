import CoreLowering.Typed.Unify
import Mathlib.Data.List.Basic
import Mathlib.Data.List.Forall2

/-!
# Comparing types, and types in full

A variable is bound without a look at whether it occurs in the type it is
bound to, so a comparison can go round and round: `X` meets a list of `X` and
is then compared with itself (`unify_pair_cutOff`).  What a variable is bound to
may keep variables that are bound later, and replacing variables once does not
follow them (`apply_of_chain`).  In types without variables
every comparison goes into smaller types.
-/

namespace CoreLowering

variable {x y t : Ty} {fuel : Nat} {xs : List Ty}

/-- Whether a comparison was cut off for its depth, here or in an argument. -/
def Mismatch.isEndless : Mismatch → Bool
  | .endless _ _ => true
  | .inside _ _ inner => inner.isEndless
  | _ => false

/-- Whether a type with this head can be used for every type, and every type
for it. -/
def TyCon.isOpen (c : TyCon) : Bool :=
  c = .free || c = .nothing

namespace Ty

variable {up : Bool} {a b : Ty} {s s' : Subst}

/-- The comparison was cut off for its depth. -/
def CutOff (r : Except Mismatch Subst) : Prop :=
  ∃ e, r = .error e ∧ e.isEndless = true

/-! ## One comparison -/

theorem unifyAll_cons_of_ok (xs ys : List Ty) (h : unifyIn fuel up x y s = .ok s') :
    unifyAll fuel up a b (x :: xs) (y :: ys) s = unifyAll fuel up a b xs ys s' := by
  rw [unifyAll, h]

theorem unifyAll_cons_of_error {e : Mismatch} (xs ys : List Ty)
    (h : unifyIn fuel up x y s = .error e) :
    unifyAll fuel up a b (x :: xs) (y :: ys) s = .error (.inside a b e) := by
  rw [unifyAll, h]

mutual

theorem apply_empty : ∀ t : Ty, Subst.empty.apply t = t
  | con c args => by rw [Subst.apply, applyAll_empty args]
  | var v => rfl
  | all ps body => by
    rw [Subst.apply]
    exact congrArg _ (apply_empty body)
  | missing => rfl

theorem applyAll_empty : ∀ ts : List Ty, Subst.empty.applyAll ts = ts
  | [] => rfl
  | t :: ts => by rw [Subst.applyAll, apply_empty t, applyAll_empty ts]

end

theorem size_lt_unifyFuel (a b : Ty) : a.size < unifyFuel a b := by
  rw [unifyFuel]
  calc a.size < a.size + b.size + 1 := by omega
    _ ≤ _ := Nat.le_mul_of_pos_left _ (Nat.mul_pos (Nat.succ_pos _) (Nat.succ_pos _))
    _ ≤ _ := Nat.le_add_right _ _

/-- A variable that stands for a list of itself is compared with itself
without an end. -/
theorem unifyIn_self_cutOff (v : TyVar) (up : Bool) (fuel : Nat) :
    CutOff (unifyIn fuel up (var v) (var v) ⟨[(v.id, builtinList (var v))]⟩) := by
  have hresolve : Subst.resolve ⟨[(v.id, builtinList (var v))]⟩ (var v).unwrap =
      con .builtinList [var v] := by
    simp [unwrap, Subst.resolve, Subst.resolveIn, Subst.find?, builtinList]
  induction fuel with
  | zero =>
    rw [unifyIn, hresolve]
    exact ⟨_, by simp; rfl, rfl⟩
  | succ fuel ih =>
    obtain ⟨e, hr, he⟩ := ih
    rw [unifyIn, hresolve]
    simp only [decide_true, Bool.true_or, if_true, unifyAll_cons_of_error [] [] hr]
    exact ⟨_, rfl, he⟩

/-- Where a variable meets a list of itself and then itself, the comparison
has no end. -/
theorem unify_pair_cutOff (v : TyVar) (up : Bool) :
    CutOff ((builtinPair (var v) (var v)).unify
      (builtinPair (builtinList (var v)) (var v)) up) := by
  rw [unify]
  generalize unifyFuel _ _ = fuel
  cases fuel with
  | zero =>
    rw [unifyIn]
    exact ⟨_, by simp [builtinPair, unwrap, Subst.resolve, Subst.resolveIn, Subst.empty]; rfl, rfl⟩
  | succ fuel =>
    obtain ⟨e, hr, he⟩ := unifyIn_self_cutOff v up fuel
    have hfirst : unifyIn fuel up (var v) (builtinList (var v)) ⟨[]⟩ =
        .ok ⟨[(v.id, builtinList (var v))]⟩ := by
      rw [unifyIn]
      simp [builtinList, unwrap, Subst.resolve, Subst.resolveIn, Subst.insert]
    rw [unifyIn]
    simp only [builtinPair, unwrap, Subst.resolve, Subst.resolveIn, Subst.empty,
      List.length_cons, List.length_nil, decide_true, Bool.true_or, if_true]
    rw [unifyAll_cons_of_ok _ _ hfirst, unifyAll_cons_of_error [] [] hr]
    exact ⟨_, rfl, he⟩

/-- A variable that is bound to another one before that one is bound keeps it,
and the two types differ after variables are replaced once. -/
theorem apply_of_chain {x y : TyVar} (h : x.id ≠ y.id) :
    ∃ s, (builtinPair (var x) (var y)).unify (builtinPair (var y) integer) false = .ok s ∧
      s.apply (builtinPair (var x) (var y)) ≠ s.apply (builtinPair (var y) integer) := by
  have hxy : (x.id == y.id) = false := beq_false_of_ne h
  have hyx : (y.id == x.id) = false := beq_false_of_ne h.symm
  refine ⟨⟨[(y.id, integer), (x.id, var y)]⟩, ?_, ?_⟩
  · obtain ⟨k, hk⟩ := Nat.exists_eq_add_of_lt
      (size_lt_unifyFuel (builtinPair (var x) (var y)) (builtinPair (var y) integer))
    rw [unify, hk, unifyIn]
    simp [builtinPair, integer, unwrap, unifyIn, unifyAll, Subst.resolve, Subst.resolveIn,
      Subst.find?, Subst.empty, Subst.insert, List.lookup_cons, List.filter, h, hxy, hyx, bne]
  · simp [builtinPair, integer, Subst.apply, Subst.applyAll, Subst.find?, List.lookup_cons, hxy]

/-! ## Parts of types -/

mutual

/-- The parts of a type, itself included. -/
def parts : Ty → List Ty
  | con c args => con c args :: partsAll args
  | all ps body => all ps body :: body.parts
  | t => [t]

/-- The parts of types. -/
def partsAll : List Ty → List Ty
  | [] => []
  | t :: ts => t.parts ++ partsAll ts

end

theorem mem_parts (t : Ty) : t ∈ t.parts := by
  cases t <;> simp [parts]

/-! ## Types in full -/

/-- How types are written: with how many arguments, by their head, the same
number for a declared type and its cases, and whether they may be general. -/
structure Discipline where
  arity : TyCon → Nat
  arity_case : ∀ d c, arity (.caseClass d c) = arity (.sum d)
  general : Prop

/-- What a part of a type may be: nothing is unknown or left out. -/
def Discipline.Allows (n : Discipline) : Ty → Prop
  | con c xs => c.isOpen = false ∧ xs.length = n.arity c
  | all _ _ => n.general
  | var _ => True
  | missing => False

/-- A type in full. -/
def Regular (n : Discipline) (t : Ty) : Prop :=
  ∀ u ∈ t.parts, n.Allows u

/-! ## Types without variables -/

/-- A type without variables. -/
def Ground (t : Ty) : Prop :=
  ∀ v, var v ∉ t.parts

theorem parts_subset {x : Ty} : ∀ {xs : List Ty}, x ∈ xs → x.parts ⊆ partsAll xs
  | y :: xs, h => by
    rw [partsAll]
    obtain rfl | h := List.mem_cons.1 h
    · exact List.subset_append_left _ _
    · exact fun t ht => List.mem_append_right _ (parts_subset h ht)

theorem parts_body_subset (ps : List TyVar) (body : Ty) : body.parts ⊆ (all ps body).parts := by
  rw [parts]
  exact List.subset_cons_self _ _

theorem parts_unwrap_subset : ∀ t : Ty, t.unwrap.parts ⊆ t.parts
  | all ps body => List.Subset.trans (parts_unwrap_subset body) (parts_body_subset ps body)
  | con _ _ | var _ | missing => List.Subset.refl _

theorem parts_arg_subset {c : TyCon} (ht : t.unwrap = con c xs) (hx : x ∈ xs) :
    x.parts ⊆ t.parts := by
  refine List.Subset.trans ?_ (parts_unwrap_subset t)
  rw [ht, parts]
  exact List.subset_cons_of_subset _ (parts_subset hx)

theorem size_le_sizeAll {x : Ty} : ∀ {xs : List Ty}, x ∈ xs → x.size ≤ sizeAll xs
  | y :: xs, h => by
    rw [sizeAll]
    obtain rfl | h := List.mem_cons.1 h
    · exact Nat.le_add_right _ _
    · exact Nat.le_trans (size_le_sizeAll h) (Nat.le_add_left _ _)

theorem Ground.unwrap : ∀ {t : Ty}, t.Ground → t.unwrap.Ground
  | all _ body, h => by
    rw [Ty.unwrap]
    exact Ground.unwrap fun v hv => h v (by simp [parts, hv])
  | con _ _, h | var _, h | missing, h => h

theorem size_unwrap_le : ∀ t : Ty, t.unwrap.size ≤ t.size
  | all _ body => Nat.le_succ_of_le (size_unwrap_le body)
  | con _ _ | var _ | missing => Nat.le_refl _

theorem size_pos (t : Ty) : 0 < t.size := by
  cases t <;> simp [size]

theorem Ground.ne_var (h : t.Ground) (v : TyVar) : t ≠ var v := by
  rintro rfl
  exact h v (by simp [parts])

theorem resolveIn_of_not_var (ht : ∀ v, t ≠ var v) : ∀ fuel, s.resolveIn fuel t = t
  | 0 => by rw [Subst.resolveIn]
  | _ + 1 => by
    cases t with
    | var v => exact absurd rfl (ht v)
    | con | all | missing => simp [Subst.resolveIn]

theorem Ground.resolve (h : t.Ground) : s.resolve t.unwrap = t.unwrap :=
  resolveIn_of_not_var h.unwrap.ne_var _

/-- The arguments of a type without variables have none and are smaller. -/
theorem Ground.args {c : TyCon} (h : t.Ground) (ht : s.resolve t.unwrap = con c xs) (hx : x ∈ xs) :
    x.Ground ∧ x.size < t.size := by
  rw [h.resolve] at ht
  constructor
  · intro v hv
    refine h.unwrap v ?_
    rw [ht, parts]
    exact List.mem_cons_of_mem _ (parts_subset hx hv)
  · have := size_unwrap_le t
    have := size_le_sizeAll hx
    rw [ht, size] at *
    omega

end Ty
end CoreLowering
