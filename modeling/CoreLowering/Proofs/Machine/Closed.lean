import Mathlib.Data.List.Basic
import CoreLowering.Proofs.Machine.Invariant

/-!
# Closed terms find the values of their names

A closure carries an environment, and what its body may look up there are the
free names of the body.  The machine keeps these names bound: where it enters
a term, every free name of the term has a value, and the values that are
closures carry the values of their own free names in turn.  So the evaluation
of a term without free names never looks for a name in vain.

Main statements: `Term.mem_freeFrom`, what the list of free names holds;
`call_keeps` and `selectBranch_keeps`, no value is made up but constants;
`covering`, the invariant.
-/

namespace CoreLowering

variable {b s : Term} {bs : List Term} {v : Value}

namespace Term

variable {t : Term} {ts : List Term}

/-- The free names of terms, in order of first use. -/
def freeAll (ts : List Term) : List String :=
  freeFromAll [] [] ts

theorem free_lam {x : String} : (lam x b).free = b.freeFrom [x] [] := rfl

theorem free_apply {f a : Term} : (apply f a).free = a.freeFrom [] f.free := rfl

theorem free_case : (case s bs).free = freeFromAll [] s.free bs := rfl

theorem freeAll_cons : freeAll (t :: ts) = freeFromAll [] t.free ts :=
  rfl

mutual

/-- Names that are listed already stay listed, and a free name of the term is
added unless it is bound around it. -/
theorem mem_freeFrom {y : String} (t : Term) (bound seen : List String) :
    y ∈ t.freeFrom bound seen ↔ y ∈ seen ∨ y ∉ bound ∧ y ∈ t.free := by
  cases t with
  | var x =>
    by_cases hb : x ∈ bound <;> by_cases hs : x ∈ seen <;> by_cases hy : y = x <;>
      simp [freeFrom, free, hb, hs, hy]
  | lam x b =>
    rw [free_lam, mem_freeFrom b [x], freeFrom, mem_freeFrom b]
    simp [and_assoc, and_left_comm]
  | apply f a =>
    rw [free_apply, mem_freeFrom a [], freeFrom, mem_freeFrom a, mem_freeFrom f]
    simp [and_or_left, or_assoc]
  | force b => exact mem_freeFrom b bound seen
  | delay b => exact mem_freeFrom b bound seen
  | constr tag ts => exact mem_freeFromAll ts bound seen
  | case s ts =>
    rw [free_case, mem_freeFromAll ts [], freeFrom, mem_freeFromAll ts, mem_freeFrom s]
    simp [and_or_left, or_assoc]
  | con | builtin | error | unknown | missing => simp [freeFrom, free]

/-- The same of several terms. -/
theorem mem_freeFromAll {y : String} (ts : List Term) (bound seen : List String) :
    y ∈ freeFromAll bound seen ts ↔ y ∈ seen ∨ y ∉ bound ∧ y ∈ freeAll ts := by
  cases ts with
  | nil => simp [freeFromAll, freeAll]
  | cons t ts =>
    rw [freeAll_cons, mem_freeFromAll ts [], freeFromAll, mem_freeFromAll ts, mem_freeFrom t]
    simp [and_or_left, or_assoc]

end

variable {x y : String}

theorem mem_free_lam : y ∈ (lam x b).free ↔ y ≠ x ∧ y ∈ b.free := by
  simp [free_lam, mem_freeFrom]

theorem mem_free_apply {f a : Term} : y ∈ (apply f a).free ↔ y ∈ f.free ∨ y ∈ a.free := by
  simp [free_apply, mem_freeFrom a]

theorem mem_free_case : y ∈ (case s bs).free ↔ y ∈ s.free ∨ y ∈ freeAll bs := by
  simp [free_case, mem_freeFromAll bs]

theorem mem_freeAll_cons : y ∈ freeAll (t :: ts) ↔ y ∈ t.free ∨ y ∈ freeAll ts := by
  simp [freeAll_cons, mem_freeFromAll ts]

theorem mem_freeAll_of_mem (ht : t ∈ ts) (hy : y ∈ t.free) : y ∈ freeAll ts := by
  induction ts with
  | nil => cases ht
  | cons u ts ih =>
    rw [mem_freeAll_cons]
    rcases List.mem_cons.1 ht with rfl | ht
    · exact .inl hy
    · exact .inr (ih ht)

end Term

namespace Machine

variable {P : Value → Prop} {w : Version}

/-! ## Covered names -/

/-- Values whose closures carry a value for every free name of their bodies,
a value of the same sort. -/
inductive Value.Covered : Value → Prop where
  | con {c : Constant} : Covered (.con c)
  | delay {body : Term} {env : Env} : (∀ x ∈ body.free, Env.find? env x ≠ none) →
      (∀ x ∈ body.free, ∀ v, Env.find? env x = some v → Covered v) → Covered (.delay body env)
  | lam {x : String} {body : Term} {env : Env} :
      (∀ y ∈ (Term.lam x body).free, Env.find? env y ≠ none) →
      (∀ y ∈ (Term.lam x body).free, ∀ v, Env.find? env y = some v → Covered v) →
      Covered (.lam x body env)
  | builtin {f : Builtin} {forces : Nat} {args : List Value} : (∀ v ∈ args, Covered v) →
      Covered (.builtin f forces args)
  | constr {tag : UInt64} {fields : List Value} : (∀ v ∈ fields, Covered v) →
      Covered (.constr tag fields)

/-- The names have covered values. -/
def Env.Covers (env : Env) (names : List String) : Prop :=
  ∀ x ∈ names, ∃ v, Env.find? env x = some v ∧ v.Covered

namespace Env.Covers

variable {env : Env} {names : List String} {x : String} {body : Term}

theorem mono {names' : List String} (h : Env.Covers env names) (hsub : ∀ x ∈ names', x ∈ names) :
    Env.Covers env names' :=
  fun x hx => h x (hsub x hx)

/-- The body of a function is entered with its argument. -/
theorem cons (h : Env.Covers env (Term.lam x body).free) (hv : v.Covered) :
    Env.Covers ((x, v) :: env) body.free := by
  intro y hy
  by_cases hx : x = y
  · exact ⟨v, by simp [Env.find?, hx], hv⟩
  · obtain ⟨u, hu, hcovered⟩ := h y (Term.mem_free_lam.2 ⟨Ne.symm hx, hy⟩)
    exact ⟨u, by simpa [Env.find?, hx] using hu, hcovered⟩

theorem ne_none (h : Env.Covers env names) : ∀ x ∈ names, Env.find? env x ≠ none := by
  intro x hx hnone
  obtain ⟨v, hv, -⟩ := h x hx
  rw [hnone] at hv
  cases hv

theorem covered (h : Env.Covers env names) :
    ∀ x ∈ names, ∀ v, Env.find? env x = some v → v.Covered := by
  intro x hx v hv
  obtain ⟨u, hu, hcovered⟩ := h x hx
  rw [hu] at hv
  cases hv
  exact hcovered

theorem of_found (hfound : ∀ x ∈ names, Env.find? env x ≠ none)
    (hcovered : ∀ x ∈ names, ∀ v, Env.find? env x = some v → v.Covered) : Env.Covers env names := by
  intro x hx
  obtain ⟨v, hv⟩ := Option.ne_none_iff_exists'.1 (hfound x hx)
  exact ⟨v, hv, hcovered x hx v hv⟩

end Env.Covers

/-- Frames whose terms find the values of their free names. -/
def Frame.Covered : Frame → Prop
  | .argument arg env => Env.Covers env arg.free
  | .function f => f.Covered
  | .force => True
  | .field _ done rest env => (∀ v ∈ done, v.Covered) ∧ Env.Covers env (Term.freeAll rest)
  | .scrutinee branches env => Env.Covers env (Term.freeAll branches)
  | .branch args => ∀ v ∈ args, v.Covered

/-- What is entered finds the values of its free names. -/
def Control.Covered : Control → Prop
  | .enter t env => Env.Covers env t.free
  | .back v => v.Covered

/-- Failures for another reason than a name without a value. -/
def Failure.NotFree : Failure → Prop
  | .freeVariable _ => False
  | _ => True

/-! ## Moves -/

/-- What a builtin gives is a constant or one of its arguments. -/
theorem call_keeps {f : Builtin} {args : List Value} (hcon : ∀ c, P (.con c))
    (h : ∀ v ∈ args, P v) : Gives (fun _ => True) P (call f args) := by
  have hread : ∀ {α : Type} {x : Except Refusal α} {g : α → Except Refusal Value},
      (∀ a, Gives (fun _ => True) P (g a)) → Gives (fun _ => True) P (x >>= g) := by
    intro α x g hg
    cases x with
    | ok a => exact hg a
    | error why => trivial
  unfold call
  split
  -- Arguments are read and told apart until the result is there.
  all_goals
    repeat' first
      | exact hcon _
      | exact h _ (by simp)
      | trivial
      | refine hread fun _ => ?_
      | unfold chooseData
      | split

theorem enter_covered {t : Term} {env : Env} (h : Env.Covers env t.free) :
    Gives Failure.NotFree (fun r => r.1.Covered ∧ ∀ f ∈ r.2, f.Covered) (enter w t env) := by
  cases t with
  | var x =>
    obtain ⟨v, hv, hcovered⟩ := h x (by simp [Term.free, Term.freeFrom])
    rw [enter, hv]
    exact ⟨hcovered, by simp⟩
  | lam x body => exact ⟨.lam h.ne_none h.covered, by simp⟩
  | delay body => exact ⟨.delay h.ne_none h.covered, by simp⟩
  | con c => exact ⟨.con, by simp⟩
  | builtin f => exact .ite (fun _ => ⟨.builtin (by simp), by simp⟩) fun _ => trivial
  | apply f a =>
    have hf : Env.Covers env f.free := h.mono fun y hy => Term.mem_free_apply.2 (.inl hy)
    have ha : Env.Covers env a.free := h.mono fun y hy => Term.mem_free_apply.2 (.inr hy)
    exact ⟨hf, List.forall_mem_singleton.2 ha⟩
  | force body => exact ⟨h, List.forall_mem_singleton.2 trivial⟩
  | constr tag fields =>
    refine .ite (fun _ => ?_) fun _ => trivial
    cases fields with
    | nil => exact ⟨.constr (by simp), by simp⟩
    | cons t rest =>
      have ht : Env.Covers env t.free := h.mono fun y hy => Term.mem_freeAll_cons.2 (.inl hy)
      have hrest : Env.Covers env (Term.freeAll rest) :=
        h.mono fun y hy => Term.mem_freeAll_cons.2 (.inr hy)
      exact ⟨ht, List.forall_mem_singleton.2 ⟨by simp, hrest⟩⟩
  | case s branches =>
    have hs : Env.Covers env s.free := h.mono fun y hy => Term.mem_free_case.2 (.inl hy)
    have hbranches : Env.Covers env (Term.freeAll branches) :=
      h.mono fun y hy => Term.mem_free_case.2 (.inr hy)
    exact .ite (fun _ => ⟨hs, List.forall_mem_singleton.2 hbranches⟩) fun _ => trivial
  | error | unknown | missing => trivial

theorem applyValue_covered {f a : Value} (hf : f.Covered) (ha : a.Covered) :
    Gives Failure.NotFree (fun r => r.1.Covered) (applyValue f a) := by
  cases hf with
  | lam hfound hcovered => exact (Env.Covers.of_found hfound hcovered).cons ha
  | @builtin f forces args hargs =>
    have hall : ∀ v ∈ args ++ [a], v.Covered := by
      simpa [or_imp, forall_and] using ⟨hargs, ha⟩
    refine .ite (fun _ => trivial) fun _ => .ite (fun _ => ?_) fun _ => .builtin hall
    have hcall := call_keeps (f := f) (fun _ => .con) hall
    cases hr : call f (args ++ [a]) with
    | ok v =>
      rw [hr] at hcall
      exact hcall
    | error why => trivial
  | con | delay | constr => trivial

theorem forceValue_covered (hv : v.Covered) :
    Gives Failure.NotFree Control.Covered (forceValue v) := by
  cases hv with
  | delay hfound hcovered => exact Env.Covers.of_found hfound hcovered
  | builtin hargs => exact .ite (fun _ => trivial) fun _ => .builtin (by simp)
  | con | lam | constr => trivial

theorem branchAt_keeps {branches : List Term} {args : List Value} (i : Nat) (h : ∀ v ∈ args, P v) :
    Gives Failure.NotFree (fun r => r.1 ∈ branches ∧ ∀ v ∈ r.2, P v)
      (branchAt branches i args) := by
  rw [branchAt]
  cases ht : branches[i]? with
  | none => trivial
  | some t => exact ⟨List.mem_of_getElem? ht, h⟩

/-- What a case selects is one of its branches, and it is applied to constants
or to the fields of the scrutinee. -/
theorem selectBranch_keeps {s : Value} {branches : List Term} (hcon : ∀ c, P (.con c))
    (h : ∀ tag fields, s = .constr tag fields → ∀ v ∈ fields, P v) :
    Gives Failure.NotFree (fun r => r.1 ∈ branches ∧ ∀ v ∈ r.2, P v)
      (selectBranch w s branches) := by
  cases s with
  | constr tag fields => exact branchAt_keeps _ (h tag fields rfl)
  | con c =>
    simp only [selectBranch]
    repeat' split
    all_goals first
      | trivial
      | exact branchAt_keeps _ (by simp [hcon, integer, byteString])
  | delay | lam | builtin => trivial

theorem resume_covered {frame : Frame} (hframe : frame.Covered) (hv : v.Covered) :
    Gives Failure.NotFree (fun r => r.1.Covered ∧ ∀ f ∈ r.2.1, f.Covered) (resume w frame v) := by
  cases frame with
  | argument arg env => exact ⟨hframe, List.forall_mem_singleton.2 hv⟩
  | function f => exact .bind (applyValue_covered hframe hv) fun r hr => ⟨hr, by simp⟩
  | force => exact .bind (forceValue_covered hv) fun r hr => ⟨hr, by simp⟩
  | field tag done rest env =>
    obtain ⟨hdone, hrest⟩ := hframe
    have hdone' : ∀ u ∈ v :: done, u.Covered := List.forall_mem_cons.2 ⟨hv, hdone⟩
    cases rest with
    | nil => exact ⟨.constr fun u hu => hdone' u (List.mem_reverse.1 hu), by simp⟩
    | cons t rest =>
      have ht : Env.Covers env t.free :=
        hrest.mono fun y hy => Term.mem_freeAll_cons.2 (.inl hy)
      have hrest' : Env.Covers env (Term.freeAll rest) :=
        hrest.mono fun y hy => Term.mem_freeAll_cons.2 (.inr hy)
      exact ⟨ht, List.forall_mem_singleton.2 ⟨hdone', hrest'⟩⟩
  | scrutinee branches env =>
    have hfields : ∀ tag fields, v = .constr tag fields → ∀ u ∈ fields, u.Covered := by
      rintro tag fields rfl
      cases hv with
      | constr hfields => exact hfields
    refine .bind (selectBranch_keeps (fun _ => .con) hfields) fun r hr =>
      ⟨?_, List.forall_mem_singleton.2 hr.2⟩
    exact Env.Covers.mono hframe fun y hy => Term.mem_freeAll_of_mem hr.1 hy
  | branch args =>
    cases args with
    | nil => exact ⟨hv, by simp⟩
    | cons a rest =>
      have hrest := List.forall_mem_cons.1 hframe
      exact .bind (applyValue_covered hv hrest.1) fun r hr =>
        ⟨hr, List.forall_mem_singleton.2 hrest.2⟩

/-- The machine keeps the free names of its terms bound. -/
def covering (w : Version) : Invariant w where
  control := Control.Covered
  frame := Frame.Covered
  failure := Failure.NotFree
  enter := enter_covered
  resume := resume_covered

end Machine

end CoreLowering
