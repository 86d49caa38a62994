import Mathlib.Data.List.Forall2
import CoreLowering.Proofs.Machine.Evaluation

/-!
# Calls of builtins

A builtin is forced as often as it needs and then applied to its arguments
one by one.  With all of them there it computes: `HasValue.call` gives the
result, `Breaks.operand` and `Breaks.call` say how a call fails.
-/

namespace CoreLowering.Machine

variable {w : Version} {env : Env} {f : Builtin} {args vs : List Value} {a : Value} {t : Term}
  {why : Refusal} {r : Value}

/-- Forcing a builtin that waits for it. -/
private theorem Evaluates.forceTimes {f : Builtin} {i k n : Nat}
    (h : Evaluates w n env t (.builtin f i [])) (hk : i + k ≤ f.forces) :
    Evaluates w n env (t.forceTimes k) (.builtin f (i + k) []) := by
  induction k generalizing t i with
  | zero => exact h
  | succ k ih =>
    have hf : forceValue (.builtin f i []) = .ok (.back (.builtin f (i + 1) [])) := by
      have : ¬(i ≥ f.forces ∨ ([] : List Value) ≠ []) := by simp; omega
      simp only [forceValue, if_neg this]
    have hs := ih (.force h (.builtin hf)) (by omega)
    rwa [Nat.add_assoc, Nat.add_comm 1 k] at hs

/-- A builtin that is ready for its arguments. -/
theorem Evaluates.ofBuiltin {f : Builtin} (hf : f.availableIn w = true) :
    Evaluates w 0 env (.ofBuiltin f) (.builtin f f.forces []) := by
  have h0 : Evaluates w 0 env (.builtin f) (.builtin f 0 []) := .builtin hf
  have h := h0.forceTimes (k := f.forces) (by omega)
  rwa [Nat.zero_add] at h

/-- A builtin that still waits for arguments takes one more. -/
private theorem applyValue_waiting (h : args.length + 1 < f.arity) :
    applyValue (.builtin f f.forces args) a =
      .ok (.back (.builtin f f.forces (args ++ [a])), []) := by
  have h1 : ¬f.forces < f.forces := by omega
  have h2 : ¬(args ++ [a]).length = f.arity := by simp; omega
  simp only [applyValue, if_neg h1, if_neg h2]

/-- A builtin with all its arguments computes. -/
private theorem applyValue_last {v : Value} (h : args.length + 1 = f.arity)
    (hv : call f (args ++ [a]) = .ok v) :
    applyValue (.builtin f f.forces args) a = .ok (.back v, logOf f (args ++ [a])) := by
  have h1 : ¬f.forces < f.forces := by omega
  have h2 : (args ++ [a]).length = f.arity := by simpa using h
  simp only [applyValue, if_neg h1, if_pos h2, hv]

/-- A builtin with all its arguments refuses them. -/
private theorem applyValue_refused (h : args.length + 1 = f.arity)
    (hv : call f (args ++ [a]) = .error why) :
    applyValue (.builtin f f.forces args) a = .error (.refused f why) := by
  have h1 : ¬f.forces < f.forces := by omega
  have h2 : (args ++ [a]).length = f.arity := by simpa using h
  simp only [applyValue, if_neg h1, if_pos h2, hv]

/-- A term has a value, whatever the way to it. -/
def HasValue (w : Version) (env : Env) (t : Term) (v : Value) : Prop :=
  ∃ n, Evaluates w n env t v

/-- A function takes one argument more, which is not its last. -/
private theorem HasValue.more {a : Term} {done : List Value} {v : Value}
    (ht : HasValue w env t (.builtin f f.forces done)) (ha : HasValue w env a v)
    (hn : done.length + 1 < f.arity) :
    HasValue w env (.apply t a) (.builtin f f.forces (done ++ [v])) := by
  obtain ⟨i, ht⟩ := ht
  obtain ⟨j, ha⟩ := ha
  exact ⟨_, .apply ht ha (.builtin (applyValue_waiting hn))⟩

/-- A function applied to fewer arguments than it takes. -/
theorem HasValue.waiting {args : List Term} {done : List Value}
    (ht : HasValue w env t (.builtin f f.forces done)) (hs : List.Forall₂ (HasValue w env) args vs)
    (hn : done.length + args.length < f.arity) :
    HasValue w env (t.applyAll args) (.builtin f f.forces (done ++ vs)) := by
  induction hs generalizing t done with
  | nil =>
    rw [List.append_nil]
    exact ht
  | @cons a v args vs ha _ ih =>
    rw [List.length_cons] at hn
    have h := ih (ht.more ha (by omega)) (by simp; omega)
    rwa [List.append_assoc] at h

/-- A function applied to all its arguments, some of which it has already, comes
to the last one. -/
private theorem HasValue.lastly {args : List Term} {done : List Value}
    (ht : HasValue w env t (.builtin f f.forces done)) (hs : List.Forall₂ (HasValue w env) args vs)
    (hn : done.length + args.length = f.arity) (h₀ : args ≠ []) :
    ∃ fn a us u, t.applyAll args = .apply fn a ∧ done ++ vs = us ++ [u] ∧ us.length + 1 = f.arity ∧
      HasValue w env fn (.builtin f f.forces us) ∧ HasValue w env a u := by
  induction hs generalizing t done with
  | nil => exact absurd rfl h₀
  | @cons a v args vs ha hs ih =>
    rw [List.length_cons] at hn
    cases hs with
    | nil => exact ⟨t, a, done, v, rfl, rfl, by simpa using hn, ht, ha⟩
    | @cons b u args vs hb hs =>
      rw [List.length_cons] at hn
      have h := ih (ht.more ha (by omega)) (by simp; omega) (List.cons_ne_nil b args)
      rwa [List.append_assoc] at h

/-- **The result of a call.** -/
theorem HasValue.call {args : List Term} (hf : f.availableIn w = true)
    (hs : List.Forall₂ (HasValue w env) args vs) (hn : args.length = f.arity) (h₀ : args ≠ [])
    (hr : Machine.call f vs = .ok r) : HasValue w env ((Term.ofBuiltin f).applyAll args) r := by
  obtain ⟨fn, a, us, u, heq, rfl, hlast, ⟨i, hfn⟩, j, ha⟩ :=
    lastly ⟨0, .ofBuiltin hf⟩ hs (by simpa using hn) h₀
  rw [heq]
  exact ⟨_, .apply hfn ha (.builtin (applyValue_last hlast hr))⟩

namespace Breaks

variable {m : Settings} {f : Builtin} {vs : List Value}

/-- A function that fails, whatever it is applied to. -/
theorem applyAll (hm : m.budget ≤ 0) (h : Breaks m env t) (args : List Term) :
    Breaks m env (t.applyAll args) := by
  induction args generalizing t with
  | nil => exact h
  | cons a args ih => exact ih (h.fn hm)

/-- A call of which an argument fails, after those before it had values. -/
theorem operand (hm : m.budget ≤ 0) {before after : List Term} {a : Term}
    (hf : f.availableIn m.version = true) (hs : List.Forall₂ (HasValue m.version env) before vs)
    (hn : before.length < f.arity) (h : Breaks m env a) :
    Breaks m env ((Term.ofBuiltin f).applyAll (before ++ a :: after)) := by
  obtain ⟨n, ht⟩ := HasValue.waiting ⟨0, .ofBuiltin hf⟩ hs (by simpa using hn)
  have hb : Breaks m env (((Term.ofBuiltin f).applyAll before).apply a) := arg hm ht h
  simpa only [Term.applyAll, List.foldl_append, List.foldl_cons] using hb.applyAll hm after

/-- **A call that refuses its arguments.** -/
theorem call (hm : m.budget ≤ 0) {args : List Term} (hf : f.availableIn m.version = true)
    (hs : List.Forall₂ (HasValue m.version env) args vs) (hn : args.length = f.arity)
    (h₀ : args ≠ []) (hr : Machine.call f vs = .error why) :
    Breaks m env ((Term.ofBuiltin f).applyAll args) := by
  obtain ⟨fn, a, us, u, heq, rfl, hlast, ⟨i, hfn⟩, j, ha⟩ :=
    HasValue.lastly ⟨0, .ofBuiltin hf⟩ hs (by simpa using hn) h₀
  rw [heq]
  exact refused hm hfn ha (applyValue_refused hlast hr)

end Breaks

end CoreLowering.Machine
