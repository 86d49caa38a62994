import CoreLowering.Proofs.Encoding.Evaluating
import CoreLowering.Proofs.Encoding.Stored
import CoreLowering.Proofs.Graph.Twins
import CoreLowering.Proofs.Machine.Versions

/-!
# Helpers for lists of pairs

A list of pairs of data and a list of packed pairs are changed into each
other by recursive functions.  By itself such a helper is the same term in
every setting, but for how it takes a list apart: by a native case, or by
builtins.

The term is evaluated here, item after item.  Every round of the loop opens
the list, changes the first item and calls the loop on the rest; it fails as
soon as an item cannot be changed.

Main statement: `linkedHelper_maps`, the helpers map what they stand for over
lists of any length, and the one undoes the other.
-/

namespace CoreLowering

variable {w : Version}

namespace Graph

/-- A helper for lists of pairs by itself. -/
def linkedHelper (h : PairHelper) : LowerM Term := do
  let id ← pairHelper h
  let t ← emit id
  return link t (← get).usesFix

end Graph

namespace Term

mutual

/-- Whether two terms are the same, of those that helpers are made of. -/
def same : Term → Term → Bool
  | var x, var y => x == y
  | lam x t, lam y u => x == y && same t u
  | apply f a, apply g b => same f g && same a b
  | force t, force u => same t u
  | delay t, delay u => same t u
  | con (.integer n), con (.integer k) => n == k
  | con (.list e []), con (.list f []) => e = f
  | builtin f, builtin g => f = g
  | case s bs, case t cs => same s t && sameAll bs cs
  | _, _ => false

/-- Whether two lists of terms are the same, place by place. -/
def sameAll : List Term → List Term → Bool
  | [], [] => true
  | t :: ts, u :: us => same t u && sameAll ts us
  | _, _ => false

end

mutual

theorem eq_of_same : ∀ {t u : Term}, same t u = true → t = u
  | var x, u, h => by cases u <;> simp_all [same]
  | lam x t, u, h => by
    cases u <;> simp [same] at h
    rw [h.1, eq_of_same h.2]
  | apply f a, u, h => by
    cases u <;> simp [same] at h
    rw [eq_of_same h.1, eq_of_same h.2]
  | force t, u, h => by
    cases u <;> simp [same] at h
    rw [eq_of_same h]
  | delay t, u, h => by
    cases u <;> simp [same] at h
    rw [eq_of_same h]
  | con c, u, h => by
    unfold same at h
    split at h <;> simp_all
  | builtin f, u, h => by cases u <;> simp_all [same]
  | case s bs, u, h => by
    cases u <;> simp [same] at h
    rw [eq_of_same h.1, eq_of_sameAll h.2]
  | error, u, h | constr _ _, u, h | unknown _, u, h | missing, u, h => by
    cases u <;> simp [same] at h

theorem eq_of_sameAll : ∀ {ts us : List Term}, sameAll ts us = true → ts = us
  | [], us, h => by cases us <;> simp_all [sameAll]
  | t :: ts, us, h => by
    cases us <;> simp [sameAll] at h
    rw [eq_of_same h.1, eq_of_sameAll h.2]

end

end Term

namespace Machine

/-- The body of the selected branch fails, with the two values it takes. -/
theorem Breaks.opened {m : Settings} (hm : m.budget ≤ 0)
    (hw : m.version.hasConstr = true) {s body : Term} {bs : List Term} {x y : String}
    {v a b : Value} {env : Env} {n : Nat} (hs : Evaluates m.version n env s v)
    (hb : selectBranch m.version v bs = .ok (.lam x (.lam y body), [a, b]))
    (h : Breaks m ((y, b) :: (x, a) :: env) body) : Breaks m env (.case s bs) := by
  refine of_enter hm (by simp only [enter, hw, if_true]; rfl) fun stack =>
    (hs.moves hm (.scrutinee bs env :: stack)).fails ?_
  intro steps logs
  refine (Moves.one (step_back (by simp only [resume, hb]; rfl))).fails ?_
  refine (Moves.one (step_enter hm rfl)).fails ?_
  refine (Moves.one (step_back rfl)).fails ?_
  refine (Moves.one (step_enter hm rfl)).fails ?_
  exact (Moves.one (step_back rfl)).fails (h _ _ _)

end Machine

namespace Encoding

open CoreLowering.Graph
open CoreLowering.FirstOrder (availableIn_of_since)
open Machine (Settings Env HasValue Breaks Evaluates Applies)

/-! ## The terms -/

def callOf (f : Builtin) (args : List Term) : Term :=
  (Term.ofBuiltin f).applyAll args

/-- The first item of the list `l`. -/
def firstTerm (native : Bool) : Term :=
  if native then .var "h" else callOf .headList [.var "l"]

/-- The rest of the list `l`. -/
def restTerm (native : Bool) : Term :=
  if native then .var "t" else callOf .tailList [.var "l"]

/-- The two items of the pair `h` as a list. -/
def fieldsTerm : Term :=
  callOf .mkCons [callOf .fstPair [.var "h"],
    callOf .mkCons [callOf .sndPair [.var "h"], .con emptyDataList]]

/-- The first two of the fields as a pair. -/
def pairTerm : Term :=
  callOf .mkPairData [callOf .headList [.var "fields"],
    callOf .headList [callOf .tailList [.var "fields"]]]

/-- The first item, changed. -/
def itemTerm (native : Bool) : PairHelper → Term
  | .toData _ => callOf .constrData [.con (.integer 0),
      if native then fieldsTerm else .apply (.lam "h" fieldsTerm) (firstTerm false)]
  | .ofData _ => .apply (.lam "fields" pairTerm)
      (callOf .sndPair [callOf .unConstrData [firstTerm native]])

/-- The changed item in front of the changed rest. -/
def consTerm (native : Bool) (h : PairHelper) : Term :=
  callOf .mkCons [itemTerm native h, .apply (.var h.name) (restTerm native)]

/-- What the loop does with the list `l`. -/
def bodyTerm (native : Bool) (h : PairHelper) : Term :=
  if native then
    .case (.var "l") [.lam "h" (.lam "t" (consTerm native h)), .con (pairHelperEmpty h)]
  else
    .force (callOf .chooseList
      [.var "l", .delay (.con (pairHelperEmpty h)), .delay (consTerm native h)])

def helperTerm (native : Bool) (h : PairHelper) : Term :=
  link (.apply (.var fixName) (.lam h.name (.lam "l" (bodyTerm native h)))) true

/-! ## Calls -/

section Calls

variable {m : Settings} (hm : m.budget ≤ 0) (hw : m.version ≠ .unknown) {env : Env} {t u : Term}
  {v v' r : Machine.Value} {f : Builtin} (hf : f.isKnown = true ∧ f.since = .v1)
  {why : Machine.Refusal}

theorem hasValue_var {x : String} (hx : env.find? x = some v) : HasValue m.version env (.var x) v :=
  ⟨0, .var hx⟩

theorem hasValue_con (c : Constant) : HasValue m.version env (.con c) (.con c) :=
  ⟨0, .con⟩

/-- A name for a value. -/
theorem hasValue_bind {x : String} (ht : HasValue m.version env t v)
    (hu : HasValue m.version ((x, v) :: env) u r) :
    HasValue m.version env (.apply (.lam x u) t) r := by
  obtain ⟨i, ht⟩ := ht
  obtain ⟨j, hu⟩ := hu
  exact ⟨_, .apply .lam ht (.lam hu)⟩

include hw hf

theorem callOf_one (hn : f.arity = 1) (ht : HasValue m.version env t v)
    (hr : Machine.call f [v] = .ok r) : HasValue m.version env (callOf f [t]) r :=
  .call (availableIn_of_since hf.1 hf.2 hw) (.cons ht .nil) hn.symm (by simp) hr

theorem callOf_two (hn : f.arity = 2) (ht : HasValue m.version env t v)
    (hu : HasValue m.version env u v') (hr : Machine.call f [v, v'] = .ok r) :
    HasValue m.version env (callOf f [t, u]) r :=
  .call (availableIn_of_since hf.1 hf.2 hw) (.cons ht (.cons hu .nil)) hn.symm (by simp) hr

include hm

theorem callOf_refused (hn : f.arity = 1) (ht : HasValue m.version env t v)
    (hr : Machine.call f [v] = .error why) : Breaks m env (callOf f [t]) :=
  .call hm (availableIn_of_since hf.1 hf.2 hw) (.cons ht .nil) hn.symm (by simp) hr

/-- The first argument of a call fails. -/
theorem callOf_first (hn : 0 < f.arity) {args : List Term} (ht : Breaks m env t) :
    Breaks m env (callOf f (t :: args)) :=
  Breaks.operand hm (availableIn_of_since hf.1 hf.2 hw) .nil hn ht

/-- The second argument of a call fails. -/
theorem callOf_second (hn : 1 < f.arity) (ht : HasValue m.version env t v)
    (hu : Breaks m env u) : Breaks m env (callOf f [t, u]) :=
  Breaks.operand hm (availableIn_of_since hf.1 hf.2 hw) (.cons ht .nil) hn hu

end Calls

/-! ## What becomes of an item -/

/-- The packed form of a pair. -/
def packed (p : Data × Data) : Data := .constr 0 [p.1, p.2]

/-- The first two fields of data, if it has so many. -/
def firstTwo : Data → Option (Data × Data)
  | .constr _ (a :: b :: _) => some (a, b)
  | _ => none

def pairConstant (p : Data × Data) : Constant := .pairOf (.data p.1) (.data p.2)

/-- The first item of the opened list is a constant. -/
structure First (m : Settings) (env : Env) (native : Bool) (c : Constant) : Prop where
  value : HasValue m.version env (firstTerm native) (.con c)
  bound : native = true → env.find? "h" = some (.con c)

section Items

variable {m : Settings} {env : Env} {native tuple : Bool} {p : Data × Data} {d : Data}
  (hw : m.version ≠ .unknown)
include hw

theorem fieldsTerm_value (hh : env.find? "h" = some (.con (pairConstant p))) :
    HasValue m.version env fieldsTerm (.con (.dataList [p.1, p.2])) := by
  have hfst : HasValue m.version env (callOf .fstPair [.var "h"]) (.con (.data p.1)) :=
    callOf_one hw ⟨rfl, rfl⟩ rfl (hasValue_var hh) rfl
  have hsnd : HasValue m.version env (callOf .sndPair [.var "h"]) (.con (.data p.2)) :=
    callOf_one hw ⟨rfl, rfl⟩ rfl (hasValue_var hh) rfl
  have hlast := callOf_two hw (f := .mkCons) ⟨rfl, rfl⟩ rfl hsnd (hasValue_con emptyDataList) rfl
  exact callOf_two hw ⟨rfl, rfl⟩ rfl hfst hlast rfl

/-- A pair is packed. -/
theorem toData_value (hc : First m env native (pairConstant p)) :
    HasValue m.version env (itemTerm native (.toData tuple)) (.con (.data (packed p))) := by
  have hfields : HasValue m.version env
      (if native then fieldsTerm else .apply (.lam "h" fieldsTerm) (firstTerm false))
      (.con (.dataList [p.1, p.2])) := by
    cases native with
    | true => exact fieldsTerm_value hw (hc.bound rfl)
    | false => exact hasValue_bind hc.value (fieldsTerm_value hw rfl)
  exact callOf_two hw ⟨rfl, rfl⟩ rfl (hasValue_con _) hfields rfl

theorem takenTerm_value {tag : UInt64} {fields : List Data}
    (hc : First m env native (.data (.constr tag fields))) :
    HasValue m.version env (callOf .sndPair [callOf .unConstrData [firstTerm native]])
      (.con (.dataList fields)) :=
  have htaken := callOf_one hw (f := .unConstrData) ⟨rfl, rfl⟩ rfl hc.value rfl
  callOf_one hw ⟨rfl, rfl⟩ rfl htaken rfl

omit hw in
/-- The fields of the first item have a name. -/
theorem fields_value (env : Env) (fields : List Data) :
    HasValue m.version (("fields", .con (.dataList fields)) :: env) (.var "fields")
      (.con (.dataList fields)) :=
  hasValue_var rfl

/-- The first two fields become a pair. -/
theorem ofData_value (hc : First m env native (.data d)) (hd : firstTwo d = some p) :
    HasValue m.version env (itemTerm native (.ofData tuple)) (.con (pairConstant p)) := by
  unfold firstTwo at hd
  split at hd
  · next tag a b rest =>
      cases hd
      refine hasValue_bind (takenTerm_value hw hc) ?_
      have hfields := fields_value (m := m) env (a :: b :: rest)
      have hfst := callOf_one hw (f := .headList) ⟨rfl, rfl⟩ rfl hfields rfl
      have htail := callOf_one hw (f := .tailList) ⟨rfl, rfl⟩ rfl hfields rfl
      have hsnd := callOf_one hw (f := .headList) ⟨rfl, rfl⟩ rfl htail rfl
      exact callOf_two hw ⟨rfl, rfl⟩ rfl hfst hsnd rfl
  · cases hd

/-- Without two fields there is no pair. -/
theorem ofData_breaks (hm : m.budget ≤ 0) (hc : First m env native (.data d))
    (hd : firstTwo d = none) : Breaks m env (itemTerm native (.ofData tuple)) := by
  cases d with
  | constr tag fields =>
    obtain ⟨n, htaken⟩ := takenTerm_value hw hc
    refine .body hm .lam htaken ?_
    have hfields := fields_value (m := m) env fields
    rcases fields with _ | ⟨a, _ | ⟨b, rest⟩⟩
    · exact callOf_first hm hw ⟨rfl, rfl⟩ (by decide)
        (callOf_refused hm hw ⟨rfl, rfl⟩ rfl hfields rfl)
    · have hfst := callOf_one hw (f := .headList) ⟨rfl, rfl⟩ rfl hfields rfl
      have htail := callOf_one hw (f := .tailList) ⟨rfl, rfl⟩ rfl hfields rfl
      exact callOf_second hm hw ⟨rfl, rfl⟩ (by decide) hfst
        (callOf_refused hm hw ⟨rfl, rfl⟩ rfl htail rfl)
    · cases hd
  | _ =>
    refine .arg hm .lam (callOf_first hm hw ⟨rfl, rfl⟩ (by decide) ?_)
    exact callOf_refused hm hw ⟨rfl, rfl⟩ rfl hc.value rfl

end Items

/-! ## The loop -/

/-- The function of which the loop is the fixed point. -/
def loopFn (native : Bool) (h : PairHelper) : Machine.Value :=
  .lam h.name (.lam "l" (bodyTerm native h)) [(fixName, fixValue)]

/-- Where the body of the loop stands. -/
def loopEnv (native : Bool) (h : PairHelper) : Env :=
  [(h.name, again (loopFn native h)), (fixName, fixValue)]

def loop (native : Bool) (h : PairHelper) : Machine.Value :=
  .lam "l" (bodyTerm native h) (loopEnv native h)

theorem loopFn_applies (w : Version) (native : Bool) (h : PairHelper) :
    Applies w 1 (loopFn native h) (again (loopFn native h)) (loop native h) :=
  .lam .lam

theorem helperTerm_value (w : Version) (native : Bool) (h : PairHelper) :
    HasValue w [] (helperTerm native h) (loop native h) := by
  obtain ⟨k, hk⟩ := fixValue_applies (loopFn_applies w native h)
  exact ⟨_, .apply .lam .lam (.lam (.apply (.var rfl) .lam hk))⟩

theorem hasConstr_of_case (h : w.hasBuiltinCase = true) : w.hasConstr = true := by
  cases w <;> first | rfl | cases h

/-- What a helper does with items. -/
structure Changes {α β : Type} (m : Settings) (native : Bool) (h : PairHelper)
    (into : α → Constant) (out : β → Constant) (rt : ConstType) (f : α → Option β) : Prop where
  empty : pairHelperEmpty h = .list rt []
  type : ∀ b, (out b).type = rt
  value : ∀ {env a b}, First m env native (into a) → f a = some b →
    HasValue m.version env (itemTerm native h) (.con (out b))
  breaks : ∀ {env a}, First m env native (into a) → f a = none →
    Breaks m env (itemTerm native h)

section Loop

variable {m : Settings} (hw : m.version ≠ .unknown) {native : Bool}
  (hn : m.version.hasBuiltinCase = native) {h : PairHelper} {ct : ConstType} {c : Constant}
  {cs : List Constant}

/-- Where a list that is not empty is opened. -/
def opened (native : Bool) (h : PairHelper) (ct : ConstType) (c : Constant) (cs : List Constant) :
    Env :=
  (if native then [("t", .con (.list ct cs)), ("h", .con c)] else []) ++
    ("l", .con (.list ct (c :: cs))) :: loopEnv native h

include hw in
theorem opened_first : First m (opened native h ct c cs) native c := by
  cases native with
  | true => exact ⟨hasValue_var rfl, fun _ => rfl⟩
  | false => exact ⟨callOf_one hw ⟨rfl, rfl⟩ rfl (hasValue_var rfl) rfl, by simp⟩

include hw in
theorem opened_rest (native : Bool) (h : PairHelper) (ct : ConstType) (c : Constant)
    (cs : List Constant) :
    HasValue m.version (opened native h ct c cs) (restTerm native) (.con (.list ct cs)) := by
  cases native with
  | true => exact hasValue_var rfl
  | false => exact callOf_one hw ⟨rfl, rfl⟩ rfl (hasValue_var rfl) rfl

theorem opened_self : (opened native h ct c cs).find? h.name = some (again (loopFn native h)) := by
  rcases h with (_ | _) | (_ | _) <;> cases native <;> rfl

include hw

/-- The branch that builtins choose for a list. -/
theorem chosen (h : PairHelper) (ct : ConstType) (cs : List Constant) :
    HasValue m.version (("l", .con (.list ct cs)) :: loopEnv false h)
      (callOf .chooseList
        [.var "l", .delay (.con (pairHelperEmpty h)), .delay (consTerm false h)])
      (.delay (if cs.isEmpty then .con (pairHelperEmpty h) else consTerm false h)
        (("l", .con (.list ct cs)) :: loopEnv false h)) := by
  refine .call (availableIn_of_since rfl rfl hw)
    (.cons (hasValue_var rfl) (.cons ⟨0, .delay⟩ (.cons ⟨0, .delay⟩ .nil))) rfl (by simp) ?_
  cases cs <;> rfl

include hn

/-- Of an empty list the loop makes one. -/
theorem bodyTerm_nil (h : PairHelper) (ct : ConstType) :
    HasValue m.version (("l", .con (.list ct [])) :: loopEnv native h) (bodyTerm native h)
      (.con (pairHelperEmpty h)) := by
  cases native with
  | true =>
    have hselect : Machine.selectBranch m.version (.con (.list ct []))
        [.lam "h" (.lam "t" (consTerm true h)), .con (pairHelperEmpty h)] =
          .ok (.con (pairHelperEmpty h), []) := by
      simp only [Machine.selectBranch, hn]
      rfl
    exact ⟨_, .case (hasConstr_of_case hn) (.var rfl) hselect .con .nil⟩
  | false =>
    obtain ⟨n, hchosen⟩ := chosen hw h ct []
    exact ⟨_, .force hchosen (.delay .con)⟩

omit hw in
theorem select_cons {bs : List Term} {t : Term} (hnative : native = true) :
    Machine.selectBranch m.version (.con (.list ct (c :: cs))) (t :: bs) =
      .ok (t, [.con c, .con (.list ct cs)]) := by
  simp only [Machine.selectBranch, hn, hnative]
  rfl

/-- A list that is not empty is opened. -/
theorem bodyTerm_cons {r : Machine.Value}
    (hr : HasValue m.version (opened native h ct c cs) (consTerm native h) r) :
    HasValue m.version (("l", .con (.list ct (c :: cs))) :: loopEnv native h)
      (bodyTerm native h) r := by
  obtain ⟨k, hr⟩ := hr
  cases native with
  | true =>
    exact ⟨_, .case (hasConstr_of_case hn) (.var rfl) (select_cons hn rfl) .lam
      (.cons (.lam .lam) (.cons (.lam hr) .nil))⟩
  | false =>
    obtain ⟨n, hchosen⟩ := chosen hw h ct (c :: cs)
    exact ⟨_, .force hchosen (.delay hr)⟩

/-- What fails in the opened list fails. -/
theorem bodyTerm_breaks (hm : m.budget ≤ 0)
    (hr : Breaks m (opened native h ct c cs) (consTerm native h)) :
    Breaks m (("l", .con (.list ct (c :: cs))) :: loopEnv native h) (bodyTerm native h) := by
  cases native with
  | true => exact .opened hm (hasConstr_of_case hn) (.var rfl) (select_cons hn rfl) hr
  | false =>
    obtain ⟨n, hchosen⟩ := chosen hw h ct (c :: cs)
    exact .forced hm hchosen hr

variable {α β : Type} {into : α → Constant} {out : β → Constant} {rt : ConstType}
  {f : α → Option β} (hch : Changes m native h into out rt f)
include hch

omit hn in
/-- The changed item comes in front of the changed rest. -/
theorem consTerm_value {x : α} {y : β} {ys : List β} (hy : f x = some y) {n : Nat}
    (hrest : Applies m.version n (loop native h) (.con (.list ct cs))
      (.con (.list rt (ys.map out)))) :
    HasValue m.version (opened native h ct (into x) cs) (consTerm native h)
      (.con (.list rt ((y :: ys).map out))) := by
  obtain ⟨i, hrest⟩ := again_applies (loopFn_applies _ native h) hrest
  obtain ⟨j, htail⟩ := opened_rest hw native h ct (into x) cs
  have hcall : HasValue m.version (opened native h ct (into x) cs)
      (.apply (.var h.name) (restTerm native)) (.con (.list rt (ys.map out))) :=
    ⟨_, .apply (.var opened_self) htail hrest⟩
  exact callOf_two hw ⟨rfl, rfl⟩ rfl (hch.value (opened_first hw) hy) hcall
    (call_mkCons (hch.type y).symm _)

/-- **The loop maps the change over a list.** -/
theorem loop_maps {xs : List α} {ys : List β} (hxs : xs.mapM f = some ys) :
    ∃ n, Applies m.version n (loop native h) (.con (.list ct (xs.map into)))
      (.con (.list rt (ys.map out))) := by
  induction xs generalizing ys with
  | nil =>
    cases hxs
    obtain ⟨n, hnil⟩ := bodyTerm_nil hw hn h ct
    rw [hch.empty] at hnil
    exact ⟨_, .lam hnil⟩
  | cons x xs ih =>
    rw [List.mapM_cons] at hxs
    obtain ⟨y, hy, ys, hys, rfl⟩ : ∃ y, f x = some y ∧ ∃ ys', xs.mapM f = some ys' ∧
        y :: ys' = ys := by
      simpa [Option.bind_eq_some_iff] using hxs
    obtain ⟨n, hrest⟩ := ih hys
    obtain ⟨k, hcons⟩ := bodyTerm_cons hw hn (consTerm_value hw hch hy hrest)
    exact ⟨_, .lam hcons⟩

omit hn hch in
/-- The call on the rest fails if the body does. -/
theorem rest_breaks (hm : m.budget ≤ 0)
    (hb : Breaks m (("l", .con (.list ct cs)) :: loopEnv native h) (bodyTerm native h)) :
    Breaks m (opened native h ct c cs) (.apply (.var h.name) (restTerm native)) := by
  obtain ⟨j, htail⟩ := opened_rest hw native h ct c cs
  refine .body hm (.var opened_self) htail ?_
  exact .body hm (.apply (.var rfl) (.var rfl) (half_applies (loopFn_applies _ native h)))
    (.var rfl) hb

/-- The loop fails if one of the items cannot be changed. -/
theorem loop_breaks (hm : m.budget ≤ 0) {xs : List α} (hxs : xs.mapM f = none) :
    Breaks m (("l", .con (.list ct (xs.map into))) :: loopEnv native h) (bodyTerm native h) := by
  induction xs with
  | nil => cases hxs
  | cons x xs ih =>
    refine bodyTerm_breaks hw hn hm ?_
    have hfirst : First m (opened native h ct (into x) (xs.map into)) native (into x) :=
      opened_first hw
    cases hx : f x with
    | none => exact callOf_first hm hw ⟨rfl, rfl⟩ (by decide) (hch.breaks hfirst hx)
    | some y =>
      have hrest : xs.mapM f = none := by
        rw [List.mapM_cons, hx] at hxs
        exact Option.eq_none_iff_forall_ne_some.2 (by simpa using hxs)
      exact callOf_second hm hw ⟨rfl, rfl⟩ (by decide) (hch.value hfirst hx)
        (rest_breaks hw hm (ih hrest))

/-- A helper maps the change over the list that its argument is. -/
theorem helperTerm_maps {xs : List α} {ys : List β} (hxs : xs.mapM f = some ys) {t : Term}
    (ht : HasValue m.version [] t (.con (.list ct (xs.map into)))) :
    HasValue m.version [] (.apply (helperTerm native h) t) (.con (.list rt (ys.map out))) := by
  obtain ⟨i, hloop⟩ := helperTerm_value m.version native h
  obtain ⟨j, ht⟩ := ht
  obtain ⟨k, hmaps⟩ := loop_maps hw hn hch hxs
  exact ⟨_, .apply hloop ht hmaps⟩

theorem helperTerm_breaks (hm : m.budget ≤ 0) {xs : List α} (hxs : xs.mapM f = none) :
    Breaks m [] (.apply (helperTerm native h) (.con (.list ct (xs.map into)))) := by
  obtain ⟨i, hloop⟩ := helperTerm_value m.version native h
  exact .body hm hloop .con (loop_breaks hw hn hch hm hxs)

end Loop

/-! ## The helpers -/

section Helpers

variable {m : Settings} (hm : m.budget ≤ 0) (hw : m.version ≠ .unknown) (native tuple : Bool)
include hw

theorem toData_changes : Changes m native (.toData tuple) pairConstant .data .data
    (fun p => some (packed p)) where
  empty := rfl
  type _ := rfl
  value hc hd := by
    cases hd
    exact toData_value hw hc
  breaks _ hd := by cases hd

include hm in
theorem ofData_changes : Changes m native (.ofData tuple) .data pairConstant .dataPair
    firstTwo where
  empty := rfl
  type _ := rfl
  value hc hd := ofData_value hw hc hd
  breaks hc hd := ofData_breaks hw hm hc hd

omit hw in
theorem mapM_packed (ps : List (Data × Data)) :
    ps.mapM (fun p => some (packed p)) = some (ps.map packed) := by
  induction ps with
  | nil => rfl
  | cons p ps ih =>
    rw [List.mapM_cons, ih]
    rfl

omit hw in
theorem mapM_firstTwo_packed (ps : List (Data × Data)) :
    (ps.map packed).mapM firstTwo = some ps := by
  induction ps with
  | nil => rfl
  | cons p ps ih =>
    rw [List.map_cons, List.mapM_cons, ih]
    rfl

theorem pack_value (ps : List (Data × Data)) :
    HasValue m.version []
      (.apply (helperTerm m.version.hasBuiltinCase (.toData tuple)) (.con (.dataPairList ps)))
      (.con (.dataList (ps.map packed))) :=
  helperTerm_maps hw rfl (toData_changes hw _ tuple) (mapM_packed ps) (hasValue_con _)

include hm

theorem unpack_value {xs : List Data} {ps : List (Data × Data)} (hxs : xs.mapM firstTwo = some ps)
    {t : Term} (ht : HasValue m.version [] t (.con (.dataList xs))) :
    HasValue m.version [] (.apply (helperTerm m.version.hasBuiltinCase (.ofData tuple)) t)
      (.con (.dataPairList ps)) :=
  helperTerm_maps hw rfl (ofData_changes hm hw _ tuple) hxs ht

theorem unpack_breaks {xs : List Data} (hxs : xs.mapM firstTwo = none) :
    Breaks m [] (.apply (helperTerm m.version.hasBuiltinCase (.ofData tuple))
      (.con (.dataList xs))) :=
  helperTerm_breaks hw rfl (ofData_changes hm hw _ tuple) hm hxs

end Helpers

/-! ## Emission -/

/-- The version for which the helpers are computed. -/
def base (native : Bool) : Version := if native then .v4 else .v1

theorem base_rank (hw : w ≠ .unknown) : (base w.hasBuiltinCase).rank ≤ w.rank := by
  cases w with
  | unknown => exact absurd rfl hw
  | _ => decide

/-- Whether a helper is emitted as the term. -/
def isEmitted (native : Bool) (h : PairHelper) : Bool :=
  match ((linkedHelper h).run (State.new (base native) ⟨[]⟩ false)).1 with
  | .ok t => t.same (helperTerm native h)
  | .error _ => false

theorem isEmitted_all : ∀ native tuple : Bool, isEmitted native (.toData tuple) = true ∧
    isEmitted native (.ofData tuple) = true := by
  decide +kernel

theorem linkedHelper_base (native : Bool) (h : PairHelper) :
    ∃ s, (linkedHelper h).run (State.new (base native) ⟨[]⟩ false) =
      (.ok (helperTerm native h), s) := by
  have hemitted : isEmitted native h = true := by
    cases h with
    | toData tuple => exact (isEmitted_all native tuple).1
    | ofData tuple => exact (isEmitted_all native tuple).2
  unfold isEmitted at hemitted
  rcases hrun : (linkedHelper h).run (State.new (base native) ⟨[]⟩ false) with
    ⟨_ | t, s⟩
  · rw [hrun] at hemitted
    cases hemitted
  · rw [hrun] at hemitted
    exact ⟨s, by rw [Term.eq_of_same hemitted]⟩

theorem linkedHelper_alike {κ : Coupling} (h : PairHelper) :
    Alike κ (Likened κ) (linkedHelper h) (linkedHelper h) :=
  pairHelper_steady.bindAlike fun _ => emit_alike.bind fun _ _ ht =>
    .get_bind (fun _ _ _ => rfl) (fun _ _ _ => rfl) fun s => .pure (ht.link s.usesFix)

/-- In every setting a helper is the same term, but for messages. -/
theorem linkedHelper_run (hw : w ≠ .unknown) (ds : Decls) (debug : Bool) (h : PairHelper) :
    ∃ t s, (linkedHelper h).run (State.new w ds debug) = (.ok t, s) ∧
      t.hushed = (helperTerm w.hasBuiltinCase h).hushed := by
  let κ : Coupling := {
    left := ⟨⟨[]⟩, base w.hasBuiltinCase, false⟩
    right := ⟨ds, w, debug⟩
    native := by cases w <;> rfl
    available := fun f => Builtin.availableIn_later (base_rank hw) }
  let start := State.new (base w.hasBuiltinCase) ⟨[]⟩ false
  have hmeets := linkedHelper_alike (κ := κ) h _ _ (.mk start [] [])
  have hleft : start.under κ.left [] = start := by
    cases w <;> rfl
  have hright : start.under κ.right [] = State.new w ds debug := by
    cases w with
    | unknown => exact absurd rfl hw
    | _ => rfl
  obtain ⟨s, hbase⟩ := linkedHelper_base w.hasBuiltinCase h
  rw [hleft, hright, hbase] at hmeets
  rcases hrun : (linkedHelper h).run (State.new w ds debug) with ⟨r, s'⟩
  rw [hrun] at hmeets
  cases hmeets with
  | ok hlike => exact ⟨_, s', rfl, hlike.hushed.symm⟩

/-- **The helpers map what they stand for over lists.**  In every setting the
one packs the pairs of a list in their order; the other takes the first two
fields of every item, and fails if an item has not got them.  The second undoes
the first. -/
theorem linkedHelper_maps {w : Version} (hw : w ≠ .unknown) (ds : Decls) (debug tuple : Bool) :
    ∃ pack unpack s s',
      (linkedHelper (.toData tuple)).run (State.new w ds debug) = (.ok pack, s) ∧
      (linkedHelper (.ofData tuple)).run (State.new w ds debug) = (.ok unpack, s') ∧
      ∀ m : Settings, m.version = w → m.budget ≤ 0 →
        (∀ ps, Machine.Ends m (.apply pack (.con (.dataPairList ps)))
          (.ok (.con (.dataList (ps.map packed))))) ∧
        (∀ xs ps, xs.mapM firstTwo = some ps →
          Machine.Ends m (.apply unpack (.con (.dataList xs))) (.ok (.con (.dataPairList ps)))) ∧
        (∀ xs, xs.mapM firstTwo = none →
          ∃ why, Machine.Ends m (.apply unpack (.con (.dataList xs))) (.error (.failure why))) ∧
        ∀ ps, Machine.Ends m (.apply unpack (.apply pack (.con (.dataPairList ps))))
          (.ok (.con (.dataPairList ps))) := by
  obtain ⟨pack, s, hpack, hpack'⟩ := linkedHelper_run hw ds debug (.toData tuple)
  obtain ⟨unpack, s', hunpack, hunpack'⟩ := linkedHelper_run hw ds debug (.ofData tuple)
  refine ⟨pack, unpack, s, s', hpack, hunpack, ?_⟩
  rintro m rfl hm
  -- messages aside, the terms are those of which the values are known
  have hends : ∀ {t t' : Term} {c : Constant}, t.hushed = t'.hushed →
      HasValue m.version [] t' (.con c) → Machine.Ends m t (.ok (.con c)) := by
    rintro t t' c ht ⟨n, hv⟩
    exact (Machine.ends_con_iff_of_hushed_eq hm ht c).2 (hv.ends hm)
  have happly : ∀ {f f' t t' : Term}, f.hushed = f'.hushed → t.hushed = t'.hushed →
      (Term.apply f t).hushed = (Term.apply f' t').hushed := by
    intro f f' t t' hf ht
    rw [Term.hushed, Term.hushed, hf, ht]
  refine ⟨fun ps => ?_, fun xs ps hxs => ?_, fun xs hxs => ?_, fun ps => ?_⟩
  · exact hends (happly hpack' rfl) (pack_value hw tuple ps)
  · exact hends (happly hunpack' rfl) (unpack_value hm hw tuple hxs (hasValue_con _))
  · have hfails := (Machine.fails_iff_of_hushed_eq hm (happly hunpack' rfl)).2
      (unpack_breaks hm hw tuple hxs [] 0 [])
    obtain ⟨fuel, run, why, hrun, hresult⟩ := hfails
    exact ⟨why, fuel, run, hrun, hresult⟩
  · exact hends (happly hunpack' (happly hpack' rfl))
      (unpack_value hm hw tuple (mapM_firstTwo_packed ps) (pack_value hw tuple ps))

/-- The helpers of the last version, on a pair and on data with too few
fields. -/
theorem linkedHelper_maps_native :
    ∃ pack unpack s s',
      (linkedHelper (.toData true)).run (State.new .v4 ⟨[]⟩ true) = (.ok pack, s) ∧
      (linkedHelper (.ofData true)).run (State.new .v4 ⟨[]⟩ true) = (.ok unpack, s') ∧
      Machine.Ends ⟨.v4, 0⟩ (.apply pack (.con (.dataPairList [(.int 1, .bytes [])])))
        (.ok (.con (.dataList [.constr 0 [.int 1, .bytes []]]))) ∧
      ∃ why, Machine.Ends ⟨.v4, 0⟩
        (.apply unpack (.con (.dataList [.constr 7 [.int 1, .int 2, .int 3], .constr 0 [.int 1]])))
        (.error (.failure why)) := by
  obtain ⟨pack, unpack, s, s', hpack, hunpack, hmaps⟩ :=
    linkedHelper_maps (w := .v4) (by decide) ⟨[]⟩ true true
  obtain ⟨hpacks, -, hfails, -⟩ := hmaps ⟨.v4, 0⟩ rfl (by decide)
  exact ⟨pack, unpack, s, s', hpack, hunpack, hpacks _, hfails _ rfl⟩

end Encoding

end CoreLowering
