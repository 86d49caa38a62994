import CoreLowering.Proofs.Encoding.Emitting
import CoreLowering.Proofs.Machine.Calls

/-!
# Evaluation of tidy values

Where the variables around a tidy value have their values in the environment,
the machine evaluates its term to what the value denotes.  A helper is
evaluated to a function; what this function gives is shown for calls of
growing height, since it calls itself with the rest of its list.

Main statement: `Tidy.hasValue`.
-/

namespace CoreLowering.Encoding

open CoreLowering.Graph
open Machine (Env HasValue Applies AppliesAll Evaluates)

variable {w : Version} {g : State} {H h k id : Nat} {Δ : List ValueId} {ρ : Given} {bound : Bound}
  {env : Env} {v : Sense} {f : Loop} {ys : List ValueId} {y : Nat} {F mv : Machine.Value}
  {name : ValueId → String} {ps : Given} {r x i : Nat} {n : Node} {sh : Shape} {cs : List Constant}
  {f' : Loop} {ys' xs : List ValueId} {binders : List (List ValueId)} {P : Machine.Value → Prop}

/-! ## The fixed-point combinator -/

/-- The value of the fixed-point combinator. -/
def fixValue : Machine.Value := .lam "f" (.apply fixHalf fixHalf) []

/-- What the combinator applies to itself. -/
def half (F : Machine.Value) : Machine.Value :=
  .lam "x" (.apply (.var "f") (.lam "v" (.applyAll (.var "x") [.var "x", .var "v"]))) [("f", F)]

/-- What a recursive function is given for itself. -/
def again (F : Machine.Value) : Machine.Value :=
  .lam "v" (.applyAll (.var "x") [.var "x", .var "v"]) [("x", half F), ("f", F)]

theorem half_applies {r : Machine.Value} {n : Nat} (hF : Applies w n F (again F) r) :
    Applies w (n + 1) (half F) (half F) r := by
  have hbody : Evaluates w (0 + 0 + n) [("x", half F), ("f", F)] (.apply (.var "f")
      (.lam "v" (.applyAll (.var "x") [.var "x", .var "v"]))) r := .apply (.var rfl) .lam hF
  rw [Nat.zero_add] at hbody
  exact .lam hbody

theorem fixValue_applies {r : Machine.Value} {n : Nat} (hF : Applies w n F (again F) r) :
    ∃ k, Applies w k fixValue F r :=
  ⟨_, .lam (.apply .lam .lam (half_applies hF))⟩

theorem again_applies {L a r : Machine.Value} {n : Nat} (hF : Applies w n F (again F) L)
    (hL : Applies w k L a r) : ∃ j, Applies w j (again F) a r :=
  ⟨_, .lam (.apply (.apply (.var rfl) (.var rfl) (half_applies hF)) (.var rfl) hL)⟩

/-! ## What machine values stand for -/

/-- The machine's value does what the sense says, in calls of height below
`H`. -/
def Realizes (w : Version) (g : State) (H : Nat) : Sense → Machine.Value → Prop
  | .con c, mv => mv = .con c
  | .fn f, mv => ∀ k < H, ∀ c c', Denotes g k [(f.param, c)] f.body (.con c') →
      ∃ n, Applies w n mv (.con c) (.con c')

theorem Realizes.anti (hr : Realizes w g H v mv) (hk : k ≤ H) : Realizes w g k v mv := by
  cases v with
  | con c => exact hr
  | fn f => exact fun j hj => hr j (by omega)

/-- The environment supplies what is bound around a value.  Of a helper no
variable is bound without the variable that stands for it, and of what is bound
around a value that is built from nothing, all has a definition. -/
structure Ready (w : Version) (g : State) (H : Nat) (Δ : List ValueId) (ρ : Given) (bound : Bound)
    (env : Env) : Prop where
  within : Δ ⊆ bound
  supplies : ∀ x : Nat, x ∈ bound → ∃ n k v mv, g.node? x = some n ∧ n.isIdentifiable = true ∧
    Denotes g k ρ x v ∧ env.find? n.name = some mv ∧ Realizes w g H v mv
  given : ∀ x c, ρ.lookup x = some c → x ∈ bound
  locals : ∀ f ys, Helper g f ys → ∀ y : Nat, y ∈ ys ++ [f.param] → y ∈ bound → f.self ∈ bound
  closed : Δ = [] → ∀ x : Nat, x ∈ bound → ¬Blank g x

/-- More constants may be given, after the others. -/
theorem Denotes.append (hd : Denotes g h ρ id v) (ρ' : Given) : Denotes g h (ρ ++ ρ') id v := by
  refine hd.weaken fun x c hx => ?_
  rw [List.lookup_append, hx, Option.some_or]

theorem Ready.anti (hr : Ready w g H Δ ρ bound env) (hk : k ≤ H) :
    Ready w g k Δ ρ bound env where
  within := hr.within
  supplies x hx := by
    obtain ⟨n, j, v, mv, hn, hid, hd, hf, hv⟩ := hr.supplies x hx
    exact ⟨n, j, v, mv, hn, hid, hd, hf, hv.anti hk⟩
  given := hr.given
  locals := hr.locals
  closed := hr.closed

theorem not_blank_of_rhs (hn : g.node? x = some n) (hr : n.rhs? = some r) : ¬Blank g x := by
  rintro ⟨y, hy⟩
  rw [hn] at hy
  cases hy
  cases hr

theorem Helper.blank (hf : Helper g f ys) (hy : y ∈ ys ++ [f.param]) : Blank g y := by
  rcases List.mem_append.1 hy with hy | hy
  · obtain ⟨-, -, -, hblank, -⟩ := hf
    exact hblank y hy
  · rw [List.mem_singleton.1 hy]
    exact hf.loop.param

/-- A variable is bound to the value of its definition. -/
theorem Ready.bind (hr : Ready w g H Δ ρ bound env) (hg : Named g) (hn : g.node? x = some n)
    (hrhs : n.rhs? = some r) (hd : Denotes g k ρ x v) (hv : Realizes w g H v mv) :
    Ready w g H Δ ρ (x :: bound) ((n.name, mv) :: env) where
  within := fun y hy => List.mem_cons_of_mem _ (hr.within hy)
  supplies y hy := by
    have hid : n.isIdentifiable = true := by
      cases n <;> first | rfl | cases hrhs
    have hx : ∃ n' k v mv', g.node? x = some n' ∧ n'.isIdentifiable = true ∧ Denotes g k ρ x v ∧
        Env.find? ((n.name, mv) :: env) n'.name = some mv' ∧ Realizes w g H v mv' :=
      ⟨n, k, v, mv, hn, hid, hd, by simp [Env.find?], hv⟩
    rcases List.mem_cons.1 hy with rfl | hy
    · exact hx
    · obtain ⟨m, j, u, mu, hm, hmid, hu, hf, hmu⟩ := hr.supplies y hy
      by_cases hname : n.name = m.name
      · rw [hg.inj x y n m hn hm hid hmid hname] at hx
        exact hx
      · exact ⟨m, j, u, mu, hm, hmid, hu, by rw [Env.find?, if_neg hname, hf], hmu⟩
  given y c hy := List.mem_cons_of_mem _ (hr.given y c hy)
  locals f ys hf y hy hb := by
    rcases List.mem_cons.1 hb with rfl | hb
    · exact absurd (hf.blank hy) (not_blank_of_rhs hn hrhs)
    · exact List.mem_cons_of_mem _ (hr.locals f ys hf y hy hb)
  closed hΔ y hy := by
    rcases List.mem_cons.1 hy with rfl | hy
    · exact not_blank_of_rhs hn hrhs
    · exact hr.closed hΔ y hy

/-- The environment in which variables have been given constants, one after
the other. -/
def bindAll (name : ValueId → String) : Given → Env → Env
  | [], env => env
  | (y, c) :: ps, env => bindAll name ps ((name y, .con c) :: env)

theorem find?_bindAll_of_ne {x : String} (hx : ∀ p ∈ ps, name p.1 ≠ x) :
    Env.find? (bindAll name ps env) x = Env.find? env x := by
  induction ps generalizing env with
  | nil => rfl
  | cons p ps ih =>
    rw [List.forall_mem_cons] at hx
    rw [bindAll, ih hx.2, Env.find?, if_neg hx.1]

theorem find?_bindAll_of_lookup {y : ValueId} {c : Constant}
    (hinj : (ps.map fun p => name p.1).Nodup) (hy : ps.lookup y = some c) :
    Env.find? (bindAll name ps env) (name y) = some (.con c) := by
  induction ps generalizing env with
  | nil => cases hy
  | cons p ps ih =>
    rw [List.map_cons, List.nodup_cons] at hinj
    rw [List.lookup_cons] at hy
    split at hy
    · rename_i heq
      cases hy
      rw [beq_iff_eq] at heq
      subst heq
      rw [bindAll, find?_bindAll_of_ne fun q hq heq => hinj.1 (List.mem_map.2 ⟨q, hq, heq⟩),
        Env.find?, if_pos rfl]
    · exact ih hinj.2 hy

theorem exists_lookup_of_mem {y : ValueId} (hy : y ∈ ps.map Prod.fst) :
    ∃ c, ps.lookup y = some c := by
  obtain ⟨p, hp, rfl⟩ := List.mem_map.1 hy
  exact Option.isSome_iff_exists.1 (List.lookup_isSome_iff.2 ⟨p, hp, by simp⟩)

/-- Variables without definitions are given constants. -/
theorem Ready.enter (hr : Ready w g H Δ ρ bound env) (hg : Named g) (ps : Given)
    (inside : List ValueId) (hnodup : (ps.map Prod.fst).Nodup)
    (hblank : ∀ p ∈ ps, Blank g p.1) (hout : ∀ p ∈ ps, p.1 ∉ bound)
    (hlocals : ∀ f ys, Helper g f ys → ∀ p ∈ ps, p.1 ∈ ys ++ [f.param] → f.self ∈ bound)
    (hin : inside ⊆ ps.map Prod.fst ++ bound) (hnil : inside = [] → ps = [] ∧ Δ = []) :
    Ready w g H inside (ps ++ ρ) (ps.map Prod.fst ++ bound) (bindAll g.nameOf ps env) where
  within := hin
  supplies x hx := by
    have hname : ∀ p ∈ ps, ∃ m, g.node? p.1 = some m ∧ m.isIdentifiable = true ∧
        g.nameOf p.1 = m.name := by
      intro p hp
      obtain ⟨y, hy⟩ := hblank p hp
      exact ⟨_, hy, rfl, nameOf_eq hy⟩
    by_cases hmem : x ∈ ps.map Prod.fst
    · obtain ⟨c, hc⟩ := exists_lookup_of_mem hmem
      obtain ⟨y, hy⟩ := hblank _ (mem_of_lookup hc)
      refine ⟨_, 1, .con c, .con c, hy, rfl, .mk hy (.given ?_), ?_, rfl⟩
      · rw [List.lookup_append, hc, Option.some_or]
      · rw [← nameOf_eq hy]
        refine find?_bindAll_of_lookup ?_ hc
        rw [show (ps.map fun p => g.nameOf p.1) = (ps.map Prod.fst).map g.nameOf by simp]
        refine List.Nodup.map_on ?_ hnodup
        intro a ha b hb heq
        obtain ⟨p, hp, rfl⟩ := List.mem_map.1 ha
        obtain ⟨q, hq, rfl⟩ := List.mem_map.1 hb
        obtain ⟨m, hm, hid, hmn⟩ := hname p hp
        obtain ⟨m', hm', hid', hmn'⟩ := hname q hq
        exact hg.inj _ _ m m' hm hm' hid hid' (by rw [← hmn, ← hmn', heq])
    · have hx : x ∈ bound := (List.mem_append.1 hx).resolve_left hmem
      obtain ⟨n, k, v, mv, hn, hid, hd, hf, hv⟩ := hr.supplies x hx
      refine ⟨n, k, v, mv, hn, hid, hd.weaken fun y c hy => ?_, ?_, hv⟩
      · rw [List.lookup_append, Option.or_eq_some_iff]
        refine .inr ⟨?_, hy⟩
        cases hl : ps.lookup y with
        | none => rfl
        | some c' => exact absurd (hr.given y c hy) (hout _ (mem_of_lookup hl))
      · rw [find?_bindAll_of_ne, hf]
        intro p hp heq
        obtain ⟨m, hm, hmid, hmn⟩ := hname p hp
        have := hg.inj _ _ m n hm hn hmid hid (by rw [← hmn, heq])
        exact hmem (List.mem_map.2 ⟨p, hp, this⟩)
  given x c hx := by
    rw [List.lookup_append, Option.or_eq_some_iff] at hx
    rcases hx with hx | ⟨-, hx⟩
    · exact List.mem_append_left _ (List.mem_map.2 ⟨_, mem_of_lookup hx, rfl⟩)
    · exact List.mem_append_right _ (hr.given x c hx)
  locals f ys hf y hy hb := by
    rcases List.mem_append.1 hb with hb | hb
    · obtain ⟨p, hp, rfl⟩ := List.mem_map.1 hb
      exact List.mem_append_right _ (hlocals f ys hf p hp hy)
    · exact List.mem_append_right _ (hr.locals f ys hf y hy hb)
  closed hΔ x hx := by
    obtain ⟨rfl, hΔ'⟩ := hnil hΔ
    exact hr.closed hΔ' x hx

/-! ## Terms of cases -/

theorem selectBranch_of_branch? {c : Constant} {ts : List Term} {t : Term}
    (hw : w.hasBuiltinCase = true) (hb : branch? sh c = some (i, cs)) (ht : ts[i]? = some t) :
    Machine.selectBranch w (.con c) ts = .ok (t, cs.map .con) := by
  have hlt : i < ts.length := (List.getElem?_eq_some_iff.1 ht).1
  unfold branch? at hb
  split at hb
  · rename_i b
    cases b <;> cases hb <;> simp_all [Machine.selectBranch, Machine.branchAt]
  · rename_i n
    split at hb
    · cases hb
      have : ¬(n < 0 ∨ n ≥ ts.length) := by omega
      simp only [Machine.selectBranch, hw, Bool.not_true, Bool.false_eq_true, if_false, if_neg this,
        Machine.branchAt, ht, List.map_nil]
    · cases hb
  · cases hb
    simp [Machine.selectBranch, hw, Machine.branchAt, ht]
  · cases hb
    simp [Machine.selectBranch, hw, Machine.branchAt, ht]
  · cases hb
    simp [Machine.selectBranch, hw, Machine.branchAt, ht, Machine.integer]
  · cases hb

/-- A function of several variables, applied to constants. -/
theorem lams_hasValue {t : Term} (hl : ys.length = cs.length)
    (ht : HasValue w (bindAll name (ys.zip cs) env) t mv) :
    ∃ f, HasValue w env ((ys.map name).foldr .lam t) f ∧
      ∃ n, AppliesAll w n f (cs.map .con) mv := by
  induction ys generalizing cs env with
  | nil =>
    obtain rfl : cs = [] := List.length_eq_zero_iff.1 hl.symm
    exact ⟨mv, ht, 0, .nil⟩
  | cons y ys ih =>
    cases cs with
    | nil => cases hl
    | cons c cs =>
      obtain ⟨f, ⟨i, hf⟩, n, ha⟩ := ih (Nat.succ.inj hl) ht
      exact ⟨_, ⟨0, .lam⟩, _, .cons (.lam hf) ha⟩

section

variable {here : ValueId → List ValueId → Prop} {bs : List ValueId} {ts : List Marked} {b : ValueId}
  {c : Constant} {t : Marked}

theorem emitsBranches_at (he : EmitsBranches g here bound bs binders ts) (hb : bs[i]? = some b) :
    ∃ u, ts[i]? = some (.lams ((binders[i]?).getD []) u) ∧
      Emits g here ((binders[i]?).getD [] ++ bound) b u := by
  induction bs generalizing binders ts i with
  | nil => simp at hb
  | cons x bs ih =>
    cases he with
    | @cons _ _ _ _ t ts hx hrest =>
      cases i with
      | zero =>
        cases hb
        have : (binders[0]?).getD [] = binders.head?.getD [] := by cases binders <;> rfl
        rw [this]
        exact ⟨t, rfl, hx⟩
      | succ i =>
        have : (binders[i + 1]?).getD [] = (binders.tail[i]?).getD [] := by
          cases binders <;> rfl
        rw [this]
        exact ih hrest hb

/-- A native case on a constant. -/
theorem case_hasValue {c : Constant} {t : Marked} (hw : w.hasBuiltinCase = true)
    (hs : HasValue w env (t.erase g.nameOf) (.con c))
    (he : EmitsBranches g here bound bs binders ts) (hbr : branch? sh c = some (i, cs))
    (hb : bs[i]? = some b) (hys : (binders[i]?).getD [] = ys) (hl : ys.length = cs.length)
    (hv : ∀ u : Marked, Emits g here (ys ++ bound) b u →
      (u.usesFix = true → Marked.usesFixAny ts = true) →
      ∃ mv, HasValue w (bindAll g.nameOf (ys.zip cs) env) (u.erase g.nameOf) mv ∧ P mv) :
    ∃ mv, HasValue w env ((Marked.case t ts).erase g.nameOf) mv ∧ P mv := by
  have hconstr : w.hasConstr = true := by
    simp only [Version.hasBuiltinCase, Version.hasConstr, decide_eq_true_eq] at hw ⊢
    omega
  obtain ⟨u, hu, hemits⟩ := emitsBranches_at he hb
  rw [hys] at hu hemits
  have hfix : u.usesFix = true → Marked.usesFixAny ts = true := by
    intro h
    rw [Marked.usesFixAny_eq, List.any_eq_true]
    exact ⟨_, List.mem_of_getElem? hu, by rw [Marked.usesFix_lams, h]⟩
  obtain ⟨mv, hmv, hP⟩ := hv u hemits hfix
  obtain ⟨f, ⟨j, hf⟩, n, ha⟩ := lams_hasValue hl hmv
  obtain ⟨m, hs⟩ := hs
  rw [Marked.erase, Marked.eraseAll_eq_map]
  rw [← Marked.erase_lams] at hf
  refine ⟨mv, ⟨_, .case hconstr hs (selectBranch_of_branch? hw hbr ?_) hf ha⟩, hP⟩
  rw [List.getElem?_map, hu, Option.map_some]

theorem usesFix_choice (f : Builtin) (t : Marked) (ts : List Marked) :
    (Marked.force (.applyAll (.leaf (.ofBuiltin f)) (t :: ts.map .delay))).usesFix =
      (t.usesFix || ts.any Marked.usesFix) := by
  rw [Marked.usesFix, Marked.usesFix_applyAll, List.any_cons, List.any_map]
  rfl

/-- A choice by a builtin, between terms that are held back. -/
theorem choice_hasValue {c : Constant} {order : List ValueId} {f : Builtin} {t : Marked}
    (hw : w ≠ .unknown) (hs : HasValue w env (t.erase g.nameOf) (.con c))
    (hch : chooser? sh bs = some (f, order)) (he : EmitsAll g here bound order ts)
    (hb : chosen? sh c bs = some b) (hv : ∀ u : Marked, u ∈ ts → Emits g here bound b u →
      ∃ mv, HasValue w env (u.erase g.nameOf) mv ∧ P mv) :
    ∃ mv, HasValue w env ((Marked.force (.applyAll (.leaf (.ofBuiltin f))
      (t :: ts.map .delay))).erase g.nameOf) mv ∧ P mv := by
  -- of two terms that are held back the builtin gives one, which is set free
  have forced : ∀ {f : Builtin} {t1 t2 u : Marked}, f.availableIn w = true → f.arity = 3 →
      Machine.call f [.con c, .delay (t1.erase g.nameOf) env, .delay (t2.erase g.nameOf) env] =
        .ok (.delay (u.erase g.nameOf) env) →
      (∃ mv, HasValue w env (u.erase g.nameOf) mv ∧ P mv) →
      ∃ mv, HasValue w env ((Marked.force (.applyAll (.leaf (.ofBuiltin f))
        [t, .delay t1, .delay t2])).erase g.nameOf) mv ∧ P mv := by
    rintro f t1 t2 u hf ha hcall ⟨mv, hu, hP⟩
    obtain ⟨i, hd⟩ := HasValue.call hf (.cons hs (.cons ⟨0, .delay⟩ (.cons ⟨0, .delay⟩ .nil)))
      (by simp [ha]) (by simp) hcall
    obtain ⟨j, hu⟩ := hu
    exact ⟨mv, ⟨_, .force hd (.delay hu)⟩, hP⟩
  unfold chosen? at hb
  split at hb
  · rename_i b no yes
    cases hch
    cases he with
    | @cons _ _ _ t1 _ h1 he =>
      cases he with
      | @cons _ _ _ t2 _ h2 he =>
        cases he
        cases b with
        | true =>
          cases hb
          exact forced (FirstOrder.availableIn_of_since rfl rfl hw) rfl rfl
            (hv t1 (by simp) h1)
        | false =>
          cases hb
          exact forced (FirstOrder.availableIn_of_since rfl rfl hw) rfl rfl
            (hv t2 (by simp) h2)
  · rename_i e xs cons nil
    cases hch
    cases he with
    | @cons _ _ _ t1 _ h1 he =>
      cases he with
      | @cons _ _ _ t2 _ h2 he =>
        cases he
        cases xs with
        | nil =>
          cases hb
          exact forced (FirstOrder.availableIn_of_since rfl rfl hw) rfl rfl
            (hv t1 (by simp) h1)
        | cons x xs =>
          cases hb
          exact forced (FirstOrder.availableIn_of_since rfl rfl hw) rfl rfl
            (hv t2 (by simp) h2)
  · cases hb

end

/-! ## Helpers -/

/-- The combinator is there for a term that uses it. -/
def Linked (env : Env) (t : Marked) : Prop :=
  t.usesFix = true → Env.find? env fixName = some fixValue

/-- The parts of a term with the combinator. -/
theorem Linked.of_usesFix {t u : Marked} (h : Linked env t)
    (hu : u.usesFix = true → t.usesFix = true) : Linked env u :=
  fun hfix => h (hu hfix)

/-- No variable has the name of the combinator. -/
theorem Linked.cons {t : Marked} (h : Linked env t) (hg : Named g) (hn : g.node? x = some n)
    (hid : n.isIdentifiable = true) (mv : Machine.Value) : Linked ((n.name, mv) :: env) t := by
  intro ht
  rw [Env.find?, if_neg (hg.ne_fix x n hn hid), h ht]

theorem Linked.bindAll {t : Marked} (h : Linked env t) (hg : Named g)
    (hblank : ∀ p ∈ ps, Blank g p.1) : Linked (bindAll g.nameOf ps env) t := by
  intro ht
  rw [find?_bindAll_of_ne, h ht]
  intro p hp
  obtain ⟨y, hy⟩ := hblank p hp
  rw [nameOf_eq hy]
  exact hg.ne_fix _ _ hy rfl

/-- The terms of tidy values that denote something have its value. -/
def Sound (w : Version) (g : State) (H h : Nat) : Prop :=
  ∀ {Δ id bound t ρ v env}, Tidy g Δ id → Emits g (Placed g (Certain g)) bound id t →
    Denotes g h ρ id v → Ready w g H Δ ρ bound env → Linked env t →
    ∃ mv, HasValue w env (t.erase g.nameOf) mv ∧ Realizes w g H v mv

/-- The variables that a helper binds to the parts of its list. -/
theorem Helper.body_of_mem (hf : Helper g f ys) (hy : y ∈ ys) : ∃ bs owned, g.node? f.body =
      some (.caseOf .list true f.param bs owned [ys, []]) := by
  obtain ⟨-, hbody, hys, -⟩ := hf
  rcases hys with ⟨rfl, rfl⟩ | ⟨-, -, rfl⟩
  · exact ⟨_, _, hbody⟩
  · cases hy

/-- What a helper binds to the parts of its list is not its parameter. -/
theorem Helper.not_mem_of_param (hi : Inv g) (hf : Helper g f ys) (hf' : Helper g f' ys') :
    f'.param ∉ ys := by
  intro hy
  obtain ⟨bs, owned, hbody⟩ := hf.body_of_mem hy
  have hfn := hf'.loop.fn
  have := hi.owner _ _ f'.param _ _ hbody hfn (by simpa [Node.binds] using hy)
    (by simp [Node.binds])
  rw [← this, hbody] at hfn
  cases hfn

/-- What a case on anything but a list binds is no variable of a helper. -/
theorem Helper.not_local (hi : Inv g) (hf : Helper g f ys) {bs owned : List ValueId}
    (hn : g.node? id = some (.caseOf sh true x bs owned binders))
    (hy : y ∈ (Node.caseOf sh true x bs owned binders).binds) (hsh : (sh == .list) = false) :
    y ∉ ys ++ [f.param] := by
  intro hmem
  rcases List.mem_append.1 hmem with hmem | hmem
  · obtain ⟨bs', owned', hbody⟩ := hf.body_of_mem hmem
    have := hi.owner _ _ y _ _ hn hbody hy (by simpa [Node.binds] using hmem)
    rw [this, hbody] at hn
    cases hn
    cases hsh
  · have := hi.owner _ _ y _ _ hn hf.loop.fn hy (by simpa [Node.binds] using hmem)
    rw [this, hf.loop.fn] at hn
    cases hn

/-- A variable of a helper belongs to no other one. -/
theorem Helper.self_eq (hi : Inv g) (hf : Helper g f ys) (hf' : Helper g f' ys')
    (hy : y ∈ ys ++ [f.param]) (hy' : y ∈ ys' ++ [f'.param]) : f.self = f'.self := by
  have hparam : f.param = f'.param := by
    rw [List.mem_append, List.mem_singleton] at hy hy'
    rcases hy with hy | rfl <;> rcases hy' with hy' | hy'
    · obtain ⟨bs, owned, hbody⟩ := hf.body_of_mem hy
      obtain ⟨bs', owned', hbody'⟩ := hf'.body_of_mem hy'
      have := hi.owner _ _ y _ _ hbody hbody' (by simpa [Node.binds] using hy)
        (by simpa [Node.binds] using hy')
      rw [this, hbody', Option.some.injEq, Node.caseOf.injEq] at hbody
      exact hbody.2.2.1.symm
    · exact absurd (hy' ▸ hy) (hf.not_mem_of_param hi hf')
    · exact absurd hy' (hf'.not_mem_of_param hi hf)
    · exact hy'
  have hfn : f.fn = f'.fn := hi.owner _ _ f.param _ _ hf.loop.fn hf'.loop.fn (by simp [Node.binds])
    (by simp [Node.binds, hparam])
  have hwhole : f.whole = f'.whole := by rw [hf.loop.next, hf'.loop.next, hfn]
  have hfix := hf.loop.whole
  rw [hwhole, hf'.loop.whole, Option.some.injEq, Node.fix.injEq] at hfix
  exact hfix.1.symm

section

variable (hi : Inv g) (hu : UsedInside g) (hg : Named g) (hv : w = g.target) (hw : w ≠ .unknown)
  {t : Marked} {c : Constant}

/-- The term of a node at which nothing is bound. -/
theorem emits_of_not_placed (he : Emits g (Placed g (Certain g)) bound id t)
    (hn : g.node? id = some n) (hid : n.isIdentifiable = false)
    (hp : ∀ xs, Placed g (Certain g) id xs → xs = []) :
    EmitsNode g (Placed g (Certain g)) bound n t := by
  cases he with
  | bound hn' hid' | inlined hn' hid' =>
    rw [hn] at hn'
    cases hn'
    rw [hid] at hid'
    cases hid'
  | node hn' _ hxs hb he =>
    rw [hn] at hn'
    cases hn'
    rw [hp _ hxs] at hb
    cases hb
    exact he

include hi hu hg hv hw

/-- What a helper does with a list, where the variable of the helper has a
value that does what the helper does in smaller calls. -/
theorem Helper.body_hasValue {c' : Constant} {x y : String} (hf : Helper g f ys)
    (hself : f.self ∉ bound) (hx : g.node? f.self = some (.var x (some f.whole)))
    (hy : g.node? f.param = some (.var y none)) (hn : g.node? f.body = some n)
    (he : EmitsNode g (Placed g (Certain g)) (f.param :: f.self :: bound) n t)
    (ih : ∀ h ≤ k, Sound w g k h) (hr : Ready w g k Δ ρ bound env) (hfix : Linked env t)
    (hmv : Realizes w g k (.fn f) mv) (hd : Denotes g k [(f.param, c)] f.body (.con c')) :
    ∃ mb, HasValue w ((y, .con c) :: (x, mv) :: env) (t.erase g.nameOf) mb ∧ mb = .con c' := by
  obtain ⟨j, rfl, hreads⟩ := hd.reads hn
  have hfresh : ∀ z : Nat, z ∈ ys ++ [f.param] → z ∉ f.self :: bound := by
    intro z hz hmem
    rcases List.mem_cons.1 hmem with rfl | hmem
    · exact not_blank_of_rhs hx rfl (hf.blank hz)
    · exact hself (hr.locals f ys hf z hz hmem)
  have hlocals : ∀ f' ys', Helper g f' ys' → ∀ z : Nat, z ∈ ys ++ [f.param] →
      z ∈ ys' ++ [f'.param] → f'.self ∈ f.self :: bound := by
    intro f' ys' hf' z hz hz'
    rw [hf.self_eq hi hf' hz hz']
    exact List.mem_cons_self ..
  have hready : Ready w g (j + 1) [f.param, f.self] ((f.param, c) :: ρ) (f.param :: f.self :: bound)
      ((y, .con c) :: (x, mv) :: env) := by
    have h1 := hr.bind hg hx rfl (.mk hx (.loop hf.loop rfl) : Denotes g 1 ρ f.self (.fn f)) hmv
    have h2 := h1.enter hg [(f.param, c)] [f.param, f.self] (by simp)
      (by simpa using ⟨y, hy⟩) (by simpa using hfresh f.param (by simp))
      (fun f' ys' hf' p hp hz => by
        rw [List.mem_singleton] at hp
        subst hp
        exact hlocals f' ys' hf' f.param (by simp) hz)
      (by simp) (by simp)
    rwa [bindAll, bindAll, nameOf_eq hy] at h2
  have hfix' : Linked ((y, .con c) :: (x, mv) :: env) t :=
    (hfix.cons hg hx rfl mv).cons hg hy rfl (.con c)
  have hparam : Tidy g [f.param, f.self] f.param := .blank hu (by simp) ⟨y, hy⟩
  obtain ⟨-, hbody, hys, hblank, hnil, hleaf', hcons, -⟩ := id hf
  rename_i owned native cons nil m binders
  rw [hn, Option.some.injEq] at hbody
  subst hbody
  have part : ∀ {b : Nat} {u : Marked} {v : Sense}, Tidy g [f.param, f.self] b →
      Emits g (Placed g (Certain g)) (f.param :: f.self :: bound) b u →
      Denotes g j [(f.param, c)] b v → (u.usesFix = true → t.usesFix = true) →
      ∃ mb, HasValue w ((y, .con c) :: (x, mv) :: env) (u.erase g.nameOf) mb ∧
        Realizes w g (j + 1) v mb :=
    fun ht he hd hu => ih j (by omega) ht he (hd.append ρ) hready (hfix'.of_usesFix hu)
  rcases hys with ⟨rfl, rfl⟩ | ⟨rfl, rfl, rfl⟩
  · cases he with
    | @case _ _ _ _ _ _ t' ts hbs hs =>
      cases hreads with
      | @case _ _ _ _ _ i cs _ _ b ys' hnat hscrut hbr hb hys' hl hnd hleaf hpart =>
        obtain ⟨ms, hms, rfl⟩ := part hparam hs hscrut (by simp_all [Marked.usesFix])
        refine case_hasValue (hv ▸ hnat) hms hbs hbr hb hys' hl fun u hemits hfixu => ?_
        have hfixt : u.usesFix = true → (Marked.case t' ts).usesFix = true := by
          intro h
          rw [Marked.usesFix, hfixu h, Bool.or_true]
        rcases i with _ | _ | i
        · cases hb
          obtain rfl : ys = ys' := hys'
          have hfst : (ys.zip cs).map Prod.fst = ys := List.map_fst_zip (by omega)
          have hmem : ∀ p ∈ ys.zip cs, p.1 ∈ ys := fun p hp => (List.of_mem_zip hp).1
          have hparam : f.param ∉ ys := hf.not_mem_of_param hi hf
          have hinside := hready.enter hg (ys.zip cs) (ys ++ [f.param, f.self])
            (by rwa [hfst]) (fun p hp => hblank p.1 (hmem p hp))
            (fun p hp hb => by
              rcases List.mem_cons.1 hb with heq | hb
              · exact hparam (heq ▸ hmem p hp)
              · exact hfresh p.1 (List.mem_append_left _ (hmem p hp)) hb)
            (fun f' ys' hf' p hp hz => List.mem_cons_of_mem _
              (hlocals f' ys' hf' p.1 (List.mem_append_left _ (hmem p hp)) hz))
            (by rw [hfst]; simp) (by simp)
          rw [hfst] at hinside
          exact ih j (by omega) hcons hemits (by simpa using hpart.append ρ) hinside
            ((hfix'.of_usesFix hfixt).bindAll hg fun p hp => hblank p.1 (hmem p hp))
        · cases hb
          obtain rfl : [] = ys' := hys'
          exact part (.leaf hnil hleaf') hemits hpart hfixt
        · cases hb
  · cases he with
    | @choice _ _ _ _ _ _ _ _ t' ts hch hs hall =>
      cases hreads with
      | @choice _ _ _ _ _ _ _ b hscrut hb hpart =>
        obtain ⟨ms, hms, rfl⟩ := part hparam hs hscrut fun h => by
          rw [usesFix_choice, h, Bool.true_or]
        refine choice_hasValue hw hms hch hall hb fun u hmem hemits => ?_
        have htidy : Tidy g [f.param, f.self] b := by
          rcases List.mem_cons.1 (mem_of_chosen? hb) with rfl | hmem
          · exact hcons
          · rw [List.mem_singleton] at hmem
            rw [hmem]
            exact .leaf hnil hleaf'
        exact part htidy hemits hpart fun h => by
          rw [usesFix_choice, List.any_eq_true.2 ⟨u, hmem, h⟩, Bool.or_true]

/-- **The value of a helper**, where the variable of the helper is not bound. -/
theorem Helper.hasValue (hf : Helper g f ys) (hself : f.self ∉ bound)
    (he : Emits g (Placed g (Certain g)) bound f.whole t) (ih : ∀ k < H, ∀ h ≤ k, Sound w g k h)
    (hr : Ready w g H Δ ρ bound env) (hfix : Linked env t) :
    ∃ mv, HasValue w env (t.erase g.nameOf) mv ∧ Realizes w g H (.fn f) mv := by
  obtain ⟨x, hx⟩ := hf.loop.self
  obtain ⟨y, hy⟩ := hf.loop.param
  obtain ⟨n, hn⟩ : ∃ n, g.node? f.body = some n := by
    obtain ⟨-, hbody, -⟩ := id hf
    exact ⟨_, hbody⟩
  have hbodyid : n.isIdentifiable = false := by
    obtain ⟨-, hbody, -⟩ := id hf
    rw [hn] at hbody
    cases hbody
    rfl
  have hwhole := emits_of_not_placed he hf.loop.whole rfl fun _ => hf.not_placed_whole
  cases hwhole with
  | @fix _ _ _ t he' =>
    have hfn := emits_of_not_placed he' hf.loop.fn rfl fun _ => hf.not_placed_fn
    cases hfn with
    | @lambda _ _ _ _ t hbody =>
      have hbody := emits_of_not_placed hbody hn hbodyid fun _ => hf.not_placed_body hu
      -- the function that the combinator is applied to, and what it gives
      let F : Machine.Value := .lam x (.lam y (t.erase g.nameOf)) env
      let L : Machine.Value := .lam y (t.erase g.nameOf) ((x, again F) :: env)
      have hF : Applies w 1 F (again F) L := .lam .lam
      have hfixt : Linked env t := hfix.of_usesFix fun h => by simp [Marked.usesFix, h]
      have hL : ∀ k ≤ H, Realizes w g k (.fn f) L := by
        intro k
        induction k with
        | zero => exact fun _ j hj => absurd hj (Nat.not_lt_zero j)
        | succ k ihk =>
          intro hk j hj c c' hd
          have hagain : Realizes w g j (.fn f) (again F) := by
            intro i hi c c' hd
            obtain ⟨m, hm⟩ := ihk (by omega) i (by omega) c c' hd
            exact again_applies hF hm
          obtain ⟨_, ⟨m, hm⟩, rfl⟩ := hf.body_hasValue hi hu hg hv hw hself hx hy hn hbody
            (ih j (by omega)) (hr.anti (by omega)) hfixt hagain hd
          exact ⟨_, .lam hm⟩
      refine ⟨L, ?_, hL H (Nat.le_refl H)⟩
      obtain ⟨k, hk⟩ := fixValue_applies hF
      rw [Marked.erase, Marked.erase, Marked.erase, Marked.erase, nameOf_eq hx,
        nameOf_eq hy]
      exact ⟨_, .apply (.var (hfix (by simp [Marked.usesFix]))) .lam hk⟩

/-! ## Definitions -/

/-- The value of the definition of a variable. -/
theorem definition_hasValue (hx : Tidy g Δ x) (hxb : x ∉ bound) (hn : g.node? x = some n)
    (hr : n.rhs? = some r) (hd : Denotes g k ρ x v) (he : Emits g (Placed g (Certain g)) bound r t)
    (ih : ∀ k < H, ∀ h ≤ k, Sound w g k h) (ih' : ∀ j < k, Sound w g H j)
    (hready : Ready w g H Δ ρ bound env) (hfix : Linked env t) :
    ∃ mv, HasValue w env (t.erase g.nameOf) mv ∧ Realizes w g H v mv := by
  rcases hx.definition hi (fun hΔ => hxb (hready.within hΔ)) hn hr with
    ⟨ht, -⟩ | ⟨f, ys, hf, rfl, rfl⟩
  · obtain ⟨j, hj, hdr⟩ := hd.definition hn hr ht.not_fix
    exact ih' j hj ht he hdr hready hfix
  · obtain ⟨x, hx⟩ := hf.loop.self
    obtain rfl : v = .fn f := hd.unique (.mk hx (.loop hf.loop rfl) : Denotes g 1 ρ f.self (.fn f))
    exact hf.hasValue hi hu hg hv hw hxb he ih hready hfix

omit hi hu hg hv hw in
/-- The term of a constant under views. -/
theorem Settled.hasValue (hr : Settled g r) (he : Emits g (Placed g (Certain g)) bound r t) :
    ∃ c, HasValue w env (t.erase g.nameOf) (.con c) ∧ ∃ k, Denotes g k ρ r (.con c) := by
  induction hr generalizing t with
  | @const r c hn =>
    have hnode := emits_of_not_placed he hn rfl fun xs hp =>
      not_placed_of_subs hn (by simp [Node.subs]) (by simp) hp
    cases hnode
    exact ⟨c, ⟨0, .con⟩, 1, .mk hn .const⟩
  | view hn _ ih =>
    have hnode := emits_of_not_placed he hn rfl fun xs hp =>
      not_placed_of_subs hn (by simp [Node.subs]) (by simp) hp
    cases hnode with
    | reinterpret he =>
      obtain ⟨c, ht, k, hk⟩ := ih he
      exact ⟨c, ht, k + 1, .mk hn (.reinterpret hk)⟩

omit hi hu hg hv hw in
theorem settled_of_underViewsIn {fuel : Nat} (hc : g.underViewsIn fuel r = some (.const c)) :
    Settled g r := by
  obtain ⟨x, hx, hr⟩ := underViewsIn_of_view (P := fun x => Settled g x → Settled g r)
    (fun _ _ hx hr hy => hr (.view hx hy)) (fun hr => hr) hc
  exact hr (.const hx)

omit hi hu hg hv hw in
/-- What is under the views of a tidy value is tidy. -/
theorem Tidy.underViewsIn {fuel : Nat} (hr : Tidy g Δ r) (hn : g.underViewsIn fuel r = some n) :
    ∃ x : Nat, g.node? x = some n ∧ Tidy g Δ x := by
  refine underViewsIn_of_view (fun x y hnode hx => ?_) hr hn
  cases hx with
  | given _ hm hid =>
    rw [hnode] at hm
    cases hm
    cases hid
  | free hf =>
    obtain ⟨m, _, hm, hid, -⟩ := hf.identifiable
    rw [hnode] at hm
    cases hm
    cases hid
  | node hm _ hparts =>
    rw [hnode] at hm
    cases hm
    exact hparts y (by simp [reach, strict?, Node.rhs?, Node.subs])
  | unpack hm =>
    rw [hnode] at hm
    cases hm

omit hu hg hv hw in
/-- What costs nothing to bind is a constant. -/
theorem Tidy.settled_of_cheap (hx : Tidy g Δ x) (hΔ : x ∉ Δ) (hc : Cheap g x)
    (hn : g.node? x = some n) (hr : n.rhs? = some r) : Settled g r := by
  obtain ⟨rhs, hb, heff⟩ := hc
  obtain ⟨value, hvalue, rfl⟩ := value_of_node? hn
  rw [State.bindable?, hvalue] at hb
  simp only at hb
  split at hb
  · cases hb
  · rename_i hin
    rw [hr] at hb
    cases hb
    unfold State.isEffortless at heff
    unfold State.isInlined at hin
    rw [hr] at hin
    cases hview : g.underViews r with
    | none => simp [hview] at heff
    | some m =>
      simp only [hview] at heff hin
      rcases hx.definition hi hΔ hn hr with ⟨ht, -⟩ | ⟨f, ys, hf, -, rfl⟩
      · obtain ⟨y, hy, hty⟩ := ht.underViewsIn hview
        cases m with
        | const c => exact settled_of_underViewsIn hview
        | lambda | delay =>
          rcases hty.kind hy with hid | hflat | ⟨_, _, _, _, heq⟩ <;> contradiction
        | builtinRef | var | aliased => exact absurd rfl hin
        | _ => cases heff
      · obtain ⟨value, hvalue, hnode⟩ := value_of_node? hf.loop.whole
        rw [State.underViews, State.underViewsIn, hvalue] at hview
        simp only [hnode, Option.some.injEq] at hview
        rw [← hview] at heff
        cases heff

/-! ## Values -/

/-- A variable whose definition can be evaluated before the value that it is
bound at: it stands for a constant, or denotes something. -/
structure Supplied (w : Version) (g : State) (H : Nat) (Δ : List ValueId) (ρ : Given) (x : Nat) :
    Prop where
  tidy : Tidy g Δ x
  denotes : (∃ n r, g.node? x = some n ∧ n.rhs? = some r ∧ Settled g r) ∨
    ∃ k u, Denotes g k ρ x u ∧ ∀ j < k, Sound w g H j

omit hu hg hv hw in
theorem BoundAt.supplied (hx : BoundAt g Δ id x) (hxΔ : x ∉ Δ)
    (hid : ∀ n, g.node? id = some n → n.rhs? = none) (hd : Denotes g h ρ id v)
    (ih : ∀ j < h, Sound w g H j) : Supplied w g H Δ ρ x := by
  refine ⟨hx.tidy, ?_⟩
  obtain ⟨n, r, hn, hr⟩ : ∃ n r, g.node? x = some n ∧ n.rhs? = some r := by
    obtain ⟨n, hn⟩ := hx.tidy.exists_node
    obtain ⟨r, hb⟩ := Option.isSome_iff_exists.1 hx.bindable
    obtain ⟨value, hvalue, rfl⟩ := value_of_node? hn
    rw [State.bindable?, hvalue] at hb
    simp only at hb
    split at hb
    · cases hb
    · exact ⟨_, r, hn, hb⟩
  rcases hx.harmless with hcheap | hcertain
  · exact .inl ⟨n, r, hn, hr, hx.tidy.settled_of_cheap hi hxΔ hcheap hn hr⟩
  · rcases hcertain.denotes hd with rfl | ⟨k, u, hk, hu⟩
    · rw [hid n hn] at hr
      cases hr
    · exact .inr ⟨k, u, hu, fun j hj => ih j (by omega)⟩

/-- What is bound at a value has a value first. -/
theorem emitsBinds_hasValue {inside : Bound} {binds : List (ValueId × Marked)}
    (he : EmitsBinds g (Placed g (Certain g)) bound xs binds inside)
    (hxs : ∀ x : Nat, x ∈ xs → x ∉ Δ → Supplied w g H Δ ρ x) (ih : ∀ k < H, ∀ h ≤ k, Sound w g k h)
    (hready : Ready w g H Δ ρ bound env) (hfix : ∀ p ∈ binds, Linked env p.2) :
    ∃ env', Ready w g H Δ ρ inside env' ∧ (∀ t, Linked env t → Linked env' t) ∧
      ∀ (t : Marked) mv, HasValue w env' (t.erase g.nameOf) mv →
        HasValue w env ((t.wrap binds).erase g.nameOf) mv := by
  induction xs generalizing bound binds env with
  | nil =>
    cases he
    exact ⟨env, hready, fun _ h => h, fun _ _ h => h⟩
  | cons x xs ihx =>
    rw [List.forall_mem_cons] at hxs
    cases he with
    | skip _ he => exact ihx he hxs.2 hready hfix
    | @bind _ _ _ r _ n t binds hxb hn hr het he =>
      rw [List.forall_mem_cons] at hfix
      have hx := hxs.1 fun hm => hxb (hready.within hm)
      -- the definition has the value that the variable denotes
      obtain ⟨k, u, mu, hu', hmu, hval⟩ : ∃ k u mu, Denotes g k ρ x u ∧
          HasValue w env (t.erase g.nameOf) mu ∧ Realizes w g H u mu := by
        rcases hx.denotes with ⟨m, r', hm, hr', hsettled⟩ | ⟨k, u, hu', ih'⟩
        · rw [hn] at hm
          cases hm
          rw [hr] at hr'
          cases hr'
          obtain ⟨c, ht, k, hk⟩ := hsettled.hasValue het
          refine ⟨k + 1, .con c, .con c, ?_, ht, rfl⟩
          cases n with
          | var =>
            cases hr
            exact .mk hn (.var hk)
          | aliased =>
            cases hr
            exact .mk hn (.aliased hk)
          | _ => cases hr
        · obtain ⟨mu, hmu, hval⟩ := definition_hasValue hi hu hg hv hw hx.tidy hxb hn hr hu' het
            ih ih' hready hfix.1
          exact ⟨k, u, mu, hu', hmu, hval⟩
      have hnid : n.isIdentifiable = true := by
        cases n <;> first | rfl | cases hr
      have hlink : ∀ t', Linked env t' → Linked ((n.name, mu) :: env) t' :=
        fun t' ht' => ht'.cons hg hn hnid mu
      obtain ⟨env', hready', hlinked, hwrap⟩ := ihx he hxs.2 (hready.bind hg hn hr hu' hval)
        fun p hp => hlink _ (hfix.2 p hp)
      refine ⟨env', hready', fun t' ht' => hlinked t' (hlink t' ht'), fun t' mv ht' => ?_⟩
      obtain ⟨i, hi⟩ := hmu
      obtain ⟨j, hj⟩ := hwrap t' mv ht'
      rw [← nameOf_eq hn] at hj
      exact ⟨_, .apply .lam hi (.lam hj)⟩

omit hi hu hg hv hw in
theorem emitsAll_hasValue {ts : List Marked} {r : Nat → Constant}
    (he : EmitsAll g (Placed g (Certain g)) bound xs ts)
    (hxs : ∀ x : Nat, x ∈ xs → ∀ t ∈ ts, Emits g (Placed g (Certain g)) bound x t →
      HasValue w env (t.erase g.nameOf) (.con (r x))) :
    List.Forall₂ (HasValue w env) (ts.map (·.erase g.nameOf)) (xs.map fun x => .con (r x)) := by
  induction xs generalizing ts with
  | nil =>
    cases he
    exact .nil
  | cons x xs ih =>
    cases he with
    | @cons _ _ _ t ts hx he =>
      refine .cons (hxs x (by simp) t (by simp) hx) (ih he fun y hy u hu => ?_)
      exact hxs y (List.mem_cons_of_mem _ hy) u (List.mem_cons_of_mem _ hu)

/-- The value of a node that binds nothing in its parts. -/
theorem emitsNode_hasValue (hflat : isFlat n = true) (hid : n.isIdentifiable = false)
    (hparts : ∀ x : Nat, x ∈ reach n → Tidy g Δ x)
    (hreads : Reads g (Denotes g k) (Denotes g (k - 1)) ρ id n v)
    (he : EmitsNode g (Placed g (Certain g)) bound n t) (hk : k < H)
    (ih : ∀ k < H, ∀ h ≤ k, Sound w g k h) (ih' : ∀ j ≤ k, Sound w g H j)
    (hready : Ready w g H Δ ρ bound env) (hfix : Linked env t) :
    ∃ mv, HasValue w env (t.erase g.nameOf) mv ∧ Realizes w g H v mv := by
  have part : ∀ {x : Nat} {u : Marked} {v'}, x ∈ n.subs →
      Emits g (Placed g (Certain g)) bound x u → Denotes g k ρ x v' →
      (u.usesFix = true → t.usesFix = true) →
      ∃ mv, HasValue w env (u.erase g.nameOf) mv ∧ Realizes w g H v' mv :=
    fun hx he hd hfixu => ih' k (Nat.le_refl k) (hparts _ (List.mem_append_right _ hx)) he hd hready
      (hfix.of_usesFix hfixu)
  cases hreads with
  | given | loop | var | aliased => cases hid
  | const =>
    cases he
    exact ⟨_, ⟨0, .con⟩, rfl⟩
  | letIn hb =>
    cases he with
    | letIn he => exact part (by simp [Node.subs]) he hb fun h => h
  | @strict owned _ _ x body hx hb =>
    cases he with
    | strict he =>
      cases he with
      | plain _ he => exact part (by simp [Node.subs]) he hb fun h => h
      | @first _ _ y r _ t u hroot her heb =>
        obtain ⟨hy, ⟨m, hm, hr⟩, -⟩ := strictRoot_spec hroot
        obtain ⟨hty, -, hdy⟩ :=
          (hparts x (by simp [reach, strict?])).strictRoot hi hready.within hroot
        obtain ⟨j, hj, hdy⟩ := hdy hx
        obtain ⟨mr, ⟨i, hmr⟩, hval⟩ := definition_hasValue hi hu hg hv hw hty hy hm hr hdy her ih
          (fun i hi => ih' i (by omega)) hready
          (hfix.of_usesFix fun h => by simp [Marked.usesFix, h])
        have hmid : m.isIdentifiable = true := by
          cases m <;> first | rfl | cases hr
        obtain ⟨mb, ⟨l, hmb⟩, hval'⟩ := ih' k (Nat.le_refl k)
          (hparts body (by simp [reach, Node.subs])) heb hb (hready.bind hg hm hr hdy hval)
          ((hfix.of_usesFix fun h => by simp [Marked.usesFix, h]).cons hg hm hmid mr)
        rw [← nameOf_eq hm] at hmb
        exact ⟨mb, ⟨_, .apply .lam hmr (.lam hmb)⟩, hval'⟩
  | reinterpret hx =>
    cases he with
    | reinterpret he => exact part (by simp [Node.subs]) he hx fun h => h
  | @builtin f args r c hf hn hne ha hcall =>
    cases he with
    | @builtin _ _ _ ts hall =>
      have hs : List.Forall₂ (HasValue w env) (ts.map (·.erase g.nameOf))
          (args.map fun a => .con (r a)) := by
        refine emitsAll_hasValue hall fun x hx u hmem heu => ?_
        obtain ⟨mx, hmx, rfl⟩ := part hx heu (ha x hx) fun h => by
          rw [Marked.usesFix_applyAll, List.any_eq_true.2 ⟨u, hmem, h⟩, Bool.or_true]
        exact hmx
      rw [Marked.erase_applyAll]
      refine ⟨_, .call (hv ▸ hf) hs ?_ ?_ hcall, rfl⟩
      · simpa [hn] using hs.length_eq
      · intro hnil
        rw [hnil] at hs
        cases hargs : args with
        | nil => exact hne hargs
        | cons a args =>
          rw [hargs] at hs
          cases hs
  | @apply fn arg f c c' hf ha hcall =>
    cases he with
    | @apply _ _ _ t u hef hea =>
      obtain ⟨mf, ⟨i, hmf⟩, hval⟩ := part (by simp [Node.subs]) hef hf fun h => by
        simp [Marked.usesFix, h]
      obtain ⟨ma, ⟨j, hma⟩, rfl⟩ := part (by simp [Node.subs]) hea ha fun h => by
        simp [Marked.usesFix, h]
      obtain ⟨l, hl⟩ := hval (k - 1) (by omega) c c' hcall
      exact ⟨_, ⟨_, .apply hmf hma hl⟩, rfl⟩
  | @case sh bs owned binders c i cs _ x b ys hnat hx hbr hb hys hl _ _ hpart =>
    cases he with
    | @case _ _ _ _ _ _ t ts hbs hs =>
      have hflat : binders.flatten = [] := List.isEmpty_iff.1 hflat
      obtain rfl : ys = [] := by
        rw [List.flatten_eq_nil_iff] at hflat
        rw [← hys]
        cases hbi : binders[i]? with
        | none => rfl
        | some zs => exact hflat zs (List.mem_of_getElem? hbi)
      obtain ⟨mx, hmx, rfl⟩ := part (by simp [Node.subs]) hs hx fun h => by
        simp [Marked.usesFix, h]
      refine case_hasValue (hv ▸ hnat) hmx hbs hbr hb hys hl fun u heu hfixu => ?_
      exact part (by simp [Node.subs, List.mem_of_getElem? hb]) heu hpart fun h => by
        rw [Marked.usesFix, hfixu h, Bool.or_true]
  | @choice sh bs owned binders c _ x b hx hb hpart =>
    cases he with
    | @choice _ _ _ _ _ _ _ _ t ts hch hs hall =>
      obtain ⟨mx, hmx, rfl⟩ := part (by simp [Node.subs]) hs hx fun h => by
        rw [usesFix_choice, h, Bool.true_or]
      refine choice_hasValue hw hmx hch hall hb fun u hmem heu => ?_
      exact part (by simp [Node.subs, mem_of_chosen? hb]) heu hpart fun h => by
        rw [usesFix_choice, List.any_eq_true.2 ⟨u, hmem, h⟩, Bool.or_true]
    | pair => cases hflat

omit hu hw in
/-- The value of a native case that takes data apart. -/
theorem unpack_hasValue {x b : Nat} {bs owned : List ValueId}
    (hn : g.node? id = some (.caseOf .data true x (b :: bs) owned (ys :: binders)))
    (hblank : ∀ y : Nat, y ∈ ys → Blank g y) (hx : Tidy g [] x) (hb : Tidy g ys b)
    (hreads : Reads g (Denotes g k) (Denotes g (k - 1)) ρ id
      (.caseOf .data true x (b :: bs) owned (ys :: binders)) v)
    (he : EmitsNode g (Placed g (Certain g)) bound
      (.caseOf .data true x (b :: bs) owned (ys :: binders)) t) (ih : Sound w g H k)
    (hready : Ready w g H [] ρ bound env) (hfix : Linked env t) :
    ∃ mv, HasValue w env (t.erase g.nameOf) mv ∧ Realizes w g H v mv := by
  cases he with
  | @case _ _ _ _ _ _ t ts hbs hs =>
    cases hreads with
    | @case _ _ _ _ c i cs _ _ b' ys' hnat hscrut hbr hb' hys hl hnd _ hpart =>
      obtain ⟨mx, hmx, rfl⟩ := ih hx hs hscrut hready
        (hfix.of_usesFix fun h => by simp [Marked.usesFix, h])
      refine case_hasValue (hv ▸ hnat) hmx hbs hbr hb' hys hl fun u heu hfixu => ?_
      -- data is taken apart in the first branch
      obtain rfl : i = 0 := by
        unfold branch? at hbr
        split at hbr <;> first | contradiction | (cases hbr; rfl)
      obtain rfl : b = b' := by
        cases hb'
        rfl
      obtain rfl : ys = ys' := hys
      have hfst : (ys.zip cs).map Prod.fst = ys := List.map_fst_zip (by omega)
      have hmem : ∀ p ∈ ys.zip cs, p.1 ∈ ys := fun p hp => (List.of_mem_zip hp).1
      have hinside := hready.enter hg (ys.zip cs) ys (by rwa [hfst])
        (fun p hp => hblank p.1 (hmem p hp))
        (fun p hp hmem' => hready.closed rfl p.1 hmem' (hblank p.1 (hmem p hp)))
        (fun f zs hf p hp hz => absurd hz (hf.not_local hi hn (by
          rw [Node.binds, List.flatten_cons]
          exact List.mem_append_left _ (hmem p hp)) rfl))
        (by rw [hfst]; simp) (fun h => by simp [h])
      rw [hfst] at hinside
      refine ih hb heu hpart hinside ((hfix.of_usesFix fun h => ?_).bindAll hg
        fun p hp => hblank p.1 (hmem p hp))
      rw [Marked.usesFix, hfixu h, Bool.or_true]

/-- The terms of tidy values that denote something have its value, by
induction on the height of the calls and on that of the reading. -/
theorem sound (H h : Nat) (hle : h ≤ H) : Sound w g H h := by
  induction H using Nat.strongRecOn generalizing h with
  | ind H ih =>
    induction h using Nat.strongRecOn with
    | ind h ih' =>
      intro Δ id bound t ρ v env ht he hd hready hfix
      have ih' : ∀ j < h, Sound w g H j := fun j hj => ih' j hj (by omega)
      cases he with
      | bound hn hid hx =>
        obtain ⟨n, k, u, mv, hn', -, hu', hf, hval⟩ := hready.supplies id hx
        obtain rfl := hd.unique hu'
        rw [← nameOf_eq hn'] at hf
        exact ⟨mv, ⟨0, .var hf⟩, hval⟩
      | inlined hn hid hx hr he =>
        exact definition_hasValue hi hu hg hv hw ht hx hn hr hd he ih ih' hready hfix
      | @node _ inside _ n xs binds t hn hid hxs hbinds hnode =>
        have hbound := fun x hx => ht.boundAt hi hu hn hid hxs (x := x) hx
        have hrhs : ∀ m, g.node? id = some m → m.rhs? = none := by
          intro m hm
          rw [hn] at hm
          cases hm
          cases n <;> first | rfl | cases hid
        obtain ⟨env', hready', hlinked, hwrap⟩ := emitsBinds_hasValue hi hu hg hv hw hbinds
          (fun x hx hxΔ => (hbound x hx).supplied hi hxΔ hrhs hd ih') ih hready
          fun p hp => hfix.of_usesFix fun h => by
            rw [Marked.usesFix_wrap, List.any_eq_true.2 ⟨p, hp, h⟩, Bool.true_or]
        have hfix' : Linked env' t := hlinked t (hfix.of_usesFix fun h => by
          rw [Marked.usesFix_wrap, h, Bool.or_true])
        obtain ⟨k, rfl, hreads⟩ := hd.reads hn
        suffices ∃ mv, HasValue w env' (t.erase g.nameOf) mv ∧ Realizes w g H v mv by
          obtain ⟨mv, hmv, hval⟩ := this
          exact ⟨mv, hwrap t mv hmv, hval⟩
        rcases ht.inner hn hid with ⟨hflat, hparts⟩ |
          ⟨_, _, _, _, _, _, rfl, rfl, -, hblank, hx, hb⟩
        · exact emitsNode_hasValue hi hu hg hv hw hflat hid hparts hreads hnode (by omega) ih
            (fun j hj => ih' j (by omega)) hready' hfix'
        · exact unpack_hasValue hi hg hv hn
            (fun y hy => hblank y (List.mem_append_left _ hy)) hx hb hreads hnode
            (ih' k (Nat.lt_succ_self k)) hready' hfix'

/-- **The term of a tidy value has the value that the value denotes**, where
the fixed-point combinator is bound if it is used. -/
theorem Tidy.hasValue (ht : Tidy g [] id) (he : Emits g (Placed g (Certain g)) [] id t)
    (hd : Denotes g h [] id (.con c)) (hfix : Linked env t) :
    HasValue w env (t.erase g.nameOf) (.con c) := by
  have hready : Ready w g h [] [] [] env :=
    ⟨List.Subset.refl _, by simp, by simp, by simp, by simp⟩
  obtain ⟨mv, hmv, rfl⟩ := sound hi hu hg hv hw h h (Nat.le_refl h) ht he hd hready hfix
  exact hmv

/-- The linked term of a tidy value. -/
theorem Tidy.link_hasValue (ht : Tidy g [] id) (he : Emits g (Placed g (Certain g)) [] id t)
    (hd : Denotes g h [] id (.con c)) {fix : Bool} (hfix : t.usesFix = true → fix = true) :
    HasValue w [] (link (t.erase g.nameOf) fix) (.con c) := by
  cases fix with
  | false => exact ht.hasValue hi hu hg hv hw he hd fun h => absurd (hfix h) Bool.false_ne_true
  | true =>
    have hlinked : Linked [(fixName, fixValue)] t := fun _ => by simp [Env.find?]
    obtain ⟨n, hn⟩ := ht.hasValue hi hu hg hv hw he hd hlinked
    exact ⟨_, .apply .lam .lam (.lam hn)⟩

end

end CoreLowering.Encoding
