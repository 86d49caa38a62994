import CoreLowering.Core.Machine
import CoreLowering.Proofs.Graph.Placing

/-!
# What values denote

`Denotes g h ρ id v` reads the value `id` of a graph by name: where the
variables without a definition have the constants `ρ`, it comes to `v`, which
is a constant or a recursive function of one parameter.  The number `h` bounds
the height of the reading, bodies of functions that are called included.

Main statements: `Denotes.unique`, and `Certain.denotes`, what is certain of a
value that denotes something denotes something itself, with a smaller height.
-/

namespace CoreLowering.Encoding

open CoreLowering.Graph (State Node ValueId Shape)

variable {g : State} {h k id : Nat}

/-- The values that make up a recursive function: the variable that stands for
it, its definition, the function in it, the parameter and the body. -/
structure Loop where
  self : ValueId
  whole : ValueId
  fn : ValueId
  param : ValueId
  body : ValueId

/-- The function is in the graph. -/
structure Loop.In (f : Loop) (g : State) : Prop where
  self : ∃ x, g.node? f.self = some (.var x (some f.whole))
  whole : g.node? f.whole = some (.fix f.self f.fn)
  fn : g.node? f.fn = some (.lambda (some f.param) f.body true)
  param : ∃ x, g.node? f.param = some (.var x none)
  before : f.self < f.param
  next : f.whole = f.fn + 1

variable {f : Loop}

/-- A function is known by its variable. -/
theorem Loop.In.unique {f' : Loop} (hf : f.In g) (hf' : f'.In g) (hs : f.self = f'.self) :
    f = f' := by
  obtain ⟨x, hx⟩ := hf.self
  obtain ⟨y, hy⟩ := hf'.self
  have hw : f.whole = f'.whole := by
    rw [hs, hy, Option.some.injEq, Node.var.injEq, Option.some.injEq] at hx
    exact hx.2.symm
  have hfn : f.fn = f'.fn := by
    have := hf.whole
    rw [hw, hf'.whole, Option.some.injEq, Node.fix.injEq] at this
    exact this.2.symm
  have hbody := hf.fn
  rw [hfn, hf'.fn, Option.some.injEq, Node.lambda.injEq, Option.some.injEq] at hbody
  cases f
  cases f'
  simp_all

/-- What a value comes to. -/
inductive Sense where
  | con (c : Constant)
  | fn (f : Loop)

/-- The constants of variables without a definition. -/
abbrev Given := List (ValueId × Constant)

theorem mem_of_lookup {α β : Type} [BEq α] [LawfulBEq α] {ps : List (α × β)} {x : α} {y : β}
    (h : ps.lookup x = some y) : (x, y) ∈ ps := by
  obtain ⟨before, after, rfl, -⟩ := List.lookup_eq_some_iff.1 h
  simp

/-- The branch that a native case on a constant takes, and what it takes out
of the constant. -/
def branch? : Shape → Constant → Option (Nat × List Constant)
  | .bool, .bool b => some (if b then 1 else 0, [])
  | .integer, .integer n => if 0 ≤ n then some (n.toNat, []) else none
  | .list, .list _ [] => some (1, [])
  | .list, .list e (x :: xs) => some (0, [x, .list e xs])
  | .data, .data (.constr tag fields) => some (0, [.integer tag.toNat, .dataList fields])
  | _, _ => none

/-- The branch that a builtin chooses for a constant. -/
def chosen? : Shape → Constant → List ValueId → Option ValueId
  | .bool, .bool b, [no, yes] => some (if b then yes else no)
  | .list, .list _ xs, [cons, nil] => some (if xs.isEmpty then nil else cons)
  | _, _, _ => none

theorem mem_of_chosen? {b : ValueId} (hc : chosen? sh c bs = some b) : b ∈ bs := by
  unfold chosen? at hc
  split at hc
  · cases hc
    split <;> simp
  · cases hc
    split <;> simp
  · cases hc

/-! ## Readings -/

/-- What a node comes to, given what its parts come to and, for a call, what
the body of the function comes to. -/
inductive Reads (g : State) (part call : Given → Nat → Sense → Prop) (ρ : Given) (id : Nat) :
    Node → Sense → Prop where
  | given {x c} : ρ.lookup id = some c → Reads g part call ρ id (.var x none) (.con c)
  | loop {x} {f : Loop} : f.In g → f.self = id →
      Reads g part call ρ id (.var x (some f.whole)) (.fn f)
  | var {x v} {r : Nat} : part ρ r v → Reads g part call ρ id (.var x (some r)) v
  | aliased {x o v} {r : Nat} : part ρ r v → Reads g part call ρ id (.aliased x o (some r)) v
  | const {c} : Reads g part call ρ id (.const c) (.con c)
  | letIn {owned v} {body : Nat} : part ρ body v →
      Reads g part call ρ id (.letIn owned none body) v
  | strict {owned v w} {x body : Nat} : part ρ x w → part ρ body v →
      Reads g part call ρ id (.letIn owned (some x) body) v
  | reinterpret {v} {x : Nat} : part ρ x v → Reads g part call ρ id (.reinterpret x) v
  | builtin {f : Builtin} {args : List ValueId} {r : Nat → Constant} {c} :
      f.availableIn g.target = true → args.length = f.arity → args ≠ [] →
      (∀ a : Nat, a ∈ args → part ρ a (.con (r a))) →
      Machine.call f (args.map fun a => .con (r a)) = .ok (.con c) →
      Reads g part call ρ id (.builtin f args) (.con c)
  | apply {fn arg : Nat} {f : Loop} {c c'} : part ρ fn (.fn f) → part ρ arg (.con c) →
      call [(f.param, c)] f.body (.con c') → Reads g part call ρ id (.apply fn arg) (.con c')
  | case {sh bs owned binders c i cs v} {x b : Nat} {ys : List ValueId} :
      g.target.hasBuiltinCase = true → part ρ x (.con c) → branch? sh c = some (i, cs) →
      bs[i]? = some b → (binders[i]?).getD [] = ys → ys.length = cs.length → ys.Nodup →
      (ys = [] ∨ ∃ b' : Nat, b' ∈ bs ∧ ∃ n, g.node? b' = some n ∧ n.isLeaf = true) →
      part (ys.zip cs ++ ρ) b v →
      Reads g part call ρ id (.caseOf sh true x bs owned binders) v
  | choice {sh bs owned binders c v} {x b : Nat} : part ρ x (.con c) → chosen? sh c bs = some b →
      part ρ b v → Reads g part call ρ id (.caseOf sh false x bs owned binders) v

variable {sh : Shape} {c : Constant} {cs : List Constant} {bs owned : List ValueId}
  {binders : List (List ValueId)}

theorem Reads.mono {part part' call call' : Given → Nat → Sense → Prop} {ρ : Given} {n : Node}
    {v : Sense} (hr : Reads g part call ρ id n v) (hp : ∀ ρ i v, part ρ i v → part' ρ i v)
    (hc : ∀ ρ i v, call ρ i v → call' ρ i v) : Reads g part' call' ρ id n v := by
  cases hr with
  | given hx => exact .given hx
  | loop hf hs => exact .loop hf hs
  | var hr => exact .var (hp _ _ _ hr)
  | aliased hr => exact .aliased (hp _ _ _ hr)
  | const => exact .const
  | letIn hb => exact .letIn (hp _ _ _ hb)
  | strict hx hb => exact .strict (hp _ _ _ hx) (hp _ _ _ hb)
  | reinterpret hx => exact .reinterpret (hp _ _ _ hx)
  | builtin hf hl h0 ha hcall =>
    exact .builtin hf hl h0 (fun a hm => hp _ _ _ (ha a hm)) hcall
  | apply hf ha hb => exact .apply (hp _ _ _ hf) (hp _ _ _ ha) (hc _ _ _ hb)
  | case hw hx hb hi hy hl hn hleaf hbr =>
    exact .case hw (hp _ _ _ hx) hb hi hy hl hn hleaf (hp _ _ _ hbr)
  | choice hx hb hbr => exact .choice (hp _ _ _ hx) hb (hp _ _ _ hbr)

/-- What a value comes to, with a reading of height at most `h`. -/
def Denotes (g : State) (h : Nat) : Given → Nat → Sense → Prop :=
  match h with
  | 0 => fun _ _ _ => False
  | h + 1 => fun ρ id v => ∃ n, g.node? id = some n ∧
      Reads g (Denotes g h) (Denotes g (h - 1)) ρ id n v
termination_by h

variable {ρ ρ' : Given} {v v' : Sense}

theorem not_denotes_zero : ¬Denotes g 0 ρ id v := by
  rw [Denotes]
  exact fun hf => hf

theorem denotes_succ : Denotes g (h + 1) ρ id v ↔ ∃ n, g.node? id = some n ∧
    Reads g (Denotes g h) (Denotes g (h - 1)) ρ id n v := by
  rw [Denotes]

/-- A node with its reading. -/
theorem Denotes.mk {n : Node} (hn : g.node? id = some n)
    (hr : Reads g (Denotes g h) (Denotes g (h - 1)) ρ id n v) : Denotes g (h + 1) ρ id v :=
  denotes_succ.2 ⟨n, hn, hr⟩

/-- The reading of a value whose node is known. -/
theorem Denotes.reads {n : Node} (hd : Denotes g h ρ id v) (hn : g.node? id = some n) :
    ∃ k, h = k + 1 ∧ Reads g (Denotes g k) (Denotes g (k - 1)) ρ id n v := by
  cases h with
  | zero => exact absurd hd not_denotes_zero
  | succ k =>
    obtain ⟨m, hm, hr⟩ := denotes_succ.1 hd
    rw [hn] at hm
    cases hm
    exact ⟨k, rfl, hr⟩

theorem Denotes.succ (hd : Denotes g h ρ id v) : Denotes g (h + 1) ρ id v := by
  induction h using Nat.strongRecOn generalizing ρ id v with
  | ind h ih =>
    cases h with
    | zero => exact absurd hd not_denotes_zero
    | succ k =>
      obtain ⟨n, hn, hr⟩ := denotes_succ.1 hd
      refine .mk hn (hr.mono (fun _ _ _ hp => ih k (Nat.lt_succ_self k) hp) ?_)
      intro ρ i v hc
      cases k with
      | zero => exact absurd hc not_denotes_zero
      | succ k => exact ih k (by omega) hc

theorem Denotes.mono (hd : Denotes g h ρ id v) (hk : h ≤ k) : Denotes g k ρ id v := by
  induction hk with
  | refl => exact hd
  | step _ ih => exact ih.succ

/-- More constants may be given. -/
theorem Denotes.weaken (hd : Denotes g h ρ id v)
    (hρ : ∀ x c, ρ.lookup x = some c → ρ'.lookup x = some c) : Denotes g h ρ' id v := by
  induction h generalizing ρ ρ' id v with
  | zero => exact absurd hd not_denotes_zero
  | succ k ih =>
    obtain ⟨n, hn, hr⟩ := denotes_succ.1 hd
    refine .mk hn ?_
    cases hr with
    | given hx => exact .given (hρ _ _ hx)
    | loop hf hs => exact .loop hf hs
    | var hr => exact .var (ih hr hρ)
    | aliased hr => exact .aliased (ih hr hρ)
    | const => exact .const
    | letIn hb => exact .letIn (ih hb hρ)
    | strict hx hb => exact .strict (ih hx hρ) (ih hb hρ)
    | reinterpret hx => exact .reinterpret (ih hx hρ)
    | builtin hf hl h0 ha hcall => exact .builtin hf hl h0 (fun a hm => ih (ha a hm) hρ) hcall
    | apply hf ha hb => exact .apply (ih hf hρ) (ih ha hρ) hb
    | case hw hx hb hi hy hl hnd hleaf hbr =>
      refine .case hw (ih hx hρ) hb hi hy hl hnd hleaf (ih hbr fun x c hxc => ?_)
      rw [List.lookup_append, Option.or_eq_some_iff] at hxc ⊢
      exact hxc.imp_right fun ⟨hz, hxc⟩ => ⟨hz, hρ x c hxc⟩
    | choice hx hb hbr => exact .choice (ih hx hρ) hb (ih hbr hρ)

/-- A definition that recurs denotes nothing by itself. -/
theorem not_denotes_fix {self rec : ValueId} (hn : g.node? id = some (.fix self rec)) :
    ¬Denotes g h ρ id v := by
  intro hd
  obtain ⟨k, -, hr⟩ := hd.reads hn
  cases hr

/-- A variable denotes what its definition does, unless this recurs. -/
theorem Denotes.definition {n : Node} {r : Nat} (hd : Denotes g h ρ id v) (hn : g.node? id = some n)
    (hr : n.rhs? = some r) (hfix : ∀ {self rec : ValueId}, g.node? r ≠ some (.fix self rec)) :
    ∃ k < h, Denotes g k ρ r v := by
  obtain ⟨k, rfl, hreads⟩ := hd.reads hn
  cases hreads with
  | loop hf =>
    cases hr
    exact absurd hf.whole hfix
  | var hp | aliased hp =>
    cases hr
    exact ⟨k, Nat.lt_succ_self k, hp⟩
  | _ => cases hr

/-- **A value denotes one thing only.** -/
theorem Denotes.unique (hd : Denotes g h ρ id v) (hd' : Denotes g k ρ id v') : v = v' := by
  induction h using Nat.strongRecOn generalizing k ρ id v v' with
  | ind h ih =>
    cases h with
    | zero => exact absurd hd not_denotes_zero
    | succ h =>
      obtain ⟨n, hn, hr⟩ := denotes_succ.1 hd
      obtain ⟨k, rfl, hr'⟩ := hd'.reads hn
      have part : ∀ {ρ i v v'}, Denotes g h ρ i v → Denotes g k ρ i v' → v = v' :=
        fun hv hv' => ih h (Nat.lt_succ_self h) hv hv'
      have con : ∀ {ρ i c c'}, Denotes g h ρ i (.con c) → Denotes g k ρ i (.con c') → c = c' := by
        intro ρ i c c' hc hc'
        cases part hc hc'
        rfl
      cases hr with
      | given hx =>
        cases hr' with
        | given hx' =>
          rw [hx] at hx'
          cases hx'
          rfl
      | @loop _ f hf hs =>
        generalize hw : f.whole = w at hn hr'
        cases hr' with
        | @loop _ f' hf' hs' => rw [hf.unique hf' (hs.trans hs'.symm)]
        | var hp => exact absurd hp (not_denotes_fix (hw ▸ hf.whole))
      | @var _ _ r hp =>
        cases hr' with
        | loop hf' hs' => exact absurd hp (not_denotes_fix hf'.whole)
        | var hp' => exact part hp hp'
      | aliased hp =>
        cases hr' with
        | aliased hp' => exact part hp hp'
      | const =>
        cases hr'
        rfl
      | letIn hb =>
        cases hr' with
        | letIn hb' => exact part hb hb'
      | strict _ hb =>
        cases hr' with
        | strict _ hb' => exact part hb hb'
      | reinterpret hx =>
        cases hr' with
        | reinterpret hx' => exact part hx hx'
      | @builtin f args r c _ _ _ ha hcall =>
        cases hr' with
        | @builtin _ _ r' c' _ _ _ ha' hcall' =>
          have hargs : (args.map fun a => (.con (r a) : Machine.Value)) =
              args.map fun a => .con (r' a) :=
            List.map_congr_left fun a hm => by rw [con (ha a hm) (ha' a hm)]
          rw [hargs, hcall'] at hcall
          cases hcall
          rfl
      | apply hf ha hb =>
        cases hr' with
        | apply hf' ha' hb' =>
          cases part hf hf'
          cases part ha ha'
          exact ih (h - 1) (by omega) hb hb'
      | case _ hx hb hi hy _ _ _ hbr =>
        cases hr' with
        | case _ hx' hb' hi' hy' _ _ _ hbr' =>
          cases part hx hx'
          rw [hb] at hb'
          cases hb'
          rw [hi] at hi'
          cases hi'
          cases hy
          cases hy'
          exact part hbr hbr'
      | choice hx hb hbr =>
        cases hr' with
        | choice hx' hb' hbr' =>
          cases part hx hx'
          rw [hb] at hb'
          cases hb'
          exact part hbr hbr'

/-! ## Readings of any height -/

/-- What a value comes to, with a reading of some height. -/
def Comes (g : State) (ρ : Given) (id : Nat) (v : Sense) : Prop := ∃ h, Denotes g h ρ id v

namespace Comes

theorem unique (hc : Comes g ρ id v) (hc' : Comes g ρ id v') : v = v' := by
  obtain ⟨h, hd⟩ := hc
  obtain ⟨k, hd'⟩ := hc'
  exact hd.unique hd'

/-- Two values, with readings of one height. -/
theorem both {ρ' : Given} {x y : Nat} {w : Sense} (hx : Comes g ρ x v) (hy : Comes g ρ' y w) :
    ∃ h, Denotes g h ρ x v ∧ Denotes g h ρ' y w := by
  obtain ⟨h, hx⟩ := hx
  obtain ⟨k, hy⟩ := hy
  exact ⟨max h k, hx.mono (Nat.le_max_left h k), hy.mono (Nat.le_max_right h k)⟩

/-- Constants of several values, with readings of one height. -/
theorem common {args : List ValueId} (hc : List.Forall₂ (fun a c => Comes g ρ a (.con c)) args cs) :
    ∃ h, List.Forall₂ (fun a c => Denotes g h ρ a (.con c)) args cs := by
  induction hc with
  | nil => exact ⟨0, .nil⟩
  | cons hc _ ih =>
    obtain ⟨h, hd⟩ := hc
    obtain ⟨k, hds⟩ := ih
    exact ⟨max h k, .cons (hd.mono (Nat.le_max_left h k))
      (hds.imp fun _ _ hd => hd.mono (Nat.le_max_right h k))⟩

theorem given {x : String} (hn : g.node? id = some (.var x none)) (hc : ρ.lookup id = some c) :
    Comes g ρ id (.con c) :=
  ⟨1, .mk hn (.given hc)⟩

theorem const (hn : g.node? id = some (.const c)) : Comes g ρ id (.con c) :=
  ⟨1, .mk hn .const⟩

/-- A variable comes to what its definition does. -/
theorem defined {x : String} {r : Nat} (hn : g.node? id = some (.var x (some r)))
    (hc : Comes g ρ r v) : Comes g ρ id v := by
  obtain ⟨h, hd⟩ := hc
  exact ⟨h + 1, .mk hn (.var hd)⟩

theorem aliased {x : String} {o : ValueId} {r : Nat}
    (hn : g.node? id = some (.aliased x o (some r))) (hc : Comes g ρ r v) : Comes g ρ id v := by
  obtain ⟨h, hd⟩ := hc
  exact ⟨h + 1, .mk hn (.aliased hd)⟩

theorem reinterpret {x : Nat} (hn : g.node? id = some (.reinterpret x)) (hc : Comes g ρ x v) :
    Comes g ρ id v := by
  obtain ⟨h, hd⟩ := hc
  exact ⟨h + 1, .mk hn (.reinterpret hd)⟩

theorem letIn {body : Nat} (hn : g.node? id = some (.letIn owned none body))
    (hc : Comes g ρ body v) : Comes g ρ id v := by
  obtain ⟨h, hd⟩ := hc
  exact ⟨h + 1, .mk hn (.letIn hd)⟩

theorem strict {x body : Nat} {w : Sense} (hn : g.node? id = some (.letIn owned (some x) body))
    (hx : Comes g ρ x w) (hc : Comes g ρ body v) : Comes g ρ id v := by
  obtain ⟨h, hx, hd⟩ := hx.both hc
  exact ⟨h + 1, .mk hn (.strict hx hd)⟩

/-- A builtin comes to what it gives for what its arguments come to. -/
theorem builtin {f : Builtin} {args : List ValueId} (hn : g.node? id = some (.builtin f args))
    (hf : f.availableIn g.target = true) (hl : args.length = f.arity) (h₀ : args ≠ [])
    (hcs : List.Forall₂ (fun a c => Comes g ρ a (.con c)) args cs)
    (hcall : Machine.call f (cs.map .con) = .ok (.con c)) : Comes g ρ id (.con c) := by
  classical
  obtain ⟨h, hds⟩ := common hcs
  -- one and the same argument comes to one constant, wherever it stands
  let r : Nat → Constant := fun a =>
    if ha : ∃ c, Denotes g h ρ a (.con c) then ha.choose else .unit
  have hr : ∀ {a : Nat} {c}, Denotes g h ρ a (.con c) → r a = c := by
    intro a c hd
    have ha : ∃ c, Denotes g h ρ a (.con c) := ⟨c, hd⟩
    have heq := ha.choose_spec.unique hd
    simp only [r, dif_pos ha]
    exact Sense.con.inj heq
  have hargs : (∀ a : Nat, a ∈ args → Denotes g h ρ a (.con (r a))) ∧ args.map r = cs := by
    clear hcall hn hl h₀ hcs
    induction hds with
    | nil => simp
    | cons hd _ ih =>
      rw [List.forall_mem_cons, List.map_cons, hr hd, ih.2]
      exact ⟨⟨hd, ih.1⟩, rfl⟩
  refine ⟨h + 1, .mk hn (.builtin (r := r) hf hl h₀ hargs.1 ?_)⟩
  rw [← hcall, ← hargs.2, List.map_map]
  rfl

/-- A call of a recursive function comes to what its body does. -/
theorem apply {fn arg : Nat} {c' : Constant} (hn : g.node? id = some (.apply fn arg))
    (hf : Comes g ρ fn (.fn f)) (ha : Comes g ρ arg (.con c))
    (hb : Comes g [(f.param, c)] f.body (.con c')) : Comes g ρ id (.con c') := by
  obtain ⟨h, hf, ha⟩ := hf.both ha
  obtain ⟨k, hb⟩ := hb
  have hle : h ≤ h + k + 1 := by omega
  have hle' : k ≤ h + k + 1 - 1 := by omega
  exact ⟨h + k + 2, .mk hn (.apply (hf.mono hle) (ha.mono hle) (hb.mono hle'))⟩

theorem loop (hf : f.In g) : Comes g ρ f.self (.fn f) := by
  obtain ⟨x, hx⟩ := hf.self
  exact ⟨1, .mk hx (.loop hf rfl)⟩

/-- A native case comes to what the branch does that it takes. -/
theorem case {x b i : Nat} {ys : List ValueId}
    (hn : g.node? id = some (.caseOf sh true x bs owned binders))
    (hw : g.target.hasBuiltinCase = true) (hx : Comes g ρ x (.con c))
    (hb : branch? sh c = some (i, cs)) (hi : bs[i]? = some b) (hy : (binders[i]?).getD [] = ys)
    (hl : ys.length = cs.length) (hnd : ys.Nodup)
    (hleaf : ys = [] ∨ ∃ b' : Nat, b' ∈ bs ∧ ∃ n, g.node? b' = some n ∧ n.isLeaf = true)
    (hv : Comes g (ys.zip cs ++ ρ) b v) : Comes g ρ id v := by
  obtain ⟨h, hx, hv⟩ := hx.both hv
  exact ⟨h + 1, .mk hn (.case hw hx hb hi hy hl hnd hleaf hv)⟩

/-- A case by a builtin comes to what the branch does that is chosen. -/
theorem choice {x b : Nat} (hn : g.node? id = some (.caseOf sh false x bs owned binders))
    (hx : Comes g ρ x (.con c)) (hb : chosen? sh c bs = some b) (hv : Comes g ρ b v) :
    Comes g ρ id v := by
  obtain ⟨h, hx, hv⟩ := hx.both hv
  exact ⟨h + 1, .mk hn (.choice hx hb hv)⟩

end Comes

/-! ## What is certain -/

/-- The least relation that the rules for what is certain allow. -/
inductive Certain (g : State) : Nat → Nat → Prop where
  | self {id n} : g.node? id = some n → n.isIdentifiable = true → Certain g id id
  | rhs {id n r u} : g.node? id = some n → n.rhs? = some r → Certain g r u → Certain g id u
  | barrier {id p body u} : g.node? id = some (.lambda p body true) → Certain g body u →
      u ∈ (g.usedBy (.lambda p body true)).ids → Certain g id u
  | forceDelay {id x y u} : g.node? id = some (.force x) → g.node? x = some (.delay y) →
      Certain g y u → Certain g id u
  | scrutinee {id sh nat x bs ow bi u} : g.node? id = some (.caseOf sh nat x bs ow bi) →
      Certain g x u → Certain g id u
  | branches {id sh nat x u} {bs : List ValueId} {ow bi} :
      g.node? id = some (.caseOf sh nat x bs ow bi) → bs ≠ [] →
      (∀ b : Nat, b ∈ bs → Certain g b u) → Certain g id u
  | letIn {id ow st body u} : g.node? id = some (.letIn ow st body) → Certain g body u →
      Certain g id u
  | sub {id n x u} : g.node? id = some n → n.isEager = true → x ∈ n.subs → Certain g x u →
      Certain g id u

theorem certain_rules : Graph.SureRules g (Certain g) where
  self _ _ hn hid := .self hn hid
  rhs _ _ _ _ hn hr hu := .rhs hn hr hu
  barrier _ _ _ _ hn hb hu := .barrier hn hb hu
  forceDelay _ _ _ _ hn hx hu := .forceDelay hn hx hu
  scrutinee _ _ _ _ _ _ _ _ hn hu := .scrutinee hn hu
  branches _ _ _ _ _ _ _ _ hn hne hu := .branches hn hne hu
  letIn _ _ _ _ _ hn hu _ := .letIn hn hu
  sub _ _ _ _ hn he hx hu := .sub hn he hx hu

/-- Nothing is certain of a value without parts. -/
theorem not_certain_leaf {n : Node} {u : Nat} (hn : g.node? id = some n)
    (hl : n.isLeaf = true) : ¬Certain g id u := by
  intro hc
  cases hc with
  | self hn' hid | rhs hn' hid =>
    rw [hn] at hn'
    cases hn'
    cases n <;> simp_all [Node.isIdentifiable, Node.rhs?, Node.isLeaf]
  | sub hn' he =>
    rw [hn] at hn'
    cases hn'
    cases n <;> simp_all [Node.isEager, Node.isLeaf]
  | barrier hn' | forceDelay hn' | scrutinee hn' | branches hn' | letIn hn' =>
    rw [hn] at hn'
    cases hn'
    cases hl

/-- Nothing is certain of a definition that recurs. -/
theorem not_certain_fix {self rec u : Nat} (hn : g.node? id = some (.fix self rec)) :
    ¬Certain g id u := by
  intro hc
  cases hc with
  | self hn' hid | rhs hn' hid | sub hn' hid =>
    rw [hn] at hn'
    cases hn'
    cases hid
  | barrier hn' | forceDelay hn' | scrutinee hn' | branches hn' | letIn hn' =>
    rw [hn] at hn'
    cases hn'

/-- Of a variable without a definition only itself is certain. -/
theorem eq_of_certain_blank {x : String} {u : Nat} (hn : g.node? id = some (.var x none))
    (hc : Certain g id u) : u = id := by
  cases hc with
  | self => rfl
  | rhs hn' hr | sub hn' hr =>
    rw [hn] at hn'
    cases hn'
    cases hr
  | barrier hn' | forceDelay hn' | scrutinee hn' | branches hn' | letIn hn' =>
    rw [hn] at hn'
    cases hn'

/-- **What is certain of a value denotes something**, with a smaller height. -/
theorem Certain.denotes {u : Nat} (hc : Certain g id u) (hd : Denotes g h ρ id v) :
    u = id ∨ ∃ k v', k < h ∧ Denotes g k ρ u v' := by
  -- what is certain of a part is certain of the whole, one step further up
  have part : ∀ {u i k w}, (u = i ∨ ∃ j v', j < k ∧ Denotes g j ρ u v') → Denotes g k ρ i w →
      ∃ j v', j < k + 1 ∧ Denotes g j ρ u v' := by
    rintro u i k w (rfl | ⟨j, v', hj, hu⟩) hw
    · exact ⟨k, w, Nat.lt_succ_self k, hw⟩
    · exact ⟨j, v', by omega, hu⟩
  induction hc generalizing h v with
  | self => exact .inl rfl
  | @rhs id n r u hn hr hc ih =>
    obtain ⟨k, rfl, hr'⟩ := hd.reads hn
    cases hr' with
    | loop hf =>
      cases hr
      exact absurd hc (not_certain_fix hf.whole)
    | var hp | aliased hp =>
      cases hr
      exact .inr (part (ih hp) hp)
    | _ => cases hr
  | barrier hn =>
    obtain ⟨k, rfl, hr'⟩ := hd.reads hn
    cases hr'
  | forceDelay hn =>
    obtain ⟨k, rfl, hr'⟩ := hd.reads hn
    cases hr'
  | scrutinee hn _ ih =>
    obtain ⟨k, rfl, hr'⟩ := hd.reads hn
    cases hr' with
    | case _ hx | choice hx => exact .inr (part (ih hx) hx)
  | @branches id sh nat x u bs ow bi hn hne hc ih =>
    obtain ⟨k, rfl, hr'⟩ := hd.reads hn
    cases hr' with
    | @case _ _ _ _ c i cs _ _ b ys _ hx hb hi hy hl hnd hleaf hbr =>
      have hmem : b ∈ bs := List.mem_of_getElem? hi
      rcases hleaf with rfl | ⟨b', hb', n, hn', hleaf⟩
      · exact .inr (part (ih b hmem hbr) hbr)
      · exact absurd (hc b' hb') (not_certain_leaf hn' hleaf)
    | choice hx hb hbr =>
      exact .inr (part (ih _ (mem_of_chosen? hb) hbr) hbr)
  | letIn hn _ ih =>
    obtain ⟨k, rfl, hr'⟩ := hd.reads hn
    cases hr' with
    | letIn hb | strict _ hb => exact .inr (part (ih hb) hb)
  | @sub id n x u hn he hx hc ih =>
    obtain ⟨k, rfl, hr'⟩ := hd.reads hn
    cases hr' with
    | reinterpret hp =>
      rw [Node.subs, List.mem_singleton] at hx
      subst hx
      exact .inr (part (ih hp) hp)
    | builtin _ _ _ ha _ =>
      have hp := ha x hx
      exact .inr (part (ih hp) hp)
    | apply hf ha _ =>
      simp only [Node.subs, List.mem_cons, List.not_mem_nil, or_false] at hx
      rcases hx with rfl | rfl
      · exact .inr (part (ih hf) hf)
      · exact .inr (part (ih ha) ha)
    | _ => cases he

end CoreLowering.Encoding
