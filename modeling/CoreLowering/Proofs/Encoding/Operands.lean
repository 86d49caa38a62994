import CoreLowering.Proofs.Encoding.Helpers

/-!
# Values computed from one value

The other layout of a value is computed by a few steps: builtins, which are
applied to the value, to constants and to earlier results, variables for
results that are used twice, and calls of helpers.  Each step says what its
result comes to, given what the value itself does.

Main statements: `builtin_derived` and `apply_derived`, the steps.
-/

namespace CoreLowering.Encoding

open CoreLowering.Graph (State Node LowerM ValueId Valid UsedInside)
open CoreLowering.FirstOrder (Extends Lands availableIn_of_since)

variable {g s s' : State} {K : State → Prop} {lo id a out : Nat} {t : Ty} {r : Rep} {span : Span}
  {F G : Constant → Constant → Prop} {Fs : List (Constant → Constant → Prop)} {ρ : Given}

/-- The value `a` is computed from `id`: in all later graphs with the property
it is built over `id`, and the relation says what it comes to. -/
structure Derived (lo : Nat) (K : State → Prop) (s : State) (id : Nat)
    (F : Constant → Constant → Prop) (a : Nat) : Prop where
  past : lo < a
  valid : Valid s a
  built : ∀ g, Later lo s g → UsedInside g → K g → Over g id a
  comes : ∀ g, Later lo s g → UsedInside g → K g → ∀ {c x : Constant} {ρ : Given}, F c x →
    Comes g ρ id (.con c) → Comes g ρ a (.con x)

namespace Derived

theorem self (hid : lo < id) (hv : Valid s id) : Derived lo K s id Eq id :=
  ⟨hid, hv, fun _ _ _ _ => .refl, fun _ _ _ _ _ _ _ heq hc => heq ▸ hc⟩

theorem grow (h : Derived lo K s id F a) (hl : Later 0 s s') : Derived lo K s' id F a := by
  have later : ∀ {g}, Later lo s' g → Later lo s g := fun hg => (hl.anti (Nat.zero_le lo)).trans hg
  exact ⟨h.past, hl.valid h.valid, fun g hg => h.built g (later hg),
    fun g hg => h.comes g (later hg)⟩

end Derived

/-- What a builtin is applied to: a value that is computed from `id`, or a
constant. -/
inductive Operand (lo : Nat) (K : State → Prop) (s : State) (id : Nat) :
    Nat → (Constant → Constant → Prop) → Prop where
  | derived {a : Nat} {F : Constant → Constant → Prop} : Derived lo K s id F a →
      Operand lo K s id a F
  | const {a : Nat} {k : Constant} {t : Ty} {r : Rep} : lo < a → Is s a (.const k) t r →
      Operand lo K s id a fun _ x => x = k

namespace Operand

variable {c : Constant}

theorem valid (h : Operand lo K s id a F) : Valid s a := by
  cases h with
  | derived h => exact h.valid
  | const _ h => exact h.valid

theorem past (h : Operand lo K s id a F) : lo < a := by
  cases h with
  | derived h => exact h.past
  | const h _ => exact h

theorem grow (h : Operand lo K s id a F) (hl : Later 0 s s') : Operand lo K s' id a F := by
  cases h with
  | derived h => exact .derived (h.grow hl)
  | const hlt h => exact .const hlt (h.grow hl)

section

variable (hg : Later lo s g) (hu : UsedInside g) (hk : K g)

include hg hu hk

theorem over_or_ground (h : Operand lo K s id a F) : Over g id a ∨ Ground g a := by
  cases h with
  | derived h => exact .inl (h.built g hg hu hk)
  | const hlt h => exact .inr (Settled.ground hu (.const (h.known.later hg hlt).node))

theorem comes (h : Operand lo K s id a F) {x : Constant} (hF : F c x) (hc : Comes g ρ id (.con c)) :
    Comes g ρ a (.con x) := by
  cases h with
  | derived h => exact h.comes g hg hu hk hF hc
  | const hlt h =>
    subst hF
    exact .const (h.known.later hg hlt).node

theorem all_come {args : List ValueId} (h : List.Forall₂ (Operand lo K s id) args Fs)
    {xs : List Constant} (hF : List.Forall₂ (fun F x => F c x) Fs xs) (hc : Comes g ρ id (.con c)) :
    List.Forall₂ (fun a x => Comes g ρ a (.con x)) args xs := by
  induction h generalizing xs with
  | nil =>
    cases hF
    exact .nil
  | cons ha _ ih =>
    cases hF with
    | cons hx hxs => exact .cons (ha.comes hg hu hk hx hc) (ih hxs)

end

theorem of_mem {args : List ValueId} (h : List.Forall₂ (Operand lo K s id) args Fs)
    (ha : a ∈ args) : ∃ F, Operand lo K s id a F := by
  obtain ⟨F, -, h⟩ := Layout.exists_of_mem_forall₂ h ha
  exact ⟨F, h⟩

end Operand

/-- What a builtin gives for what its operands come to. -/
def Applied (f : Builtin) (Fs : List (Constant → Constant → Prop)) (c x : Constant) : Prop :=
  ∃ xs, List.Forall₂ (fun F y => F c y) Fs xs ∧ Machine.call f (xs.map .con) = .ok (.con x)

namespace Applied

variable {f : Builtin} {c x y z : Constant}

theorem one (hy : F c y) (hx : Machine.call f [.con y] = .ok (.con x)) : Applied f [F] c x :=
  ⟨[y], .cons hy .nil, hx⟩

theorem two (hy : F c y) (hz : G c z) (hx : Machine.call f [.con y, .con z] = .ok (.con x)) :
    Applied f [F, G] c x :=
  ⟨[y, z], .cons hy (.cons hz .nil), hx⟩

end Applied

/-- What a helper gives for the list that its operand comes to. -/
def ItemsChanged (way : Direction) (elem : Ty) (F : Constant → Constant → Prop)
    (c y : Constant) : Prop :=
  ∃ et ct xs ys, F c (.list et xs) ∧ way.result elem = some ct ∧
    List.Forall₂ (way.change elem) xs ys ∧ y = .list ct ys

/-! ## Steps -/

variable {way : Direction} {s₀ : State} {n : Node}

/-- The graph while a conversion is being built that began with `s₀`. -/
structure Progress (lo : Nat) (way : Direction) (s₀ s : State) : Prop where
  target : s.target ≠ .unknown
  size : lo ≤ s₀.size
  grown : Later 0 s₀ s
  keeps : Keeps lo way s₀ s

namespace Progress

theorem start (hw : s.target ≠ .unknown) (hlo : lo ≤ s.size) (ho : Orderly s) :
    Progress lo way s s :=
  ⟨hw, hlo, .refl, .refl ho⟩

theorem extend (h : Progress lo way s₀ s) (he : Extends s s') : Progress lo way s₀ s' :=
  ⟨he.target ▸ h.target, h.size, h.grown.trans he.later, h.keeps.extend he⟩

theorem trans (h : Progress lo way s₀ s) (hl : Later 0 s s') (hk : Keeps lo way s s') :
    Progress lo way s₀ s' :=
  ⟨hl.target ▸ h.target, h.size, h.grown.trans hl, h.keeps.trans hk (hl.anti (Nat.zero_le lo))⟩

theorem past (h : Progress lo way s₀ s) (ha : s.size < a) : lo < a :=
  Nat.lt_of_le_of_lt (Nat.le_trans h.size h.grown.size) ha

end Progress

/-- A step has computed a value with a node, a type and a layout. -/
structure Computed (lo : Nat) (way : Direction) (s₀ : State) (id : Nat)
    (F : Constant → Constant → Prop) (n : Node) (t : Ty) (r : Rep) (out : Nat) (s : State) :
    Prop where
  fresh : s₀.size < out
  known : At s out n t r
  derived : Derived lo (Known way s₀) s id F out
  progress : Progress lo way s₀ s

section

variable (hs : Progress lo way s₀ s) {f : Builtin}

include hs

theorem const_operand (id : Nat) {k : Constant} :
    Lands (Graph.constIn k t r span) s fun a s' =>
      Operand lo (Known way s₀) s' id a (fun _ x => x = k) ∧ Progress lo way s₀ s' :=
  constIn_is.mono fun _ _ he ⟨hlt, h⟩ => ⟨.const (hs.past hlt) h, hs.extend he⟩

/-- **A builtin is applied** to values that are computed from `id`, and to
constants. -/
theorem builtin_derived {args : List ValueId} {z : Nat}
    (hf : f.isKnown = true ∧ f.since = .v1 ∧ f.arity = args.length)
    (hargs : List.Forall₂ (Operand lo (Known way s₀) s id) args Fs) (hz : z ∈ args)
    (hover : Derived lo (Known way s₀) s id F z) :
    Lands (Graph.builtin f t r span args) s
      (Computed lo way s₀ id (Applied f Fs) (.builtin f args) t r) := by
  have hparts : ∀ a : Nat, a ∈ args → ∃ F, Operand lo (Known way s₀) s id a F :=
    fun a => Operand.of_mem hargs
  have ha : ∀ {w : Version}, w ≠ .unknown → f.availableIn w = true :=
    availableIn_of_since hf.1 hf.2.1
  refine (builtin_is (ha hs.target) fun a ha => ?_).mono ?_
  · obtain ⟨F, h⟩ := hparts a ha
    exact h.valid
  rintro out s' he ⟨hlt, h⟩
  have later : ∀ {g}, Later lo s' g → Later lo s g := he.later.trans
  have his : ∀ {g}, Later lo s' g → Is g out (.builtin f args) t r := fun hg =>
    h.later hg (hs.past hlt) fun a ha => by
      obtain ⟨F, h⟩ := hparts a (part_builtin.1 ha)
      exact h.past
  refine ⟨Nat.lt_of_le_of_lt hs.grown.size hlt, h.known, ⟨hs.past hlt, h.valid,
    fun g hg hu hk => ?_, ?_⟩, hs.extend he⟩
  · refine .builtin (his hg) hz (hover.built g (later hg) hu hk) fun a ha => ?_
    obtain ⟨F, h⟩ := hparts a ha
    exact h.over_or_ground (later hg) hu hk
  · rintro g hg hu hk c x ρ ⟨xs, hxs, hx⟩ hc
    refine .builtin (his hg).node (ha ((later hg).target ▸ hs.target)) hf.2.2.symm ?_ ?_ hx
    · rintro rfl
      cases hz
    · exact Operand.all_come (later hg) hu hk hargs hxs hc

/-- A builtin of one value. -/
theorem call_derived (hf : f.isKnown = true ∧ f.since = .v1 ∧ f.arity = 1)
    (h : Derived lo (Known way s₀) s id F a) :
    Lands (Graph.builtin f t r span [a]) s
      (Computed lo way s₀ id (Applied f [F]) (.builtin f [a]) t r) :=
  builtin_derived hs hf (.cons (.derived h) .nil) (List.mem_singleton.2 rfl) h

/-- A builtin of two values. -/
theorem call_derived₂ {b : Nat} (hf : f.isKnown = true ∧ f.since = .v1 ∧ f.arity = 2)
    (h : Derived lo (Known way s₀) s id F a) (h' : Derived lo (Known way s₀) s id G b) :
    Lands (Graph.builtin f t r span [a, b]) s
      (Computed lo way s₀ id (Applied f [F, G]) (.builtin f [a, b]) t r) :=
  builtin_derived hs hf (.cons (.derived h) (.cons (.derived h') .nil)) (List.mem_cons_self ..) h

/-- A variable for a value. -/
theorem letVar_derived {name : String} (h : Derived lo (Known way s₀) s id F a) :
    Lands (Graph.letVar name a) s fun out s' =>
      Derived lo (Known way s₀) s' id F out ∧ Progress lo way s₀ s' := by
  obtain ⟨v, hv⟩ := h.valid.exists_value
  refine .read (Graph.value_run hv) ?_
  split
  · exact .pure ⟨h, hs⟩
  · refine (newVar_is h.valid).mono ?_
    rintro out s' he ⟨hlt, x, hx⟩
    have later : ∀ {g}, Later lo s' g → Later lo s g := he.later.trans
    have his : ∀ {g}, Later lo s' g → Is g out (.var x (some a)) v.type v.rep := fun hg =>
      hx.later hg (hs.past hlt) (by simpa using h.past)
    exact ⟨⟨hs.past hlt, hx.valid, fun g hg hu hk => .var (his hg) (h.built g (later hg) hu hk),
      fun g hg hu hk _ _ _ hF hc => .defined (his hg).node (h.comes g (later hg) hu hk hF hc)⟩,
      hs.extend he⟩

/-- **A helper is applied** to a list that is computed from `id`. -/
theorem apply_derived {elem : Ty} {work : Graph.Work} {helper : LowerM ValueId}
    (hhelper : Makes helper s (Helps lo way s elem)) (hr : Route way elem work)
    (h : Derived lo (Known way s₀) s id F a) :
    Makes (do
        let own ← helper
        Graph.apply own a t r span) s fun out s' =>
      ∃ n, Computed lo way s₀ id (ItemsChanged way elem F) n t r out s' := by
  refine .bind hhelper fun own s1 l1 hown => ?_
  have hs1 := hs.trans l1 hown.keeps
  have h := h.grow l1
  have hlater : ∀ g, Later lo s1 g → UsedInside g → Known way s₀ g →
      g.usedOf own = s1.usedOf own ∧ Mapped g way elem own := fun g hg hu hk =>
    have hg0 := (l1.anti (Nat.zero_le lo)).trans hg
    hown.later g hg hu (hs.keeps.known g hg0 hu hk)
  refine .of_lands ((apply_is hown.valid h.valid).mono ?_)
  rintro out s2 he ⟨hlt, hout⟩
  have l2 : Later 0 s1 s2 := he.later
  have later : ∀ {g}, Later lo s2 g → Later lo s1 g := he.later.trans
  have his : ∀ {g}, Later lo s2 g → UsedInside g → Known way s₀ g →
      Is g out (.apply own a) t r := by
    intro g hg hu hk
    refine hout.later_of_used hg (hs1.past hlt) fun x hx => ?_
    rcases part_apply.1 hx with rfl | rfl
    · rw [(hlater g (later hg) hu hk).1, l2.usedOf hown.valid.1 hown.valid]
    · rw [(later hg).usedOf h.past h.valid, l2.usedOf h.valid.1 h.valid]
  refine ⟨_, Nat.lt_of_le_of_lt hs1.grown.size hlt, hout.known, ⟨hs1.past hlt, hout.valid,
    fun g hg hu hk => ?_, ?_⟩, hs1.extend he⟩
  · obtain ⟨-, ct, f, i, -, rfl, hf⟩ := hlater g (later hg) hu hk
    exact .apply (his hg hu hk) (Free.ground hu (.loop (hf.helper hu))) (h.built g (later hg) hu hk)
  · rintro g hg hu hk c _ ρ ⟨et, ct', xs, ys, hF, hct', hall, rfl⟩ hc
    obtain ⟨-, ct, f, i, hct, rfl, hf⟩ := hlater g (later hg) hu hk
    cases hct.symm.trans hct'
    refine .apply (his hg hu hk).node (.loop hf.loop) (h.comes g (later hg) hu hk hF hc) ?_
    refine hf.comes ((later hg).target ▸ hs1.target) (fun hxy => ?_) et hall
    exact (Option.some.inj (hct.symm.trans (hr.result_of_change hxy))).symm

end

/-! ## Conversions -/

/-- A new value which in all later graphs is `id` in the other layout. -/
structure Conversion (lo : Nat) (way : Direction) (s : State) (t : Ty) (id out : Nat)
    (s' : State) : Prop where
  fresh : s.size < out
  known : ∃ n, At s' out n t way.goal
  keeps : Keeps lo way s s'
  later : ∀ g, Later lo s' g → UsedInside g → Known way s g → Converted g (way.change t) id out

theorem Computed.conversion (h : Computed lo way s id F n t way.goal out s')
    (hF : ∀ {c x}, way.change t c x → F c x) : Conversion lo way s t id out s' :=
  ⟨h.fresh, ⟨n, h.known⟩, h.progress.keeps, fun g hg hu hk =>
    ⟨.inl (h.derived.built g hg hu hk), fun hc => h.derived.comes g hg hu hk (hF hc)⟩⟩

/-- The last step of a conversion. -/
theorem Makes.convert {m : LowerM ValueId} (hm : Lands m s (Computed lo way s₀ id F n t way.goal))
    (hF : ∀ {c x}, way.change t c x → F c x) : Makes m s (Conversion lo way s₀ t id) :=
  .of_lands (hm.mono fun _ _ _ h => h.conversion hF)

/-- The step gives operations of a type their other layout. -/
def ConvertsNode (convert : ValueId → LowerM ValueId) (way : Direction) (t : Ty) : Prop :=
  ∀ {s : State} {lo id : Nat} {n : Node}, Progress lo way s s → lo < id →
    At s id n t way.source → isOperation n = true →
    Makes (convert id) s (Conversion lo way s t id)

/-- A value that was computed gets its other layout. -/
theorem convert_derived {convert : ValueId → LowerM ValueId} (hc : ConvertsNode convert way t)
    (h : Computed lo way s₀ id F n t way.source a s) (hn : isOperation n = true) :
    Makes (convert a) s fun out s' =>
      Derived lo (Known way s₀) s' id (fun c x => ∃ y, F c y ∧ way.change t y x) out ∧
        Progress lo way s₀ s' := by
  have hs := h.progress
  have hd := h.derived
  have hlo := Nat.le_trans hs.size hs.grown.size
  refine (hc (.start hs.target hlo hs.keeps.orderly) hd.past h.known hn).mono ?_
  intro out s' hl hout
  have hs' := hs.trans hl hout.keeps
  have later : ∀ {g}, Later lo s' g → Later lo s g := (hl.anti (Nat.zero_le lo)).trans
  have hconv : ∀ {g}, Later lo s' g → UsedInside g → Known way s₀ g →
      Converted g (way.change t) a out := fun hg hu hk =>
    hout.later _ hg hu (hs.keeps.known _ (later hg) hu hk)
  obtain ⟨m, hm⟩ := hout.known
  refine ⟨⟨Nat.lt_of_le_of_lt hlo hout.fresh, hm.valid, fun g hg hu hk => ?_,
    fun g hg hu hk c x ρ ⟨y, hy, hx⟩ hc => ?_⟩, hs'⟩
  · refine (hd.built g (later hg) hu hk).trans ((hconv hg hu hk).built.resolve_right ?_)
    rintro ⟨-, m, hm, hid⟩
    rw [(h.known.later (later hg) hd.past).node] at hm
    cases hm
    cases n <;> first | cases hid; done | cases hn
  · exact (hconv hg hu hk).comes hx (hd.comes g (later hg) hu hk hy hc)

end CoreLowering.Encoding
