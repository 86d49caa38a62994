import CoreLowering.Proofs.Encoding.Growing
import CoreLowering.Proofs.Encoding.Stored

/-!
# Functions that change the items of a list

A value in another layout is built over the value it is made from: nothing
else goes into it but constants and helpers.  A list gets another layout item
by item, by a helper: a recursive function that takes the list apart and puts
the changed items together again.

Main statements: `Mapper.helper`, such a function can be used anywhere;
`Mapper.comes`, it changes all items of a list.
-/

namespace CoreLowering.Encoding

open CoreLowering.Graph (State Node ValueId UsedInside)
open CoreLowering.FirstOrder (availableIn_of_since)

variable {g s : State} {id out u : Nat} {n : Node} {t : Ty} {r : Rep}
  {R : Constant → Constant → Prop} {Δ : List ValueId} {ρ : Given} {xs : List Constant} {v : Sense}
  {binders : List (List ValueId)}

/-! ## Values over a value -/

/-- The value `y` is built over `x`: from `x` itself, from what can be used
anywhere, and from variables that are defined over `x`. -/
structure Over (g : State) (x y : Nat) : Prop where
  le : x ≤ y
  tidy : ∀ {Δ : List ValueId}, Tidy g Δ x → Tidy g Δ y
  used : ∀ u : Nat, u ∈ (g.usedOf y).ids → u ∈ (g.usedOf x).ids ∨ Free g u ∨
    (x < u ∧ u ≤ y) ∧ ∀ v : Nat, v ∈ (g.usedOf x).ids → v ∈ (g.usedOf u).ids
  needs : ∀ u : Nat, u ∈ (g.usedOf x).ids → u ∈ (g.usedOf y).ids

/-- A value that is built from what can be used anywhere. -/
structure Ground (g : State) (y : Nat) : Prop where
  tidy : ∀ {Δ : List ValueId}, Tidy g Δ y
  used : ∀ u : Nat, u ∈ (g.usedOf y).ids → Free g u

theorem Settled.ground (hu : UsedInside g) (h : Settled g id) : Ground g id :=
  ⟨h.tidy, fun _ hmem => absurd hmem (h.not_mem_usedOf hu)⟩

theorem Free.ground (hu : UsedInside g) (h : Free g id) : Ground g id :=
  ⟨.free h, fun _ hmem => h.used hu hmem⟩

namespace Over

variable {x y z : Nat}

theorem refl : Over g x x := ⟨Nat.le_refl x, id, fun _ => .inl, fun _ => id⟩

theorem trans (h : Over g x y) (h' : Over g y z) : Over g x z where
  le := Nat.le_trans h.le h'.le
  tidy ht := h'.tidy (h.tidy ht)
  needs u hu := h'.needs u (h.needs u hu)
  used u hu := by
    have hle := h.le
    have hle' := h'.le
    rcases h'.used u hu with hy | hfree | ⟨hbetween, hall⟩
    · rcases h.used u hy with hx | hfree | ⟨hbetween, hall⟩
      · exact .inl hx
      · exact .inr (.inl hfree)
      · exact .inr (.inr ⟨by omega, hall⟩)
    · exact .inr (.inl hfree)
    · exact .inr (.inr ⟨by omega, fun v hv => hall v (h.needs v hv)⟩)

/-- A value all of whose parts are built over `x` or anywhere, one of them over
`x`. -/
theorem of_parts (h : Is g y n t r) (hflat : isFlat n = true) (hstrict : strict? n = none)
    (hz : Part n z) (hover : Over g x z) (hparts : ∀ a, Part n a → Over g x a ∨ Ground g a) :
    Over g x y := by
  have needs : ∀ u : Nat, u ∈ (g.usedOf x).ids → u ∈ (g.usedOf y).ids := fun u hu =>
    (h.used u).2 (.inr ⟨z, hz, hover.needs u hu⟩)
  have hlt : x < y := Nat.lt_of_le_of_lt hover.le (h.before z hz)
  refine ⟨Nat.le_of_lt hlt, fun ht => h.tidy hflat hstrict fun a ha => ?_, fun u hu => ?_, needs⟩
  · exact (hparts a ha).elim (·.tidy ht) (·.tidy)
  · rcases (h.used u).1 hu with ⟨rfl, -⟩ | ⟨a, ha, hua⟩
    · exact .inr (.inr ⟨⟨hlt, Nat.le_refl _⟩, needs⟩)
    · have hlt := h.before a ha
      rcases hparts a ha with hover | hground
      · exact (hover.used u hua).imp_right fun h => h.imp_right fun h => ⟨by omega, h.2⟩
      · exact .inr (.inl (hground.used u hua))

theorem builtin {f : Builtin} {args : List ValueId} (h : Is g y (.builtin f args) t r)
    (hz : z ∈ args) (hover : Over g x z)
    (hargs : ∀ a : Nat, a ∈ args → Over g x a ∨ Ground g a) : Over g x y :=
  .of_parts h rfl rfl (part_builtin.2 hz) hover fun a ha => hargs a (part_builtin.1 ha)

theorem var {name : String} (h : Is g y (.var name (some z)) t r) (hover : Over g x z) :
    Over g x y :=
  .of_parts h rfl rfl (part_var.2 rfl) hover (by simpa using .inl hover)

theorem aliased {name : String} {o : ValueId} (h : Is g y (.aliased name o (some z)) t r)
    (hover : Over g x z) : Over g x y :=
  .of_parts h rfl rfl (part_aliased.2 rfl) hover (by simpa using .inl hover)

theorem view (h : Is g y (.reinterpret z) t r) (hover : Over g x z) : Over g x y :=
  .of_parts h rfl rfl (part_reinterpret.2 rfl) hover (by simpa using .inl hover)

/-- A helper that is applied to a value. -/
theorem apply {f : Nat} (h : Is g y (.apply f z) t r) (hf : Ground g f) (hover : Over g x z) :
    Over g x y :=
  .of_parts h rfl rfl (part_apply.2 (.inr rfl)) hover
    (by simpa [part_apply] using ⟨.inr hf, .inl hover⟩)

end Over

/-- The value `out` is `id` in another layout; the relation says what becomes
of a constant. -/
structure Converted (g : State) (R : Constant → Constant → Prop) (id out : Nat) : Prop where
  /-- The unit is known beforehand, anything else is built over the value. -/
  built : Over g id out ∨ Settled g out ∧ ∃ n, g.node? id = some n ∧ n.isIdentifiable = true
  comes : ∀ {c c' : Constant} {ρ : Given}, R c c' → Comes g ρ id (.con c) →
    Comes g ρ out (.con c')

theorem Converted.tidy (h : Converted g R id out) (ht : Tidy g Δ id) : Tidy g Δ out :=
  h.built.elim (·.tidy ht) (·.1.tidy)

/-! ## Lists -/

/-- The variables that a helper binds to the first item and the rest. -/
def bound (native : Bool) (h t : Nat) : List ValueId := if native then [h, t] else []

/-- The first item `h` and the rest `t` of a list: bound by a native case, or
defined by builtins. -/
inductive Split (g : State) (l : Nat) : Bool → Nat → Nat → Prop where
  | native {h t : Nat} : g.target.hasBuiltinCase = true → Graph.Blank g h → Graph.Blank g t →
      h ≠ t → Split g l true h t
  | emulated {h t a b : Nat} {x y : String} : g.node? h = some (.var x (some a)) →
      g.node? a = some (.builtin .headList [l]) → g.node? t = some (.var y (some b)) →
      g.node? b = some (.builtin .tailList [l]) → Split g l false h t

namespace Split

variable {native : Bool} {l h t : Nat} {ct : ConstType} {x : Constant}

theorem blank (hs : Split g l native h t) : ∀ y : Nat, y ∈ bound native h t → Graph.Blank g y := by
  cases hs with
  | native _ hh ht _ => simp [bound, hh, ht]
  | emulated => simp [bound]

theorem tidy (hu : UsedInside g) (hs : Split g l native h t)
    (hl : Tidy g (bound native h t ++ Δ) l) :
    Tidy g (bound native h t ++ Δ) h ∧ Tidy g (bound native h t ++ Δ) t := by
  cases hs with
  | native _ hh ht _ => exact ⟨.blank hu (by simp [bound]) hh, .blank hu (by simp [bound]) ht⟩
  | emulated hh ha ht hb =>
    have part : ∀ {f : Builtin} {x y : Nat} {z : String},
        g.node? y = some (.builtin f [l]) → g.node? x = some (.var z (some y)) →
        Tidy g (bound false h t ++ Δ) x := by
      intro f x y z hy hx
      have hy : Tidy g (bound false h t ++ Δ) y :=
        .node hy rfl (by simpa [reach, strict?, Node.rhs?, Node.subs] using hl)
      exact .node hx rfl (by simpa [reach, strict?, Node.rhs?, Node.subs] using hy)
    exact ⟨part ha hh, part hb ht⟩

/-- The variables come to the first item and to the rest. -/
theorem comes (hw : g.target ≠ .unknown) (hs : Split g l native h t)
    (hl : Comes g ρ l (.con (.list ct (x :: xs)))) :
    Comes g ((bound native h t).zip [x, .list ct xs] ++ ρ) h (.con x) ∧
      Comes g ((bound native h t).zip [x, .list ct xs] ++ ρ) t (.con (.list ct xs)) := by
  cases hs with
  | native _ hh ht hne =>
    obtain ⟨y, hh⟩ := hh
    obtain ⟨z, ht⟩ := ht
    refine ⟨.given hh (by simp [bound]), .given ht ?_⟩
    have : (t == h) = false := by simpa using hne.symm
    simp [bound, List.lookup_cons, this]
  | emulated hh ha ht hb =>
    exact ⟨.defined hh (.builtin ha (availableIn_of_since rfl rfl hw) rfl (by simp)
        (.cons hl .nil) rfl),
      .defined ht (.builtin hb (availableIn_of_since rfl rfl hw) rfl (by simp)
        (.cons hl .nil) rfl)⟩

/-- The first item is no known constant. -/
theorem constant?_head (hs : Split s l native h t) : s.constant? h = none := by
  cases hs with
  | native _ hh _ _ => exact constant?_of_blank hh
  | emulated hh ha _ _ =>
    obtain ⟨v, hv, hn⟩ := Graph.value_of_node? hh
    obtain ⟨w, hw, hm⟩ := Graph.value_of_node? ha
    simp [State.constant?, State.constantReach, State.constantIn, hv, hn, hw, hm]

/-- A case on a list that is not empty takes its first branch. -/
theorem comes_cons {body cons nil : Nat} {owned : List ValueId} {m : Node}
    (hs : Split g l native h t)
    (hbody : g.node? body = some (.caseOf .list native l [cons, nil] owned binders))
    (hbinders : native = true → binders = [[h, t], []]) (hnil : g.node? nil = some m)
    (hleaf : m.isLeaf = true) (hl : Comes g ρ l (.con (.list ct (x :: xs))))
    (hv : Comes g ((bound native h t).zip [x, .list ct xs] ++ ρ) cons v) : Comes g ρ body v := by
  cases hs with
  | native hw _ _ hne =>
    refine .case hbody hw hl rfl rfl (by rw [hbinders rfl]; rfl) rfl
      (by simpa [bound] using hne) ?_ hv
    exact .inr ⟨nil, by simp, m, hnil, hleaf⟩
  | emulated => exact .choice hbody hl rfl hv

/-- A case on an empty list takes its second branch. -/
theorem comes_nil {body cons nil : Nat} {owned : List ValueId} (hs : Split g l native h t)
    (hbody : g.node? body = some (.caseOf .list native l [cons, nil] owned binders))
    (hbinders : native = true → binders = [[h, t], []]) (hl : Comes g ρ l (.con (.list ct [])))
    (hv : Comes g ρ nil v) : Comes g ρ body v := by
  cases hs with
  | native hw _ _ _ =>
    exact .case hbody hw hl rfl rfl (by rw [hbinders rfl]; rfl) rfl .nil (.inl rfl) hv
  | emulated => exact .choice hbody hl rfl hv

end Split

/-- The values in the body of a helper: the first item and the rest of the
list, the item in its other layout and the alias for it, the rest done, and the
two results. -/
structure Items where
  native : Bool
  head : Nat
  tail : Nat
  conv : Nat
  first : Nat
  again : Nat
  cons : Nat
  nil : Nat

/-- A helper that changes the items of a list. -/
structure Mapper (g : State) (R : Constant → Constant → Prop) (ct : ConstType) (f : Loop)
    (i : Items) : Prop where
  loop : f.In g
  split : Split g f.param i.native i.head i.tail
  body : ∃ owned binders,
    g.node? f.body = some (.caseOf .list i.native f.param [i.cons, i.nil] owned binders) ∧
      (i.native = true ∧ binders = [[i.head, i.tail], []] ∨ i.native = false ∧ binders = [])
  cons : g.node? i.cons = some (.builtin .mkCons [i.first, i.again])
  again : g.node? i.again = some (.apply f.self i.tail)
  first : ∃ x, g.node? i.first = some (.aliased x i.head (some i.conv))
  nil : g.node? i.nil = some (.const (.list ct []))
  item : Converted g R i.head i.conv
  head_used : i.head ∈ (g.usedOf i.head).ids
  self_used : ∀ u : Nat, u ∈ (g.usedOf f.self).ids → u = f.self ∨ u ∈ (g.usedOf f.whole).ids
  whole_used : ∀ u : Nat, u ∈ (g.usedOf f.whole).ids →
    u = i.first ∧ i.head ∉ (g.usedOf i.conv).ids ∨
      u ∈ (g.usedOf i.conv).ids ∧ u ∉ (g.usedOf i.head).ids ∧
        (i.head < u ∧ u ≤ i.conv → i.head ∉ (g.usedOf u).ids)

namespace Mapper

variable {ct : ConstType} {f : Loop} {i : Items}

/-- What the helper uses can be used anywhere. -/
theorem free (hu : UsedInside g) (h : Mapper g R ct f i) (hmem : u ∈ (g.usedOf f.whole).ids) :
    Free g u := by
  rcases h.item.built with hover | ⟨hsettled, -⟩
  · rcases h.whole_used u hmem with ⟨-, hhead⟩ | ⟨hconv, hnot, hhead⟩
    · exact absurd (hover.needs _ h.head_used) hhead
    · rcases hover.used u hconv with hmem | hfree | ⟨hbetween, hall⟩
      · exact absurd hmem hnot
      · exact hfree
      · exact absurd (hall _ h.head_used) (hhead hbetween)
  · rcases h.whole_used u hmem with ⟨rfl, -⟩ | ⟨hconv, -⟩
    · obtain ⟨x, hx⟩ := h.first
      exact .loose hx rfl hsettled
    · exact absurd hconv (hsettled.not_mem_usedOf hu)

/-- **The function is a helper.** -/
theorem helper (hu : UsedInside g) (h : Mapper g R ct f i) :
    Helper g f (bound i.native i.head i.tail) := by
  obtain ⟨owned, binders, hbody, hbinders⟩ := h.body
  have hbinders : i.native = true ∧ binders = [bound i.native i.head i.tail, []] ∨
      i.native = false ∧ binders = [] ∧ bound i.native i.head i.tail = [] :=
    hbinders.imp (fun ⟨hn, hb⟩ => ⟨hn, by simp [bound, hn, hb]⟩)
      fun ⟨hn, hb⟩ => ⟨hn, hb, by simp [bound, hn]⟩
  refine .mk h.loop hbody hbinders h.split.blank h.nil rfl ?_ fun u hmem => h.free hu hmem
  -- the body may use the parameter and the function itself
  let Δ : List ValueId := bound i.native i.head i.tail ++ [f.param, f.self]
  have hparam : Tidy g Δ f.param := .blank hu (by simp [Δ]) h.loop.param
  have hself : Tidy g Δ f.self := by
    obtain ⟨x, hx⟩ := h.loop.self
    refine .given (by simp [Δ]) hx rfl fun u hmem hne => h.free hu ?_
    exact (h.self_used u hmem).resolve_left hne
  obtain ⟨hhead, htail⟩ := h.split.tidy hu hparam
  obtain ⟨x, hfirst⟩ := h.first
  have hfirst : Tidy g Δ i.first :=
    .node hfirst rfl (by simpa [reach, strict?, Node.rhs?, Node.subs] using h.item.tidy hhead)
  have hagain : Tidy g Δ i.again :=
    .node h.again rfl (by simpa [reach, strict?, Node.rhs?, Node.subs] using ⟨hself, htail⟩)
  exact .node h.cons rfl (by simpa [reach, strict?, Node.rhs?, Node.subs] using ⟨hfirst, hagain⟩)

/-- **The helper changes all items of a list.** -/
theorem comes (hw : g.target ≠ .unknown) (h : Mapper g R ct f i)
    (hct : ∀ {x y : Constant}, R x y → y.type = ct) (et : ConstType) {ys : List Constant}
    (hall : List.Forall₂ R xs ys) :
    Comes g [(f.param, .list et xs)] f.body (.con (.list ct ys)) := by
  obtain ⟨owned, binders, hbody, hbinders⟩ := h.body
  have hbinders : i.native = true → binders = [[i.head, i.tail], []] := by
    rintro hn
    exact (hbinders.resolve_right fun hb => by simp [hn] at hb).2
  obtain ⟨z, hparam⟩ := h.loop.param
  induction hall with
  | nil => exact h.split.comes_nil hbody hbinders (.given hparam (by simp; rfl)) (.const h.nil)
  | @cons x y xs ys hxy _ ih =>
    have hlist : Comes g [(f.param, .list et (x :: xs))] f.param (.con (.list et (x :: xs))) :=
      .given hparam (by simp)
    obtain ⟨hhead, htail⟩ := h.split.comes hw hlist
    obtain ⟨a, ha⟩ := h.first
    have hfirst := Comes.aliased ha (h.item.comes hxy hhead)
    have hagain := Comes.apply h.again (.loop h.loop) htail ih
    refine h.split.comes_cons hbody hbinders h.nil rfl hlist ?_
    exact .builtin h.cons (availableIn_of_since rfl rfl hw) rfl (by simp)
      (.cons hfirst (.cons hagain .nil)) (call_mkCons (hct hxy).symm ys)

end Mapper

end CoreLowering.Encoding
