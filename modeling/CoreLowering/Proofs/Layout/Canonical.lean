import CoreLowering.Proofs.Layout.Boxed

/-!
# Changes of layout lose nothing

A known constant can be taken from one layout to another, and from there to a
third one.  A constant is canonical in a layout when it is the encoding of a
value of the type there.  All chains of changes that start at a canonical
constant and end in one layout end in one constant, which is canonical again;
a chain that comes back to where it started comes back to the constant.

The packed form of a value is the same in all its layouts: `Shows t d r c`
says that `c` is, in layout `r`, the value that is packed as `d`.  Every edge
keeps `d` (`Shows.edge`), so every way along edges does, and `d` and the layout
fix the constant (`Shows.unique`).

Main statement: `foldAlong_canonical`.
-/

namespace CoreLowering

variable {tag : Nat} {e : Edge} {rest : List Ty} {xs : List Data} {chain : List Rep}

/-- Whether a layout is that of values, and neither of closures nor of type
variables. -/
def Rep.isConcrete (r : Rep) : Bool :=
  !r.isClosure && !r.isTypeVar && r != .error

namespace Layout

open CoreLowering.Graph

/-! ## Encodings -/

/-- Values of a declared type can be built by the constructor with a tag from
fields of the given types; those of a case only by that constructor. -/
inductive Builds (ds : Decls) : Ty → Nat → List Ty → Prop where
  | sum {name c : String} {args : List Ty} {decl : Decl} {k : Constructor} {tag : Nat} :
      ds.find? name = some decl → decl.find? c = some k → decl.tag? c = some tag →
      Builds ds (.con (.sum name) args) tag (decl.fieldTypes k args)
  | case {name c : String} {args : List Ty} {decl : Decl} {k : Constructor} {tag : Nat} :
      ds.find? name = some decl → decl.find? c = some k → decl.tag? c = some tag →
      Builds ds (.con (.caseClass name c) args) tag (decl.fieldTypes k args)
  | general {params : List TyVar} {body : Ty} {tag : Nat} {ts : List Ty} :
      Builds ds body tag ts → Builds ds (.all params body) tag ts

/-- The data that values of a type are packed into. -/
inductive Encodes (ds : Decls) : Ty → Data → Prop where
  | builtin {t : Ty} {c : Constant} {d : Data} : Boxed t c d → Encodes ds t d
  /-- Of a value whose type is a variable nothing is known. -/
  | unknown {t : Ty} {d : Data} : ds.family t = .typeVar → d.valid = true → Encodes ds t d
  | list {t : Ty} {xs : List Data} : ds.family t = .list →
      t.unwrap.elem.isPairElem = false → (∀ x ∈ xs, Encodes ds t.unwrap.elem x) →
      Encodes ds t (.list xs)
  /-- The items of a list of pairs are entries of a map, without their tags. -/
  | pairs {t : Ty} {ps : List (Data × Data)} (tag : Data × Data → UInt64) :
      ds.family t = .list → t.unwrap.elem.isPairElem = true →
      (∀ p ∈ ps, Encodes ds t.unwrap.elem (.constr (tag p) [p.1, p.2])) →
      Encodes ds t (.map ps)
  | constr {t : Ty} {tag : Nat} {ts : List Ty} {xs : List Data} : ds.family t ≠ .list →
      Builds ds t tag ts → xs.length = ts.length →
      (∀ p ∈ ts.zip xs, Encodes ds p.1 p.2) → Encodes ds t (.constr (.ofNat tag) xs)

/-- Pairs that stand for items of a type. -/
def Entries (ds : Decls) (elem : Ty) (ps : List (Data × Data)) : Prop :=
  ∀ p ∈ ps, ∃ tag, Encodes ds elem (.constr tag [p.1, p.2])

/-- Packed items of a declared list; those of a list of pairs have the
tag 0. -/
def Items (ds : Decls) (elem : Ty) (xs : List Data) : Prop :=
  if elem.isPairElem then ∃ ps, xs = ps.map .ofPair ∧ Entries ds elem ps
  else ∀ x ∈ xs, Encodes ds elem x

/-- The packed fields of a product. -/
def Fields (ds : Decls) (t : Ty) (xs : List Data) : Prop :=
  ∃ tag, Encodes ds t (.constr tag xs)

/-- **A constant is the encoding of a value of a type in a layout.** -/
def Canonical (ds : Decls) (t : Ty) : Rep → Constant → Prop
  | .constant, c => t.constType? = some c.type ∧ c.WellFormed
  | .packed, c => ∃ d, c = .data d ∧ Encodes ds t d
  | .sumConstr, c | .prodConstr, c =>
    (ds.family t = .sum ∨ ds.family t = .product) ∧ ∃ d, c = .data d ∧ Encodes ds t d
  | .sumList, c => ds.family t = .list ∧ ∃ xs, c = .dataList xs ∧ Items ds t.unwrap.elem xs
  | .packedList, c =>
    ds.family t = .list ∧ ∃ xs, c = .data (.list xs) ∧ Items ds t.unwrap.elem xs
  | .sumPairList, c =>
    (ds.family t = .list ∧ t.unwrap.elem.isPairElem = true) ∧
      ∃ ps, c = .dataPairList ps ∧ Entries ds t.unwrap.elem ps
  | .assocMap, c =>
    (ds.family t = .list ∧ t.unwrap.elem.isPairElem = true) ∧
      ∃ ps, c = .data (.map ps) ∧ Entries ds t.unwrap.elem ps
  | .prodList, c => ds.family t = .product ∧ ∃ xs, c = .dataList xs ∧ Fields ds t xs
  | .prodPair, c =>
    ds.family t = .product ∧ ∃ a b, c = .pairOf (.data a) (.data b) ∧ Fields ds t [a, b]
  | .prodArray, c =>
    ds.family t = .product ∧ ∃ xs, c = .array .data (xs.map .data) ∧ Fields ds t xs
  | _, _ => False

/-- A known constant taken through a chain of layouts. -/
def foldAlong (ds : Decls) (version : Version) (t : Ty) :
    Rep → List Rep → Constant → Option Constant
  | _, [], c => some c
  | r, s :: rs, c => (foldPath ds version t r s c).bind (foldAlong ds version t s rs)

/-! ## Ways along edges -/

/-- A way along edges from a layout to another one. -/
inductive Way (es : List Edge) : Rep → List Edge → Rep → Prop where
  | here {r : Rep} : Way es r [] r
  | step {e : Edge} {way : List Edge} {goal : Rep} : e ∈ es → Way es e.goal way goal →
      Way es e.source (e :: way) goal

namespace Way

variable {es way way' : List Edge} {source middle goal : Rep}

theorem append (h : Way es source way middle) (h' : Way es middle way' goal) :
    Way es source (way ++ way') goal := by
  induction h with
  | here => exact h'
  | step he _ ih => exact .step he (ih h')

/-- Every way that the search holds leads to its layout. -/
theorem of_searchPath {queue : List (Rep × List Edge)} {seen : List Rep} {fuel : Nat}
    (hqueue : ∀ q ∈ queue, Way es source q.2.reverse q.1)
    (h : searchPath es goal fuel queue seen = some way) : Way es source way goal := by
  induction fuel generalizing queue seen with
  | zero => cases h
  | succ fuel ih =>
    match queue with
    | [] => cases h
    | (r, back) :: queue =>
      have hr : Way es source back.reverse r := hqueue _ List.mem_cons_self
      rw [searchPath] at h
      split at h
      next heq =>
        obtain rfl := Option.some.inj h
        exact heq ▸ hr
      next =>
        refine ih (fun q hq => ?_) h
        rcases List.mem_append.1 hq with hq | hq
        · exact hqueue q (List.mem_cons_of_mem _ hq)
        · obtain ⟨e, he, rfl⟩ := List.mem_map.1 hq
          simp only [List.mem_filter, Bool.and_eq_true, decide_eq_true_eq] at he
          obtain ⟨hmem, rfl, _⟩ := he
          rw [List.reverse_cons]
          exact hr.append (.step hmem .here)

theorem of_nil (h : Way [] source way goal) : way = [] ∧ source = goal := by
  cases h with
  | here => exact ⟨rfl, rfl⟩
  | step he => cases he

theorem of_path? (h : path? es source goal = some way) : Way es source way goal :=
  of_searchPath (fun q hq => by
    obtain rfl := List.mem_singleton.1 hq
    exact .here) h

end Way

/-! ## What the packed form of a value looks like -/

theorem unwrap_unwrap (t : Ty) : t.unwrap.unwrap = t.unwrap := by
  fun_induction Ty.unwrap t with
  | case1 _ _ ih => exact ih
  | case2 t h =>
    cases t with
    | all params body => exact (h params body rfl).elim
    | _ => rfl

theorem family_unwrap (ds : Decls) (t : Ty) : ds.family t.unwrap = ds.family t := by
  rw [Decls.family, unwrap_unwrap, Decls.family]

theorem Boxed.unwrap {t : Ty} {c : Constant} {d : Data} : Boxed t.unwrap c d ↔ Boxed t c d := by
  fun_induction Ty.unwrap t with
  | case1 _ _ ih => exact ih
  | case2 => exact Iff.rfl

variable {ds : Decls} {version : Version} {t : Ty} {d : Data} {r : Rep} {c c' : Constant}

theorem Boxed.family (ds : Decls) (h : Boxed t c d) :
    ds.family t = .primitive ∨ ds.family t = .data ∨ ds.family t = .builtin := by
  fun_induction Boxed t c d with
  | case1 _ _ _ _ ih => exact ih h
  | case2 | case3 | case4 | case5 | case6 => exact .inl rfl
  | case7 => exact .inr (.inl rfl)
  | case8 | case9 | case10 => exact .inr (.inr rfl)
  | case11 => exact h.elim

theorem Boxed.eq_data (h : Boxed t c d) (hf : ds.family t = .data) : c = .data d := by
  fun_induction Boxed t c d with
  | case1 _ _ _ _ ih => exact ih h hf
  | case7 => exact h.1
  | case11 => exact h.elim
  | _ => cases hf

/-- Values that are built by constructors are those of sums and products, and
a product has one constructor. -/
theorem Builds.shape {ts : List Ty} (h : Builds ds t tag ts) (hlist : ds.family t ≠ .list) :
    ds.family t = .sum ∨
      ds.family t = .product ∧ productShape ds t.unwrap = some (tag, ts.length) := by
  induction h with
  | @sum name k args decl con tag hd hk ht =>
    have hname : name ≠ Ty.listName := by
      rintro rfl
      exact hlist (by simp [Decls.family, Ty.unwrap])
    by_cases hone : decl.isProduct = true
    · refine .inr ⟨by simp [Decls.family, Ty.unwrap, hname, Decls.isProduct, hd, hone], ?_⟩
      obtain ⟨only, honly⟩ := List.length_eq_one_iff.1 (of_decide_eq_true hone)
      have hfound := List.find?_some hk
      have hmem := List.mem_of_find?_eq_some hk
      rw [honly, List.mem_singleton] at hmem
      obtain rfl := of_decide_eq_true hfound
      subst hmem
      simp [productShape, Ty.unwrap, Ty.declName, Ty.constrName, hd, honly, hk, ht,
        Decl.fieldTypes]
    · exact .inl (by simp [Decls.family, Ty.unwrap, hname, Decls.isProduct, hd, hone])
  | @case name k args decl con tag hd hk ht =>
    have hname : name ≠ Ty.listName := by
      rintro rfl
      exact hlist (by simp [Decls.family, Ty.unwrap])
    refine .inr ⟨by simp [Decls.family, Ty.unwrap, hname], ?_⟩
    simp only [productShape, Ty.unwrap, Ty.declName, Ty.constrName, hd, Option.bind_eq_bind,
      Option.bind_some]
    split
    next only hempty honly =>
      have hmem := List.mem_of_find?_eq_some hk
      rw [honly, List.mem_singleton] at hmem
      have hfound := List.find?_some hk
      rw [← hmem, of_decide_eq_true hfound]
      simp [hk, ht, Decl.fieldTypes]
    next => simp [hk, ht, Decl.fieldTypes]
  | general _ ih => exact ih hlist

namespace Encodes

theorem family (h : Encodes ds t d) : ds.family t ≠ .nothing := by
  intro hno
  cases h with
  | builtin hb => rcases hb.family ds with hf | hf | hf <;> rw [hf] at hno <;> cases hno
  | unknown hf | list hf | pairs _ hf =>
    rw [hf] at hno
    cases hno
  | constr hlist hbuilds =>
    rcases hbuilds.shape hlist with hf | ⟨hf, _⟩ <;> rw [hf] at hno <;> cases hno

theorem boxed (h : Encodes ds t d)
    (hf : ds.family t = .primitive ∨ ds.family t = .data ∨ ds.family t = .builtin) :
    ∃ c, Boxed t c d := by
  cases h with
  | builtin hb => exact ⟨_, hb⟩
  | unknown hf' | list hf' | pairs _ hf' =>
    rw [hf'] at hf
    rcases hf with hf | hf | hf <;> cases hf
  | constr hlist hbuilds =>
    rcases hbuilds.shape hlist with hf' | ⟨hf', _⟩ <;> rw [hf'] at hf <;>
      rcases hf with hf | hf | hf <;> cases hf

theorem of_list (h : Encodes ds t d) (hf : ds.family t = .list) :
    (t.unwrap.elem.isPairElem = false ∧ ∃ xs, d = .list xs ∧ ∀ x ∈ xs, Encodes ds t.unwrap.elem x) ∨
      (t.unwrap.elem.isPairElem = true ∧ ∃ ps, d = .map ps ∧ Entries ds t.unwrap.elem ps) := by
  cases h with
  | builtin hb => rcases hb.family ds with hf' | hf' | hf' <;> rw [hf'] at hf <;> cases hf
  | unknown hf' =>
    rw [hf'] at hf
    cases hf
  | list _ he hall => exact .inl ⟨he, _, rfl, hall⟩
  | pairs tag _ he hall => exact .inr ⟨he, _, rfl, fun p hp => ⟨tag p, hall p hp⟩⟩
  | constr hlist => exact (hlist hf).elim

theorem of_product (h : Encodes ds t d) (hf : ds.family t = .product) :
    ∃ tag xs, d = .constr (.ofNat tag) xs ∧ productShape ds t.unwrap = some (tag, xs.length) := by
  cases h with
  | builtin hb => rcases hb.family ds with hf' | hf' | hf' <;> rw [hf'] at hf <;> cases hf
  | unknown hf' | list hf' | pairs _ hf' =>
    rw [hf'] at hf
    cases hf
  | constr hlist hbuilds hlen =>
    rcases hbuilds.shape hlist with hf' | ⟨_, hshape⟩
    · rw [hf'] at hf
      cases hf
    · exact ⟨_, _, rfl, hlen ▸ hshape⟩

/-- Encodings are valid data. -/
theorem valid (h : Encodes ds t d) : d.valid = true := by
  induction h with
  | builtin hb => exact hb.data_valid
  | unknown _ hd => exact hd
  | list _ _ _ ih =>
    rw [Data.valid, Data.validAll_iff]
    exact ih
  | pairs tag _ _ _ ih =>
    rw [Data.valid, Data.validEntries_iff]
    intro p hp
    simpa [Data.valid, Data.validAll] using ih p hp
  | @constr t tag ts xs _ _ hlen _ ih =>
    rw [Data.valid, Data.validAll_iff]
    intro x hx
    obtain ⟨i, hi, rfl⟩ := List.mem_iff_getElem.1 hx
    have hzip : (ts[i], xs[i]) ∈ ts.zip xs :=
      List.mem_iff_getElem.2 ⟨i, by simp [← hlen, hi], by simp⟩
    exact ih _ hzip

end Encodes

/-! ## A value in all its layouts -/

/-- The constant is, in a layout, the value of a type that is packed as the
given data. -/
inductive Shows (ds : Decls) (t : Ty) : Data → Rep → Constant → Prop where
  | packed {d : Data} : Shows ds t d .packed (.data d)
  | constant {d : Data} {c : Constant} : Boxed t c d → Shows ds t d .constant c
  | sum {d : Data} : ds.family t = .sum ∨ ds.family t = .product →
      Shows ds t d .sumConstr (.data d)
  | product {d : Data} : ds.family t = .sum ∨ ds.family t = .product →
      Shows ds t d .prodConstr (.data d)
  | items {xs : List Data} : ds.family t = .list → t.unwrap.elem.isPairElem = false →
      Shows ds t (.list xs) .sumList (.dataList xs)
  | packedItems {xs : List Data} : ds.family t = .list → t.unwrap.elem.isPairElem = false →
      Shows ds t (.list xs) .packedList (.data (.list xs))
  | pairItems {ps : List (Data × Data)} : ds.family t = .list →
      t.unwrap.elem.isPairElem = true →
      Shows ds t (.map ps) .sumList (.dataList (ps.map .ofPair))
  | packedPairItems {ps : List (Data × Data)} : ds.family t = .list →
      t.unwrap.elem.isPairElem = true →
      Shows ds t (.map ps) .packedList (.data (.list (ps.map .ofPair)))
  | pairs {ps : List (Data × Data)} : ds.family t = .list → t.unwrap.elem.isPairElem = true →
      Shows ds t (.map ps) .sumPairList (.dataPairList ps)
  | entries {ps : List (Data × Data)} : ds.family t = .list → t.unwrap.elem.isPairElem = true →
      Shows ds t (.map ps) .assocMap (.data (.map ps))
  | fields {tag : UInt64} {xs : List Data} : ds.family t = .product →
      Shows ds t (.constr tag xs) .prodList (.dataList xs)
  | pair {tag : UInt64} {a b : Data} : ds.family t = .product →
      Shows ds t (.constr tag [a, b]) .prodPair (.pairOf (.data a) (.data b))
  | array {tag : UInt64} {xs : List Data} : ds.family t = .product →
      Shows ds t (.constr tag xs) .prodArray (.array .data (xs.map .data))

/-- When layouts of values can be used as each other. -/
theorem compatible_concrete {a b : Rep} (ha : a.isConcrete = true) (hb : b.isConcrete = true)
    (hab : ds.compatible t a b = true) :
    (ds.family t = .typeVar ∨ ds.family t = .nothing) ∨ ds.normalRep t a = ds.normalRep t b ∨
      (Decls.isShared (ds.family t) (ds.normalRep t a) = true ∧
        Decls.isShared (ds.family t) (ds.normalRep t b) = true) := by
  have hknown : ∀ r : Rep, r.isConcrete = true → ds.knownRep t r = r := by
    intro r hr
    simp only [Rep.isConcrete, Bool.and_eq_true, Bool.not_eq_true'] at hr
    rw [Decls.knownRep, hr.1.2]
    rfl
  have hdef : ds.compatible t a b = (ds.alwaysCompatible t a b || ds.looksSame t a b) := by
    rw [Decls.compatible]
    all_goals
      intros
      subst a
      cases ha
  rw [hdef, Bool.or_eq_true] at hab
  rcases hab with halways | hlooks
  · simp only [Decls.alwaysCompatible, Bool.or_eq_true, decide_eq_true_eq] at halways
    rcases halways with (((((rfl | rfl) | rfl) | hf) | hf) | rfl) | rfl
    · exact .inr (.inl rfl)
    · cases ha
    · cases hb
    · exact .inl (.inl hf)
    · exact .inl (.inr hf)
    · cases ha
    · cases hb
  · rw [Decls.looksSame, hknown a ha, hknown b hb, Bool.or_eq_true, decide_eq_true_eq,
      Bool.and_eq_true] at hlooks
    exact .inr hlooks

theorem normalRep_concrete (hr : r.isConcrete = true) : (ds.normalRep t r).isConcrete = true := by
  unfold Decls.normalRep
  split
  · split
    case h_4 => exact hr
    all_goals
      next hf =>
        rw [Decls.packedRep, hf]
        first | rfl | (dsimp only; split <;> rfl)
  · exact hr

namespace Shows

/-- **The packed form and the layout fix the constant.** -/
theorem unique (h : Shows ds t d r c) (h' : Shows ds t d r c') : c = c' := by
  cases h with
  | constant hb =>
    cases h' with
    | constant hb' => exact hb.unique hb'
  | _ =>
    cases h'
    rfl

/-- A packed value is in the layout that packed values of its type have in
truth. -/
theorem normal (he : Encodes ds t d) : Shows ds t d (ds.normalRep t .packed) (.data d) := by
  rw [Decls.normalRep, if_pos rfl]
  split
  next hf =>
    rw [Decls.packedRep, hf]
    rcases he.of_list hf with ⟨hp, xs, rfl, _⟩ | ⟨hp, ps, rfl, _⟩
    · rw [hp]
      exact .packedItems hf hp
    · rw [hp]
      exact .entries hf hp
  next hf =>
    rw [Decls.packedRep, hf]
    exact .sum (.inl hf)
  next hf =>
    rw [Decls.packedRep, hf]
    exact .product (.inr hf)
  next => exact .packed

theorem normal_iff (he : Encodes ds t d) :
    Shows ds t d (ds.normalRep t r) c ↔ Shows ds t d r c := by
  by_cases hr : r = .packed
  · subst hr
    constructor
    · intro h
      rw [h.unique (normal he)]
      exact .packed
    · intro h
      rw [h.unique .packed]
      exact normal he
  · rw [Decls.normalRep, if_neg hr]

/-- Layouts that look the same hold the packed value itself. -/
theorem of_isShared (he : Encodes ds t d) (hr : Decls.isShared (ds.family t) r = true) :
    Shows ds t d r (.data d) := by
  unfold Decls.isShared at hr
  split at hr
  case h_1 hf =>
    obtain ⟨x, hx⟩ := he.boxed (.inr (.inl hf))
    exact .constant (hx.eq_data hf ▸ hx)
  case h_2 | h_5 | h_8 => exact .packed
  case h_3 hf => exact .sum (.inl hf)
  case h_4 hf => exact .product (.inl hf)
  case h_6 hf => exact .sum (.inr hf)
  case h_7 hf => exact .product (.inr hf)
  case h_9 => cases hr

/-- **A layout that can be used as another one shows the same value there.** -/
theorem compatible {a b : Rep} (ht : ds.family t ≠ .typeVar) (ha : a.isConcrete = true)
    (hb : b.isConcrete = true) (he : Encodes ds t d) (hab : ds.compatible t a b = true)
    (h : Shows ds t d a c) : Shows ds t d b c := by
  rcases compatible_concrete ha hb hab with (hf | hf) | heq | ⟨hsa, hsb⟩
  · exact (ht hf).elim
  · exact (he.family hf).elim
  · rwa [← normal_iff he, ← heq, normal_iff he]
  · rw [← normal_iff he] at h ⊢
    rw [h.unique (of_isShared he hsa)]
    exact of_isShared he hsb

end Shows

/-! ## One edge -/

theorem edges_of_declared (hf : ds.family t = .list ∨ ds.family t = .product) :
    edges ds version t =
      match ds.family t with
      | .list => listEdges t.unwrap.elem
      | .product =>
        match productShape ds t.unwrap with
        | some (tag, n) => productEdges version tag n
        | none => []
      | _ => [] := by
  rw [← family_unwrap] at hf ⊢
  unfold edges
  generalize t.unwrap = u at hf
  rcases u with ⟨con, args⟩ | _ | _ | _
  · cases con <;> first | rfl | (rcases hf with hf | hf <;> cases hf)
  all_goals rfl

/-- Work that packs the constants of a type, or unpacks them. -/
def Converts (t : Ty) (e : Edge) : Prop :=
  (e.source = .constant ∧ e.goal = .packed ∧
      ∀ c d, Boxed t c d → e.work.fold c = some (.data d)) ∨
    (e.source = .packed ∧ e.goal = .constant ∧
      ∀ c d, Boxed t c d → e.work.fold (.data d) = some c)

theorem converts_of_packEdges {pack unpack : Work} (he : e ∈ packEdges pack unpack)
    (hpack : ∀ c d, Boxed t c d → pack.fold c = some (.data d))
    (hunpack : ∀ c d, Boxed t c d → unpack.fold (.data d) = some c) : Converts t e := by
  simp only [packEdges, List.mem_cons, List.not_mem_nil, or_false] at he
  rcases he with rfl | rfl
  · exact .inl ⟨rfl, rfl, hpack⟩
  · exact .inr ⟨rfl, rfl, hunpack⟩

theorem converts_builtinList {elem : Ty} (he : e ∈ builtinListEdges elem) :
    Converts (.con .builtinList (elem :: rest)) e := by
  unfold builtinListEdges at he
  split at he
  next hdata =>
    obtain rfl := Ty.eq_data_of_same hdata
    refine converts_of_packEdges he (fun c d h => h.pack) fun c d h => ?_
    rw [Boxed, if_neg (by decide)] at h
    obtain ⟨ct, cs, xs, hct, rfl, rfl, hall⟩ := h
    obtain rfl := Option.some.inj hct
    have hcs : cs = xs.map .data := by
      induction hall with
      | nil => rfl
      | cons hx _ ih => rw [List.map_cons, hx.1, ih]
    rw [hcs]
    rfl
  next =>
    split at he
    next hpair =>
      obtain rfl := Ty.eq_dataPairT_of_same hpair
      exact converts_of_packEdges he (fun c d h => h.pack) fun c d h => h.unpack (by rfl)
    next =>
      split at he
      next hpack =>
        rcases List.mem_cons.1 he with rfl | he
        · exact .inl ⟨rfl, rfl, fun c d h => h.pack⟩
        · split at he
          next ct hunpack hct =>
            obtain rfl := List.mem_singleton.1 he
            have hlist : unpackable (.con .builtinList (elem :: rest)) = true := by
              simp [unpackable, hpack, hunpack, hct]
            exact .inr ⟨rfl, rfl, fun c d h => h.unpack hlist⟩
          next => cases he
      next => cases he

theorem converts_builtinPair {a b : Ty} (he : e ∈ builtinPairEdges a b) :
    Converts (.con .builtinPair (a :: b :: rest)) e := by
  have hpack : ∀ c d, Boxed (.con .builtinPair (a :: b :: rest)) c d →
      Fold.pack (.builtinPair a b) c = some (.data d) :=
    fun c d h => Boxed.pack (t := .builtinPair a b) h
  unfold builtinPairEdges at he
  split at he
  next hpair =>
    obtain ⟨rfl, rfl⟩ : a = .data ∧ b = .data := by
      simpa [dataPairT, Ty.builtinPair] using Ty.eq_dataPairT_of_same hpair
    refine converts_of_packEdges he hpack fun c d h => ?_
    obtain ⟨x, y, p, q, rfl, rfl, ⟨rfl, _⟩, ⟨rfl, _⟩⟩ := h
    rfl
  next =>
    split at he
    next =>
      obtain rfl := List.mem_singleton.1 he
      exact .inl ⟨rfl, rfl, hpack⟩
    next => cases he

/-- The edges of types that are not declared pack and unpack constants. -/
theorem converts_of_edges (hf : ds.family t ≠ .list ∧ ds.family t ≠ .product)
    (he : e ∈ edges ds version t) :
    (ds.family t = .primitive ∨ ds.family t = .builtin) ∧ Converts t e := by
  suffices h : (ds.family t.unwrap = .primitive ∨ ds.family t.unwrap = .builtin) ∧
      Converts t.unwrap e by
    simpa only [family_unwrap, Converts, Boxed.unwrap] using h
  rw [← family_unwrap] at hf
  unfold edges at he
  generalize t.unwrap = u at hf he ⊢
  -- types that are not builtin have the edges of their family
  have declared {P : Prop} {es es' : List Edge}
      (he : e ∈ match ds.family u with
        | .list => es
        | .product => es'
        | _ => []) : P := by
    split at he
    next hlist => exact (hf.1 hlist).elim
    next hproduct => exact (hf.2 hproduct).elim
    next => cases he
  rcases u with ⟨con, args⟩ | _ | _ | _
  · cases con
    case integer | byteString | string | boolean | unit =>
      exact ⟨.inl rfl, converts_of_packEdges he (fun c d h => h.pack) fun c d h =>
        h.unpack (by rfl)⟩
    case builtinList =>
      match args with
      | [] => cases he
      | elem :: rest => exact ⟨.inr rfl, converts_builtinList he⟩
    case builtinPair =>
      match args with
      | a :: b :: rest => exact ⟨.inr rfl, converts_builtinPair he⟩
      | [] | [_] => cases he
    case sum | caseClass => exact declared he
    all_goals cases he
  case all => exact declared he
  all_goals cases he

theorem mapM_twoFields? (ps : List (Data × Data)) :
    (Constant.dataList (ps.map .ofPair)).items.mapM
      (fun x => x.data?.bind Data.twoFields?) = some ps := by
  rw [Constant.dataList, Constant.items, List.map_map, List.mapM_map]
  exact mapM_of_forall₂ (List.forall₂_same.2 fun p _ => rfl) fun p q (h : p = q) => by
    rw [← h]
    rfl

theorem packList_dataList (xs : List Data) :
    Fold.packList (.dataList xs) = some (.data (.list xs)) := by
  simp only [Fold.packList, Constant.dataItems, Constant.dataList, Constant.items,
    Encoding.mapM_data?, Option.map_some]

namespace Shows

/-- An edge of a declared list. -/
theorem listEdge (he : e ∈ listEdges t.unwrap.elem) (hs : Shows ds t d e.source c)
    (hfold : e.work.fold c = some c') : Shows ds t d e.goal c' := by
  simp only [listEdges, List.mem_append, List.mem_cons, List.not_mem_nil, or_false] at he
  rcases he with (rfl | rfl) | he
  · cases hs with
    | items hf hp =>
      obtain rfl := Option.some.inj ((packList_dataList _).symm.trans hfold)
      exact .packedItems hf hp
    | pairItems hf hp =>
      obtain rfl := Option.some.inj ((packList_dataList _).symm.trans hfold)
      exact .packedPairItems hf hp
  · cases hs with
    | packedItems hf hp =>
      cases hfold
      exact .items hf hp
    | packedPairItems hf hp =>
      cases hfold
      exact .pairItems hf hp
  · split at he
    case isFalse => cases he
    simp only [List.mem_cons, List.not_mem_nil, or_false] at he
    rcases he with rfl | rfl | rfl | rfl
    · cases hs with
      | pairs hf hp =>
        simp only [Work.fold, foldCall, Fold.packMap, mapM_dataPair?,
          Option.map_some, Option.some.injEq] at hfold
        exact hfold ▸ .entries hf hp
    · cases hs with
      | entries hf hp =>
        cases hfold
        exact .pairs hf hp
    · cases hs with
      | pairs hf hp =>
        simp only [Work.fold, mapM_dataPair?, Option.map_some, Option.some.injEq] at hfold
        exact hfold ▸ .pairItems hf hp
    · cases hs with
      | items hf hp => simp_all
      | pairItems hf hp =>
        simp only [Work.fold, mapM_twoFields?, Option.map_some, Option.some.injEq] at hfold
        exact hfold ▸ .pairs hf hp

/-- An edge of a product; putting the tag back needs the tag of the value. -/
theorem productEdge {n : Nat} (he : e ∈ productEdges version tag n)
    (hs : Shows ds t (.constr (.ofNat tag) xs) e.source c) (hf : ds.family t = .product)
    (hfold : e.work.fold c = some c') : Shows ds t (.constr (.ofNat tag) xs) e.goal c' := by
  simp only [productEdges, List.mem_append, List.mem_cons, List.not_mem_nil,
    or_false] at he
  rcases he with ((rfl | rfl) | he) | he
  · cases hs
    cases hfold
    exact .fields hf
  · cases hs
    simp only [Work.fold, Constant.dataItems, Constant.dataList, Constant.items,
      Encoding.mapM_data?, Option.map_some, Option.some.injEq] at hfold
    exact hfold ▸ .product (.inr hf)
  · split at he
    case isFalse => cases he
    simp only [List.mem_cons, List.not_mem_nil, or_false] at he
    rcases he with rfl | rfl
    · cases hs
      rcases xs with _ | ⟨a, _ | ⟨b, _ | _⟩⟩ <;> cases hfold
      exact .pair hf
    · cases hs
      cases hfold
      exact .fields hf
  · split at he
    case isFalse => cases he
    simp only [List.mem_cons, List.not_mem_nil, or_false] at he
    rcases he with rfl | rfl
    · cases hs
      cases hfold
      exact .array hf
    · cases hs
      cases hfold
      exact .fields hf

/-- **One step along an edge keeps the packed form.** -/
theorem edge (henc : Encodes ds t d) (he : e ∈ edges ds version t) (hs : Shows ds t d e.source c)
    (hfold : e.work.fold c = some c') : Shows ds t d e.goal c' := by
  by_cases hlist : ds.family t = .list
  · rw [edges_of_declared (.inl hlist), hlist] at he
    exact hs.listEdge he hfold
  by_cases hproduct : ds.family t = .product
  · obtain ⟨tag, xs, rfl, hshape⟩ := henc.of_product hproduct
    rw [edges_of_declared (.inr hproduct), hproduct, hshape] at he
    exact hs.productEdge he hproduct hfold
  obtain ⟨hf, ⟨hsource, hgoal, hpack⟩ | ⟨hsource, hgoal, hunpack⟩⟩ :=
    converts_of_edges ⟨hlist, hproduct⟩ he
  · rw [hsource] at hs
    rw [hgoal]
    cases hs with
    | constant hb =>
      obtain rfl := Option.some.inj ((hpack _ _ hb).symm.trans hfold)
      exact .packed
  · obtain ⟨x, hx⟩ := henc.boxed (hf.imp_right .inr)
    rw [hsource] at hs
    rw [hgoal]
    cases hs
    obtain rfl := Option.some.inj ((hunpack _ _ hx).symm.trans hfold)
    exact .constant hx

/-- **A way along edges keeps the packed form.** -/
theorem way {es : List Edge} {source goal : Rep} {way : List Edge} (henc : Encodes ds t d)
    (hes : es = edges ds version t) (hway : Way es source way goal) (hs : Shows ds t d source c)
    (hfold : way.foldlM (fun c e => e.work.fold c) c = some c') : Shows ds t d goal c' := by
  induction hway generalizing c with
  | here =>
    obtain rfl := Option.some.inj hfold
    exact hs
  | @step e way goal he _ ih =>
    rw [List.foldlM_cons] at hfold
    obtain ⟨x, hx, hrest⟩ := Option.bind_eq_some_iff.1 hfold
    exact ih (hs.edge henc (hes ▸ he) hx) hrest

/-- **One change of layout keeps the packed form.** -/
theorem foldPath {source goal : Rep} (ht : ds.family t ≠ .typeVar)
    (hsource : source.isConcrete = true) (hgoal : goal.isConcrete = true)
    (henc : Encodes ds t d) (hs : Shows ds t d source c)
    (hfold : Graph.foldPath ds version t source goal c = some c') : Shows ds t d goal c' := by
  unfold Graph.foldPath at hfold
  split at hfold
  case isTrue => cases hfold
  dsimp only at hfold
  rw [← normal_iff henc] at hs ⊢
  split at hfold
  next hcompatible =>
    obtain rfl := Option.some.inj hfold
    exact hs.compatible ht (normalRep_concrete hsource) (normalRep_concrete hgoal) henc
      hcompatible
  next =>
    split at hfold
    next way hway => exact hs.way henc rfl (.of_path? hway) hfold
    next => cases hfold

theorem canonical (henc : Encodes ds t d) (hs : Shows ds t d r c) : Canonical ds t r c := by
  cases hs with
  | packed => exact ⟨d, rfl, henc⟩
  | constant hb => exact hb.constant_typed
  | sum hf | product hf => exact ⟨hf, d, rfl, henc⟩
  | items hf hp | packedItems hf hp =>
    refine ⟨hf, _, rfl, ?_⟩
    rcases henc.of_list hf with ⟨_, _, heq, hall⟩ | ⟨hp', _⟩
    · cases heq
      rwa [Items, if_neg (by rw [hp]; decide)]
    · rw [hp] at hp'
      cases hp'
  | pairItems hf hp | packedPairItems hf hp =>
    refine ⟨hf, _, rfl, ?_⟩
    rcases henc.of_list hf with ⟨hp', _⟩ | ⟨_, _, heq, hall⟩
    · rw [hp] at hp'
      cases hp'
    · cases heq
      rw [Items, if_pos hp]
      exact ⟨_, rfl, hall⟩
  | pairs hf hp | entries hf hp =>
    refine ⟨⟨hf, hp⟩, _, rfl, ?_⟩
    rcases henc.of_list hf with ⟨hp', _⟩ | ⟨_, _, heq, hall⟩
    · rw [hp] at hp'
      cases hp'
    · cases heq
      exact hall
  | fields hf | array hf => exact ⟨hf, _, rfl, _, henc⟩
  | pair hf => exact ⟨hf, _, _, rfl, _, henc⟩

theorem wellFormed (henc : Encodes ds t d) (hs : Shows ds t d r c) : c.wellFormed = true := by
  have hvalid := henc.valid
  have hitems : ∀ ps : List (Data × Data), (Data.map ps).valid = true →
      ∀ x ∈ ps.map Data.ofPair, x.valid = true := by
    intro ps hps x hx
    obtain ⟨p, hp, rfl⟩ := List.mem_map.1 hx
    simp [Data.ofPair, Data.valid, Data.validAll, Data.validEntries_iff.1 hps p hp]
  cases hs with
  | packed | sum _ | product _ | packedItems _ _ | entries _ _ => exact hvalid
  | constant hb => exact hb.constant_typed.2
  | items _ _ | fields _ | array _ =>
    exact Constant.wellFormed_dataList (Data.validAll_iff.1 hvalid)
  | pairItems _ _ => exact Constant.wellFormed_dataList (hitems _ hvalid)
  | packedPairItems _ _ => exact Data.validAll_iff.2 (hitems _ hvalid)
  | pairs _ _ => exact Constant.wellFormed_dataPairList (Data.validEntries_iff.1 hvalid)
  | pair _ =>
    have hboth := Data.validAll_iff.1 hvalid
    exact Constant.wellFormed_pairOf (hboth _ (by simp)) (hboth _ (by simp))

end Shows

theorem Entries.encodes {ps : List (Data × Data)} (hf : ds.family t = .list)
    (hp : t.unwrap.elem.isPairElem = true) (h : Entries ds t.unwrap.elem ps) :
    Encodes ds t (.map ps) := by
  classical
  refine .pairs (fun p => if h : ∃ tag, Encodes ds t.unwrap.elem (.constr tag [p.1, p.2])
    then h.choose else 0) hf hp fun p hmem => ?_
  rw [dif_pos (h p hmem)]
  exact (h p hmem).choose_spec

/-- The packed items of a list are those of a value, in both layouts that
have them. -/
theorem Items.shows (hf : ds.family t = .list) (h : Items ds t.unwrap.elem xs) :
    ∃ d, Encodes ds t d ∧ Shows ds t d .sumList (.dataList xs) ∧
      Shows ds t d .packedList (.data (.list xs)) := by
  unfold Items at h
  split at h
  next hp =>
    obtain ⟨ps, rfl, hps⟩ := h
    exact ⟨.map ps, hps.encodes hf hp, .pairItems hf hp, .packedPairItems hf hp⟩
  next hp =>
    have hp' : t.unwrap.elem.isPairElem = false := Bool.eq_false_iff.2 hp
    exact ⟨.list xs, .list hf hp' h, .items hf hp', .packedItems hf hp'⟩

/-- A canonical constant shows a value; one that stands for itself has to be
packable. -/
theorem Canonical.shows (h : Canonical ds t r c) (hp : r = .constant → packable t = true) :
    ∃ d, Encodes ds t d ∧ Shows ds t d r c := by
  unfold Canonical at h
  split at h
  · obtain ⟨d, hd⟩ := exists_boxed (hp rfl) h.1 h.2
    exact ⟨d, .builtin hd, .constant hd⟩
  · obtain ⟨d, rfl, hd⟩ := h
    exact ⟨d, hd, .packed⟩
  · obtain ⟨hf, d, rfl, hd⟩ := h
    exact ⟨d, hd, .sum hf⟩
  · obtain ⟨hf, d, rfl, hd⟩ := h
    exact ⟨d, hd, .product hf⟩
  · obtain ⟨hf, xs, rfl, hitems⟩ := h
    obtain ⟨d, hd, hs, _⟩ := hitems.shows hf
    exact ⟨d, hd, hs⟩
  · obtain ⟨hf, xs, rfl, hitems⟩ := h
    obtain ⟨d, hd, _, hs⟩ := hitems.shows hf
    exact ⟨d, hd, hs⟩
  · obtain ⟨⟨hf, he⟩, ps, rfl, hps⟩ := h
    exact ⟨.map ps, hps.encodes hf he, .pairs hf he⟩
  · obtain ⟨⟨hf, he⟩, ps, rfl, hps⟩ := h
    exact ⟨.map ps, hps.encodes hf he, .entries hf he⟩
  · obtain ⟨hf, xs, rfl, tag, hd⟩ := h
    exact ⟨_, hd, .fields hf⟩
  · obtain ⟨hf, a, b, rfl, tag, hd⟩ := h
    exact ⟨_, hd, .pair hf⟩
  · obtain ⟨hf, xs, rfl, tag, hd⟩ := h
    exact ⟨_, hd, .array hf⟩
  · exact h.elim

/-! ## Constants that cannot be packed -/

theorem family_of_constType {ct : ConstType} (h : t.constType? = some ct)
    (hp : packable t = false) : ds.family t = .builtin := by
  fun_induction packable t generalizing ct with
  | case1 _ _ ih => exact ih h hp
  | case2 | case3 => rfl
  | case4 => cases hp
  | case5 con args _ _ hdata =>
    cases con
    case data => exact (hdata rfl).elim
    case integer | byteString | string | boolean | unit => cases hp
    all_goals first | rfl | cases h
  | case6 u hall _ _ _ hcon =>
    rcases u with ⟨con, args⟩ | _ | ⟨params, body⟩ | _
    · exact (hcon con args rfl).elim
    · cases h
    · exact (hall params body rfl).elim
    · cases h

theorem packable_unwrap (t : Ty) : packable t.unwrap = packable t := by
  fun_induction Ty.unwrap t with
  | case1 _ _ ih => exact ih
  | case2 => rfl

theorem edges_of_not_packable (hf : ds.family t = .builtin) (hp : packable t = false) :
    edges ds version t = [] := by
  rw [← family_unwrap] at hf
  rw [← packable_unwrap] at hp
  unfold edges
  generalize t.unwrap = u at hf hp
  rcases u with ⟨con, args⟩ | _ | ⟨params, body⟩ | _
  · cases con
    case builtinList =>
      match args with
      | [] => rfl
      | elem :: rest =>
        replace hp : packable elem = false := hp
        have hdata : elem.same .data ≠ true := by
          intro h
          rw [Ty.eq_data_of_same h] at hp
          cases hp
        have hpair : elem.same dataPairT ≠ true := by
          intro h
          rw [Ty.eq_dataPairT_of_same h] at hp
          cases hp
        simp [builtinListEdges, Ty.elem, hdata, hpair, hp]
    case builtinPair =>
      match args with
      | [] | [_] => rfl
      | a :: b :: rest =>
        replace hp : (packable a && packable b) = false := hp
        have hpair : (Ty.builtinPair a b).same dataPairT ≠ true := by
          intro h
          obtain ⟨rfl, rfl⟩ : a = .data ∧ b = .data := by
            simpa [dataPairT, Ty.builtinPair] using Ty.eq_dataPairT_of_same h
          cases hp
        simp only [builtinPairEdges, hpair, hp]
        rfl
    case builtinArray => rfl
    case sum | caseClass =>
      dsimp only
      rw [hf]
    all_goals cases hf
  case all =>
    dsimp only
    rw [hf]
  all_goals cases hf

/-- A constant that cannot be packed stays as it is. -/
theorem foldPath_of_not_packable {goal : Rep} (hf : ds.family t = .builtin)
    (hp : packable t = false) (hgoal : goal.isConcrete = true)
    (h : foldPath ds version t .constant goal c = some c') : goal = .constant ∧ c' = c := by
  have hnormal : ∀ r, ds.normalRep t r = r := by
    intro r
    rw [Decls.normalRep, hf]
    split <;> rfl
  unfold foldPath at h
  split at h
  case isTrue => cases h
  dsimp only at h
  simp only [hnormal, edges_of_not_packable hf hp] at h
  split at h
  next hcompatible =>
    refine ⟨?_, (Option.some.inj h).symm⟩
    rcases compatible_concrete (by rfl) hgoal hcompatible with (hno | hno) | heq | ⟨hshared, _⟩
    · rw [hf] at hno
      cases hno
    · rw [hf] at hno
      cases hno
    · rw [hnormal, hnormal] at heq
      exact heq.symm
    · rw [hf, hnormal] at hshared
      cases hshared
  next =>
    split at h
    next way hway =>
      obtain ⟨rfl, rfl⟩ := (Way.of_path? hway).of_nil
      exact ⟨rfl, (Option.some.inj h).symm⟩
    next => cases h

/-! ## Chains -/

theorem Shows.foldAlong (ht : ds.family t ≠ .typeVar)
    (hchain : ∀ s ∈ r :: chain, s.isConcrete = true) (henc : Encodes ds t d) (hs : Shows ds t d r c)
    (hfold : foldAlong ds version t r chain c = some c') : Shows ds t d (chain.getLastD r) c' := by
  induction chain generalizing r c with
  | nil =>
    obtain rfl := Option.some.inj hfold
    exact hs
  | cons s chain ih =>
    obtain ⟨x, hx, hrest⟩ := Option.bind_eq_some_iff.1 hfold
    have hr : r.isConcrete = true := hchain r List.mem_cons_self
    have hgoal : s.isConcrete = true := hchain s (by simp)
    rw [List.getLastD_cons]
    exact ih (fun q hq => hchain q (List.mem_cons_of_mem _ hq))
      (hs.foldPath ht hr hgoal henc hx) hrest

theorem foldAlong_of_not_packable (hf : ds.family t = .builtin) (hp : packable t = false)
    (hchain : ∀ s ∈ chain, s.isConcrete = true)
    (hfold : foldAlong ds version t .constant chain c = some c') :
    chain.getLastD .constant = .constant ∧ c' = c := by
  induction chain generalizing c with
  | nil => exact ⟨rfl, (Option.some.inj hfold).symm⟩
  | cons s chain ih =>
    obtain ⟨x, hx, hrest⟩ := Option.bind_eq_some_iff.1 hfold
    obtain ⟨rfl, rfl⟩ := foldPath_of_not_packable hf hp (hchain s List.mem_cons_self) hx
    rw [List.getLastD_cons]
    exact ih (fun q hq => hchain q (List.mem_cons_of_mem _ hq)) hrest

/-- **Changes of layout are composable and lose nothing.**  Two chains of
changes that start at a canonical constant, succeed and end in the same layout
give the same constant, which is canonical there; a chain that comes back to
its first layout gives back the constant. -/
theorem foldAlong_canonical {p q : List Rep} {c₁ c₂ : Constant} (ht : ds.family t ≠ .typeVar)
    (hr : r.isConcrete = true) (hp : ∀ s ∈ p, s.isConcrete = true)
    (hq : ∀ s ∈ q, s.isConcrete = true) (hc : Canonical ds t r c)
    (h₁ : foldAlong ds version t r p c = some c₁) (h₂ : foldAlong ds version t r q c = some c₂)
    (hend : p.getLastD r = q.getLastD r) :
    c₁ = c₂ ∧ c₁.same c₂ = true ∧ Canonical ds t (p.getLastD r) c₁ ∧
      (p.getLastD r = r → c₁ = c) := by
  by_cases hpack : r = .constant ∧ packable t = false
  · obtain ⟨rfl, hpack⟩ := hpack
    have hf : ds.family t = .builtin := family_of_constType hc.1 hpack
    obtain ⟨hlast, rfl⟩ := foldAlong_of_not_packable hf hpack hp h₁
    obtain ⟨_, rfl⟩ := foldAlong_of_not_packable hf hpack hq h₂
    exact ⟨rfl, Constant.same_self _ hc.2, by rwa [hlast], fun _ => rfl⟩
  · have hpack' : r = .constant → packable t = true := fun hr => by simpa [hr] using hpack
    obtain ⟨d, henc, hs⟩ := hc.shows hpack'
    have hs1 := hs.foldAlong ht (List.forall_mem_cons.2 ⟨hr, hp⟩) henc h₁
    have hs2 := hs.foldAlong ht (List.forall_mem_cons.2 ⟨hr, hq⟩) henc h₂
    obtain rfl := hs1.unique (hend ▸ hs2)
    refine ⟨rfl, Constant.same_self _ (hs1.wellFormed henc), hs1.canonical henc, fun hback => ?_⟩
    exact (hback ▸ hs1).unique hs

theorem encodes_tuple (n : Int) (b : Bool) :
    Encodes ⟨Decls.prelude⟩ (.sum "Tuple2" [.integer, .boolean])
      (.constr 0 [.int n, .ofBool b]) := by
  have hfound : (⟨Decls.prelude⟩ : Decls).find? "Tuple2" = some Decls.tupleDecl := by
    simp [Decls.find?, Decls.prelude, Decls.listDecl, Decls.tupleDecl]
  have hbuilds : Builds ⟨Decls.prelude⟩ (.sum "Tuple2" [.integer, .boolean]) 0
      [.integer, .boolean] :=
    .sum hfound (c := "Tuple2") rfl rfl
  refine .constr (by decide) hbuilds rfl ?_
  simp only [List.zip_cons_cons, List.zip_nil_left, List.forall_mem_cons]
  exact ⟨.builtin ⟨n, rfl, rfl⟩, .builtin ⟨b, rfl, rfl⟩, by simp⟩

/-- A list of pairs packed item by item, once right away and once by way of a
map. -/
theorem foldAlong_canonical_pairs :
    (Constant.data (.list [.ofPair (.int 1, .ofBool true)])).same
        (.data (.list [.ofPair (.int 1, .ofBool true)])) = true ∧
      Canonical ⟨Decls.prelude⟩ (.sum "List" [.sum "Tuple2" [.integer, .boolean]]) .packedList
        (.data (.list [.ofPair (.int 1, .ofBool true)])) := by
  have hc : Canonical ⟨Decls.prelude⟩ (.sum "List" [.sum "Tuple2" [.integer, .boolean]])
      .sumPairList (.dataPairList [(.int 1, .ofBool true)]) := by
    refine ⟨⟨by rfl, by rfl⟩, _, rfl, fun p hp => ⟨0, ?_⟩⟩
    obtain rfl := List.mem_singleton.1 hp
    exact encodes_tuple 1 true
  have hitems : foldAlong ⟨Decls.prelude⟩ .v3 (.sum "List" [.sum "Tuple2" [.integer, .boolean]])
      .sumPairList [.sumList, .packedList] (.dataPairList [(.int 1, .ofBool true)]) =
      some (.data (.list [.ofPair (.int 1, .ofBool true)])) := by rfl
  have hmap : foldAlong ⟨Decls.prelude⟩ .v3 (.sum "List" [.sum "Tuple2" [.integer, .boolean]])
      .sumPairList [.assocMap, .packedList] (.dataPairList [(.int 1, .ofBool true)]) =
      some (.data (.list [.ofPair (.int 1, .ofBool true)])) := by rfl
  have h := foldAlong_canonical (by decide) (by decide) (by decide) (by decide) hc hitems hmap
    (by rfl)
  exact ⟨h.2.1, h.2.2.1⟩

end Layout

end CoreLowering
