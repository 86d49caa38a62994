import CoreLowering.Proofs.Layout.Boxed

/-!
# The two directions of a conversion

Plain types are built from the primitive ones, data, builtin lists and builtin
pairs.  A constant of a plain type is packed into data, and one that was packed
is taken out again.  `Direction.change` says what becomes of a constant in
either direction, `Route` names the work by which this is done.

Main statements: `Plain.text_inj`, a plain type is known by its text, under
which helpers are kept; `Route.path`, the work is the way between the two
layouts; `Plain.change_of_foldPath`, what folding makes of a known constant.
-/

namespace CoreLowering.Encoding

open CoreLowering.Graph
open CoreLowering.Layout (Boxed)

variable {r r' : List Char} {t u : Ty}

/-- Types built from the primitive ones, data, builtin lists and builtin
pairs. -/
inductive Plain : Ty → Prop where
  | primitive {t : Ty} : FirstOrder.primitive t = true → Plain t
  | data : Plain .data
  | list {t : Ty} : Plain t → Plain (.builtinList t)
  | pair {a b : Ty} : Plain a → Plain b → Plain (.builtinPair a b)

/-! ## Texts of types -/

/-- The constructors of plain types. -/
def plainCons : List TyCon :=
  [.integer, .byteString, .string, .boolean, .unit, .data, .builtinList, .builtinPair]

/-- No name of a constructor begins another one. -/
theorem plainCons_unambiguous : ∀ c ∈ plainCons, ∀ c' ∈ plainCons,
    c.kindName.toList.isPrefixOf c'.kindName.toList = true → c = c' := by decide

theorem kindName_append_inj {c c' : TyCon} (hc : c ∈ plainCons) (hc' : c' ∈ plainCons)
    (h : c.kindName.toList ++ r = c'.kindName.toList ++ r') : c = c' ∧ r = r' := by
  have heq : c = c' := by
    rcases List.prefix_or_prefix_of_prefix (List.prefix_append _ r) (h ▸ List.prefix_append _ r')
      with hp | hp
    · exact plainCons_unambiguous c hc c' hc' (List.isPrefixOf_iff_prefix.2 hp)
    · exact (plainCons_unambiguous c' hc' c hc (List.isPrefixOf_iff_prefix.2 hp)).symm
  subst heq
  exact ⟨rfl, List.append_cancel_left h⟩

/-- The text of a type with arguments. -/
def argsText : List Ty → List Char
  | [] => []
  | t :: ts => '[' :: (t.text.toList ++ ((Ty.textsAfter ts).toList ++ [']']))

theorem Plain.text_eq (h : Plain t) :
    ∃ c args, t = .con c args ∧ c ∈ plainCons ∧
    t.text.toList = c.kindName.toList ++ argsText args := by
  cases h with
  | primitive h =>
    obtain rfl | rfl | rfl | rfl | rfl := FirstOrder.primitive_cases h <;>
      exact ⟨_, _, rfl, by decide, rfl⟩
  | data => exact ⟨_, _, rfl, by decide, rfl⟩
  | list =>
    refine ⟨_, _, rfl, by decide, ?_⟩
    simp [Ty.builtinList, Ty.text, TyCon.showsArgs, TyCon.head, argsText]
  | pair =>
    refine ⟨_, _, rfl, by decide, ?_⟩
    simp [Ty.builtinPair, Ty.text, TyCon.showsArgs, TyCon.head, argsText]

/-- Types with the same text, up to what follows, have the same constructor. -/
theorem Plain.same_con (ht : Plain t) (hu : Plain u)
    (h : t.text.toList ++ r = u.text.toList ++ r') :
    ∃ c args args', t = .con c args ∧ u = .con c args' ∧
      argsText args ++ r = argsText args' ++ r' := by
  obtain ⟨c, args, rfl, hc, htext⟩ := ht.text_eq
  obtain ⟨d, args', rfl, hd, htext'⟩ := hu.text_eq
  rw [htext, htext', List.append_assoc, List.append_assoc] at h
  obtain ⟨rfl, hargs⟩ := kindName_append_inj hc hd h
  exact ⟨c, args, args', rfl, rfl, hargs⟩

theorem Plain.text_append_inj (ht : Plain t) (hu : Plain u)
    (h : t.text.toList ++ r = u.text.toList ++ r') : t = u ∧ r = r' := by
  induction ht generalizing u r r' with
  | primitive hp =>
    obtain ⟨c, args, args', rfl, rfl, hr⟩ := (Plain.primitive hp).same_con hu h
    obtain ⟨hc, rfl⟩ : c.isPrimitive = true ∧ args = [] := by
      obtain h | h | h | h | h := FirstOrder.primitive_cases hp <;> cases h <;> exact ⟨rfl, rfl⟩
    cases hu with
    | primitive hp' =>
      obtain rfl : args' = [] := by
        obtain h | h | h | h | h := FirstOrder.primitive_cases hp' <;> cases h <;> rfl
      exact ⟨rfl, hr⟩
    | data | list | pair => cases hc
  | data =>
    obtain ⟨c, args, args', heq, rfl, h⟩ := Plain.data.same_con hu h
    cases heq
    cases hu with
    | primitive hp => cases hp
    | data => exact ⟨rfl, h⟩
  | @list e he ih =>
    obtain ⟨c, args, args', heq, rfl, h⟩ := he.list.same_con hu h
    cases heq
    cases hu with
    | primitive hp => cases hp
    | list he' =>
      simp only [argsText, List.cons_append, List.append_assoc, List.cons.injEq, true_and] at h
      obtain ⟨rfl, hr⟩ := ih he' h
      exact ⟨rfl, by simpa using hr⟩
  | @pair a b ha hb iha ihb =>
    obtain ⟨c, args, args', heq, rfl, h⟩ := (ha.pair hb).same_con hu h
    cases heq
    cases hu with
    | primitive hp => cases hp
    | pair ha' hb' =>
      simp only [argsText, Ty.textsAfter, String.toList_append, List.cons_append,
        List.append_assoc, List.cons.injEq, true_and] at h
      obtain ⟨rfl, hrest⟩ := iha ha' h
      obtain ⟨rfl, hr⟩ := ihb hb' (List.append_cancel_left hrest)
      exact ⟨rfl, by simpa using hr⟩

/-- A plain type is known by its text. -/
theorem Plain.text_inj (ht : Plain t) (hu : Plain u) (h : t.text = u.text) : t = u :=
  (ht.text_append_inj hu (congrArg (·.toList ++ []) h)).1

namespace Plain

variable {e a b : Ty}

theorem same (h : Plain t) : t.same t = true := by
  induction h with
  | primitive ht => obtain rfl | rfl | rfl | rfl | rfl := FirstOrder.primitive_cases ht <;> rfl
  | data => rfl
  | list _ ih => simp [Ty.builtinList, Ty.same, Ty.sameAll, ih]
  | pair _ _ iha ihb => simp [Ty.builtinPair, Ty.same, Ty.sameAll, iha, ihb]

theorem packable (h : Plain t) : Graph.packable t = true := by
  induction h with
  | primitive ht => obtain rfl | rfl | rfl | rfl | rfl := FirstOrder.primitive_cases ht <;> rfl
  | data => rfl
  | list _ ih => simpa [Ty.builtinList, Graph.packable] using ih
  | pair _ _ iha ihb => simpa [Ty.builtinPair, Graph.packable] using ⟨iha, ihb⟩

theorem ne_missing (h : Plain t) : t ≠ .missing := by
  rintro rfl
  cases h with
  | primitive ht => cases ht

theorem exists_constType (h : Plain t) : ∃ ct, t.constType? = some ct := by
  induction h with
  | primitive ht =>
    obtain rfl | rfl | rfl | rfl | rfl := FirstOrder.primitive_cases ht <;> exact ⟨_, rfl⟩
  | data => exact ⟨_, rfl⟩
  | list _ ih =>
    obtain ⟨ct, hct⟩ := ih
    exact ⟨.list ct, by simp [Ty.builtinList, Ty.constType?, hct]⟩
  | pair _ _ iha ihb =>
    obtain ⟨ca, ha⟩ := iha
    obtain ⟨cb, hb⟩ := ihb
    exact ⟨.pair ca cb, by simp [Ty.builtinPair, Ty.constType?, ha, hb]⟩

/-- Plain types but data have layouts of their own. -/
theorem family (h : Plain t) (hd : t ≠ .data) (ds : Decls) :
    ds.family t = .primitive ∨ ds.family t = .builtin := by
  cases h with
  | primitive ht =>
    obtain rfl | rfl | rfl | rfl | rfl := FirstOrder.primitive_cases ht <;> exact .inl rfl
  | data => exact absurd rfl hd
  | list | pair => exact .inr rfl

variable (ds : Decls)

theorem not_function (h : Plain t) : ds.family t ≠ .function := by
  cases h with
  | primitive ht =>
    obtain rfl | rfl | rfl | rfl | rfl := FirstOrder.primitive_cases ht <;> nofun
  | data | list | pair => nofun

theorem standardRep (h : Plain t) : ds.standardRep t = .constant := by
  cases h with
  | primitive ht => obtain rfl | rfl | rfl | rfl | rfl := FirstOrder.primitive_cases ht <;> rfl
  | data | list | pair => rfl

theorem packedRep (h : Plain t) : ds.packedRep t = .packed := by
  cases h with
  | primitive ht => obtain rfl | rfl | rfl | rfl | rfl := FirstOrder.primitive_cases ht <;> rfl
  | data | list | pair => rfl

end Plain

/-! ## Stored types -/

theorem Stored.plain (h : Stored t) : Plain t := by
  induction h with
  | primitive ht => exact .primitive ht
  | data => exact .data
  | list _ ih => exact .list ih

theorem Stored.unpackable (h : Stored t) : Graph.unpackable t = true := by
  induction h with
  | primitive ht => obtain rfl | rfl | rfl | rfl | rfl := FirstOrder.primitive_cases ht <;> rfl
  | data => rfl
  | list h ih =>
    obtain ⟨ct, hct⟩ := h.plain.exists_constType
    simp [Ty.builtinList, Graph.unpackable, h.plain.packable, ih, hct]

/-! ## Directions -/

/-- The two ways between the layout of a constant and the packed layout. -/
inductive Direction where
  | pack
  | unpack

namespace Direction

variable {way : Direction} {e : Ty} {c c' : Constant}

/-- The layout to begin with. -/
def source : Direction → Rep
  | pack => .constant
  | unpack => .packed

/-- The layout to arrive at. -/
def goal : Direction → Rep
  | pack => .packed
  | unpack => .constant

theorem source_ne_goal (way : Direction) : way.source ≠ way.goal := by
  cases way <;> decide

/-- The type that a constant has in the first layout. -/
def prescribed (way : Direction) (t : Ty) : Option ConstType :=
  match way with
  | pack => t.constType?
  | unpack => some .data

/-- The type that a constant has in the second layout. -/
def result (way : Direction) (t : Ty) : Option ConstType :=
  match way with
  | pack => some .data
  | unpack => t.constType?

/-- The key under which the helper for lists with items of a type is kept. -/
def key (way : Direction) (elem : Ty) : String :=
  match way with
  | pack => "pack " ++ elem.text
  | unpack => "unpack " ++ elem.text

/-- What becomes of a constant. -/
def change (way : Direction) (t : Ty) (c c' : Constant) : Prop :=
  match way with
  | pack => ∃ d, Boxed t c d ∧ c' = .data d
  | unpack => ∃ d, c = .data d ∧ d.valid = true ∧ Fold.unpack t (.data d) = some c'

/-- Helpers for different types are kept under different keys. -/
theorem key_inj (ht : Plain t) (he : Plain e) (h : way.key t = way.key e) : t = e := by
  cases way with
  | pack | unpack => exact ht.text_inj he ((String.append_right_inj _).1 h)

end Direction

section

variable (ds : Decls)

theorem Plain.normalRep (h : Plain t) (hd : t ≠ .data) (r : Rep) : ds.normalRep t r = r := by
  unfold Decls.normalRep
  split
  · rcases h.family hd ds with hf | hf <;> rw [hf]
  · rfl

/-- Neither layout can be used as the other one, unless the type is data. -/
theorem Plain.not_compatible (h : Plain t) (hd : t ≠ .data) (way : Direction) :
    ds.compatible t way.source way.goal = false := by
  have hn : ∀ r, ds.normalRep t r = r := h.normalRep ds hd
  rcases h.family hd ds with hf | hf <;> cases way <;>
    simp [Direction.source, Direction.goal, Decls.compatible, Decls.alwaysCompatible,
      Decls.looksSame, Decls.knownRep, hn, hf, Rep.isTypeVar, Decls.isShared]

theorem normalRep_data (r : Rep) : ds.normalRep .data r = r := by
  unfold Decls.normalRep
  split <;> rfl

/-- The two layouts of data are the same. -/
theorem compatible_data (way : Direction) : ds.compatible .data way.source way.goal = true := by
  have hf : ds.family .data = .data := rfl
  cases way <;>
    simp [Direction.source, Direction.goal, Decls.compatible, Decls.alwaysCompatible,
      Decls.looksSame, Decls.knownRep, normalRep_data, Decls.isShared, hf, Rep.isTypeVar]

end

/-- Data is left as it is. -/
theorem eq_of_change_data {way : Direction} {c c' : Constant} (h : way.change .data c c') :
    c' = c := by
  cases way with
  | pack =>
    obtain ⟨d, ⟨rfl, -⟩, rfl⟩ := h
    rfl
  | unpack =>
    obtain ⟨d, rfl, -, hd⟩ := h
    exact (Option.some.inj hd).symm

/-! ## What is taken out of data -/

theorem same_data_of_ne (h : t ≠ .data) : t.same .data = false :=
  Bool.eq_false_iff.2 fun hs => h (Ty.eq_data_of_same hs)

theorem same_pair_of_ne (h : t ≠ dataPairT) : t.same dataPairT = false :=
  Bool.eq_false_iff.2 fun hs => h (Ty.eq_dataPairT_of_same hs)

section

variable {d : Data} {c : Constant} {e : Ty}

theorem unpack_integer (h : Fold.unpack .integer (.data d) = some c) :
    ∃ n, d = .int n ∧ c = .integer n := by
  simp only [Ty.integer, Fold.unpack, Constant.data?] at h
  split at h <;> cases h
  rename_i heq
  exact ⟨_, Option.some.inj heq, rfl⟩

theorem unpack_byteString (h : Fold.unpack .byteString (.data d) = some c) :
    ∃ b, d = .bytes b ∧ c = .byteString b := by
  simp only [Ty.byteString, Fold.unpack, Constant.data?] at h
  split at h <;> cases h
  rename_i heq
  exact ⟨_, Option.some.inj heq, rfl⟩

theorem unpack_string (h : Fold.unpack .string (.data d) = some c) :
    ∃ b text, d = .bytes b ∧ b.toString? = some text ∧ c = .string text := by
  simp only [Ty.string, Fold.unpack, Constant.data?] at h
  split at h
  · rename_i b heq
    obtain ⟨text, htext, rfl⟩ := Option.map_eq_some_iff.1 h
    exact ⟨b, text, Option.some.inj heq, htext, rfl⟩
  · cases h

theorem unpack_boolean (h : Fold.unpack .boolean (.data d) = some c) :
    ∃ tag fields, d = .constr tag fields ∧ c = .bool (tag == 1) := by
  simp only [Ty.boolean, Fold.unpack, Constant.data?] at h
  split at h <;> cases h
  rename_i heq
  exact ⟨_, _, Option.some.inj heq, rfl⟩

theorem unpack_unit (h : Fold.unpack .unit (.data d) = some c) : c = .unit :=
  (Option.some.inj h).symm

theorem unpack_pair (h : Fold.unpack dataPairT (.data d) = some c) :
    ∃ tag a b, d = .constr tag [a, b] ∧ c = .pairOf (.data a) (.data b) := by
  obtain ⟨p, hp, rfl⟩ := Option.map_eq_some_iff.1 h
  obtain ⟨x, hx, hp⟩ := Option.bind_eq_some_iff.1 hp
  cases hx
  unfold Data.twoFields? at hp
  split at hp <;> cases hp
  exact ⟨_, _, _, rfl, rfl⟩

theorem unpack_map (h : Fold.unpack (.builtinList dataPairT) (.data d) = some c) :
    ∃ entries, d = .map entries ∧ c = .dataPairList entries := by
  have h : Fold.unpackMap (.data d) = some c := h
  unfold Fold.unpackMap at h
  split at h <;> cases h
  rename_i heq
  exact ⟨_, Option.some.inj heq, rfl⟩

/-- Lists but those of pairs of data are packed item by item. -/
theorem boxed_list (hp : e ≠ dataPairT) (h : Boxed (.builtinList e) c d) :
    ∃ ct cs ds, e.constType? = some ct ∧ c = .list ct cs ∧ d = .list ds ∧
      List.Forall₂ (fun x p => Boxed e x p) cs ds := by
  rwa [Ty.builtinList, Boxed, if_neg (by simp [same_pair_of_ne hp])] at h

theorem unpack_list {ct : ConstType} (hp : e ≠ dataPairT) (hct : e.constType? = some ct)
    (h : Fold.unpack (.builtinList e) (.data d) = some c) :
    ∃ ds cs, d = .list ds ∧ c = .list ct cs ∧
      List.Forall₂ (fun x y => Fold.unpack e (.data x) = some y) ds cs := by
  rw [Ty.builtinList, Fold.unpack, same_pair_of_ne hp, hct] at h
  simp only [Bool.false_eq_true, if_false, Constant.data?] at h
  split at h
  · rename_i xs _ heq hct
    cases hct
    obtain ⟨ys, hys, rfl⟩ := Option.map_eq_some_iff.1 h
    exact ⟨xs, ys, Option.some.inj heq, rfl, Layout.forall₂_of_mapM hys⟩
  · cases h

theorem unpack_dataList (h : Fold.unpack (.builtinList .data) (.data d) = some c) :
    ∃ ds, d = .list ds ∧ c = .dataList ds := by
  obtain ⟨ds, cs, rfl, rfl, hall⟩ := unpack_list (by nofun) rfl h
  have hcs : ds.map .data = cs := by
    rw [← List.forall₂_eq_eq_eq, List.forall₂_map_left_iff]
    exact hall.imp fun _ _ h => Option.some.inj h
  exact ⟨ds, rfl, by rw [← hcs]; rfl⟩

end

/-! ## The work of conversions -/

/-- The work that brings constants of a type from one layout to the other.
Data itself needs none. -/
inductive Route : Direction → Ty → Work → Prop where
  | packInteger : Route .pack .integer (.call .iData)
  | packByteString : Route .pack .byteString (.call .bData)
  | packString : Route .pack .string .packString
  | packBoolean : Route .pack .boolean .packBool
  | packUnit : Route .pack .unit .packUnit
  | packDataList : Route .pack (.builtinList .data) (.call .listData)
  | packMap : Route .pack (.builtinList dataPairT) (.call .mapData)
  | packItems {e : Ty} {work : Work} : Route .pack e work → e ≠ dataPairT →
      Route .pack (.builtinList e) (.packItems e)
  | packPair : Route .pack dataPairT .packPair
  | packComponents {a b : Ty} : Plain a → Plain b → ¬(a = .data ∧ b = .data) →
      Route .pack (.builtinPair a b) (.packComponents a b)
  | unpackInteger : Route .unpack .integer (.call .unIData)
  | unpackByteString : Route .unpack .byteString (.call .unBData)
  | unpackString : Route .unpack .string .unpackString
  | unpackBoolean : Route .unpack .boolean .unpackBool
  | unpackUnit : Route .unpack .unit .unpackUnit
  | unpackDataList : Route .unpack (.builtinList .data) (.call .unListData)
  | unpackMap : Route .unpack (.builtinList dataPairT) (.call .unMapData)
  | unpackItems {e : Ty} {work : Work} {ct : ConstType} : Route .unpack e work → e ≠ dataPairT →
      e.constType? = some ct → Route .unpack (.builtinList e) (.unpackItems e ct)
  | unpackPair : Route .unpack dataPairT .unpackPair

theorem plain_dataPairT : Plain dataPairT := .pair .data .data

/-- Plain types but data have work to pack their constants. -/
theorem Plain.exists_pack (h : Plain t) : t = .data ∨ ∃ work, Route .pack t work := by
  induction h with
  | primitive ht =>
    obtain rfl | rfl | rfl | rfl | rfl := FirstOrder.primitive_cases ht
    · exact .inr ⟨_, .packInteger⟩
    · exact .inr ⟨_, .packByteString⟩
    · exact .inr ⟨_, .packString⟩
    · exact .inr ⟨_, .packBoolean⟩
    · exact .inr ⟨_, .packUnit⟩
  | data => exact .inl rfl
  | @list e he ih =>
    rcases ih with rfl | ⟨work, hw⟩
    · exact .inr ⟨_, .packDataList⟩
    · by_cases hp : e = dataPairT
      · subst hp
        exact .inr ⟨_, .packMap⟩
      · exact .inr ⟨_, .packItems hw hp⟩
  | @pair a b ha hb =>
    by_cases hd : a = .data ∧ b = .data
    · obtain ⟨rfl, rfl⟩ := hd
      exact .inr ⟨_, .packPair⟩
    · exact .inr ⟨_, .packComponents ha hb hd⟩

/-- Plain types but data whose constants can be unpacked have work for it. -/
theorem Plain.exists_unpack (h : Plain t) (hu : unpackable t = true) :
    t = .data ∨ ∃ work, Route .unpack t work := by
  induction h with
  | primitive ht =>
    obtain rfl | rfl | rfl | rfl | rfl := FirstOrder.primitive_cases ht
    · exact .inr ⟨_, .unpackInteger⟩
    · exact .inr ⟨_, .unpackByteString⟩
    · exact .inr ⟨_, .unpackString⟩
    · exact .inr ⟨_, .unpackBoolean⟩
    · exact .inr ⟨_, .unpackUnit⟩
  | data => exact .inl rfl
  | @list e he ih =>
    simp only [Ty.builtinList, unpackable, Bool.and_eq_true] at hu
    obtain ⟨ct, hct⟩ := he.exists_constType
    rcases ih hu.1.2 with rfl | ⟨work, hw⟩
    · exact .inr ⟨_, .unpackDataList⟩
    · by_cases hp : e = dataPairT
      · subst hp
        exact .inr ⟨_, .unpackMap⟩
      · exact .inr ⟨_, .unpackItems hw hp hct⟩
  | pair =>
    have heq := Ty.eq_dataPairT_of_same hu
    exact .inr ⟨.unpackPair, by rw [Ty.builtinPair, heq]; exact .unpackPair⟩

namespace Route

variable {way : Direction} {work : Work} {c c' : Constant} {d : Data}

theorem plain (h : Route way t work) : Plain t := by
  induction h with
  | packDataList | unpackDataList => exact .list .data
  | packMap | unpackMap => exact .list plain_dataPairT
  | packItems _ _ ih | unpackItems _ _ _ ih => exact .list ih
  | packPair | unpackPair => exact plain_dataPairT
  | packComponents ha hb _ => exact .pair ha hb
  | _ => exact .primitive rfl

theorem ne_data (h : Route way t work) : t ≠ .data := by
  cases h <;> nofun

theorem unpackable (h : Route .unpack t work) : Graph.unpackable t = true := by
  generalize hway : Direction.unpack = way at h
  induction h with
  | unpackItems he _ hct ih =>
    simp [Ty.builtinList, Graph.unpackable, he.plain.packable, ih rfl, hct]
  | packInteger | packByteString | packString | packBoolean | packUnit | packDataList | packMap |
    packItems | packPair | packComponents => cases hway
  | _ => rfl

/-! ### The two layouts -/

variable (ds : Decls) (version : Version)

theorem normalRep (h : Route way t work) (r : Rep) : ds.normalRep t r = r :=
  h.plain.normalRep ds h.ne_data r

theorem not_compatible (h : Route way t work) : ds.compatible t way.source way.goal = false :=
  h.plain.not_compatible ds h.ne_data way

theorem edges_list {e : Ty} (he : Plain e) (hd : e ≠ .data) (hp : e ≠ dataPairT) :
    edges ds version (.builtinList e) = ⟨.constant, .packed, .packItems e⟩ ::
      match Graph.unpackable e, e.constType? with
      | true, some ct => [⟨.packed, .constant, .unpackItems e ct⟩]
      | _, _ => [] := by
  cases hu : Graph.unpackable e <;> cases hct : e.constType? <;>
    simp [edges, Ty.builtinList, Ty.unwrap, Ty.elem, builtinListEdges,
      same_data_of_ne hd, same_pair_of_ne hp, he.packable, hu, hct]

theorem edges_pair {a b : Ty} (ha : Plain a) (hb : Plain b) (hd : ¬(a = .data ∧ b = .data)) :
    edges ds version (.builtinPair a b) = [⟨.constant, .packed, .packComponents a b⟩] := by
  have hne : Ty.builtinPair a b ≠ dataPairT := by
    intro heq
    injection heq with _ hargs
    injection hargs with h1 hargs
    injection hargs with h2
    exact hd ⟨h1, h2⟩
  have hsame := same_pair_of_ne hne
  rw [Ty.builtinPair] at hsame
  simp [edges, Ty.builtinPair, Ty.unwrap, builtinPairEdges, hsame, ha.packable,
    hb.packable]

/-- **The work is the way between the two layouts.** -/
theorem path (h : Route way t work) :
    path? (edges ds version t) way.source way.goal =
      some [⟨way.source, way.goal, work⟩] := by
  cases h with
  | packItems he hp =>
    rw [edges_list ds version he.plain he.ne_data hp]
    split <;> rfl
  | packComponents ha hb hd =>
    rw [edges_pair ds version ha hb hd]
    rfl
  | unpackItems he hp hct =>
    rw [edges_list ds version he.plain he.ne_data hp, he.unpackable, hct]
    rfl
  | _ => rfl

/-! ### Known constants -/

theorem fold_pack (h : Route .pack t work) (hc : Boxed t c d) : work.fold c = some (.data d) := by
  cases h with
  | packDataList =>
    obtain ⟨ct, cs, ds, -, rfl, rfl, hall⟩ := boxed_list (by nofun) hc
    have hitems : cs.mapM Constant.data? = some ds :=
      Layout.mapM_of_forall₂ hall fun x p hx => by rw [hx.1]; rfl
    simp only [Work.fold, foldCall, Fold.packList, Constant.dataItems,
      Constant.items, hitems, Option.map_some]
  | _ => exact hc.pack

theorem fold_unpack (h : Route .unpack t work) : work.fold (.data d) = Fold.unpack t (.data d) := by
  cases h with
  | unpackDataList =>
    cases d with
    | list ds =>
      have hitems : ds.mapM (fun x => Fold.unpack .data (.data x)) =
          some (ds.map .data) :=
        Layout.mapM_of_forall₂ (List.forall₂_map_right_iff.2
          (List.forall₂_same.2 fun _ _ => rfl)) fun x y (h : .data x = y) => by rw [← h]; rfl
      have hunpack : Fold.unpack (.builtinList .data) (.data (.list ds)) =
          (ds.mapM fun x => Fold.unpack .data (.data x)).map fun xs => .list .data xs := rfl
      rw [hunpack, hitems]
      rfl
    | _ => rfl
  | _ => rfl

/-- **What the work does to a known constant** is what becomes of it. -/
theorem change_of_fold (h : Route way t work) (hc : c.WellFormed)
    (htype : way.prescribed t = some c.type) (hfold : work.fold c = some c') :
    way.change t c c' := by
  cases way with
  | pack =>
    obtain ⟨d, hd⟩ := Layout.exists_boxed h.plain.packable htype hc
    rw [h.fold_pack hd] at hfold
    exact ⟨d, hd, (Option.some.inj hfold).symm⟩
  | unpack =>
    unfold Constant.WellFormed at hc
    obtain ⟨d, rfl⟩ : ∃ d, c = .data d := by
      cases c <;> first | cases htype; done | exact ⟨_, rfl⟩ | cases hc
    rw [h.fold_unpack] at hfold
    rw [Constant.wellFormed] at hc
    exact ⟨d, rfl, hc, hfold⟩

/-- What unpacking gives is of the type of the constants, and well formed if it
is taken out of valid data. -/
theorem of_unpack (h : Route .unpack t work) (hc : Fold.unpack t (.data d) = some c) :
    t.constType? = some c.type ∧ (d.valid = true → c.wellFormed = true) := by
  generalize hway : Direction.unpack = way at h
  induction h generalizing c d with
  | packInteger | packByteString | packString | packBoolean | packUnit | packDataList | packMap |
    packItems | packPair | packComponents => cases hway
  | unpackInteger =>
    obtain ⟨_, -, rfl⟩ := unpack_integer hc
    exact ⟨rfl, fun _ => rfl⟩
  | unpackByteString =>
    obtain ⟨_, -, rfl⟩ := unpack_byteString hc
    exact ⟨rfl, fun _ => rfl⟩
  | unpackString =>
    obtain ⟨_, _, -, -, rfl⟩ := unpack_string hc
    exact ⟨rfl, fun _ => rfl⟩
  | unpackBoolean =>
    obtain ⟨_, _, -, rfl⟩ := unpack_boolean hc
    exact ⟨rfl, fun _ => rfl⟩
  | unpackUnit =>
    rw [unpack_unit hc]
    exact ⟨rfl, fun _ => rfl⟩
  | unpackDataList =>
    obtain ⟨ds, rfl, rfl⟩ := unpack_dataList hc
    exact ⟨rfl, fun hd => Constant.wellFormed_dataList (Data.validAll_iff.1 hd)⟩
  | unpackMap =>
    obtain ⟨entries, rfl, rfl⟩ := unpack_map hc
    exact ⟨rfl, fun hd => Constant.wellFormed_dataPairList (Data.validEntries_iff.1 hd)⟩
  | unpackItems he hp hct ih =>
    obtain ⟨ds, cs, rfl, rfl, hall⟩ := unpack_list hp hct hc
    refine ⟨by simp [Ty.builtinList, Ty.constType?, hct, Constant.type], fun hd => ?_⟩
    rw [Constant.wellFormed, Bool.and_eq_true]
    refine ⟨Ty.constType?_valid hct, Constant.wellFormedAll_iff.2 fun x hx => ?_⟩
    obtain ⟨d, hmem, hd'⟩ := Layout.exists_of_mem_forall₂ hall.flip hx
    obtain ⟨htype, hformed⟩ := ih hd' hway
    rw [hct] at htype
    exact ⟨(Option.some.inj htype).symm, hformed (Data.validAll_iff.1 hd d hmem)⟩
  | unpackPair =>
    obtain ⟨tag, a, b, rfl, rfl⟩ := unpack_pair hc
    refine ⟨rfl, fun hd => ?_⟩
    have hvalid := Data.validAll_iff.1 hd
    exact Constant.wellFormed_pairOf (hvalid a (by simp)) (hvalid b (by simp))

theorem result_of_change (h : Route way t work) (hc : way.change t c c') :
    way.result t = some c'.type := by
  cases way with
  | pack =>
    obtain ⟨d, -, rfl⟩ := hc
    rfl
  | unpack =>
    obtain ⟨d, rfl, -, hd⟩ := hc
    exact (h.of_unpack hd).1

theorem wellFormed_of_change (h : Route way t work) (hc : way.change t c c') :
    c'.wellFormed = true := by
  cases way with
  | pack =>
    obtain ⟨d, hd, rfl⟩ := hc
    rw [Constant.wellFormed]
    exact hd.data_valid
  | unpack =>
    obtain ⟨d, rfl, hvalid, hd⟩ := hc
    exact (h.of_unpack hd).2 hvalid

end Route

/-! ## Folding along the way -/

section

variable {way : Direction} {c c' : Constant} {ds : Decls} {version : Version}

/-- Types whose constants cannot be unpacked have no way to do so. -/
theorem Plain.path_unpack (h : Plain t) (hu : unpackable t = false) :
    path? (edges ds version t) .packed .constant = none := by
  cases h with
  | primitive ht =>
    obtain rfl | rfl | rfl | rfl | rfl := FirstOrder.primitive_cases ht <;> cases hu
  | data => cases hu
  | @list e he =>
    have hd : e ≠ .data := by
      rintro rfl
      cases hu
    have hp : e ≠ dataPairT := by
      rintro rfl
      cases hu
    obtain ⟨ct, hct⟩ := he.exists_constType
    have hu : Graph.unpackable e = false := by
      simpa [Ty.builtinList, unpackable, he.packable, hct] using hu
    rw [Route.edges_list ds version he hd hp, hu]
    rfl
  | @pair a b ha hb =>
    have hd : ¬(a = .data ∧ b = .data) := by
      rintro ⟨rfl, rfl⟩
      cases hu
    rw [Route.edges_pair ds version ha hb hd]
    rfl

/-- A constant is folded as it is if its type is data, else by the work for the
type. -/
theorem Plain.fold_of_foldPath (h : Plain t)
    (hfold : foldPath ds version t way.source way.goal c = some c') :
    t = .data ∧ c' = c ∨ ∃ work, Route way t work ∧ work.fold c = some c' := by
  have hrep : (way.source.isClosure || way.goal.isClosure || way.source.isTypeVar ||
      way.goal.isTypeVar) = false := by cases way <;> rfl
  rw [foldPath, hrep, if_neg Bool.false_ne_true] at hfold
  by_cases hd : t = .data
  · subst hd
    simp only [normalRep_data, compatible_data, if_true] at hfold
    exact .inl ⟨rfl, (Option.some.inj hfold).symm⟩
  · simp only [h.normalRep ds hd, h.not_compatible ds hd, Bool.false_eq_true, if_false] at hfold
    have hroute : ∃ work, Route way t work := by
      cases way with
      | pack => exact h.exists_pack.resolve_left hd
      | unpack =>
        cases hu : unpackable t with
        | true => exact (h.exists_unpack hu).resolve_left hd
        | false =>
          have hnone : path? (edges ds version t) Direction.unpack.source
            Direction.unpack.goal = none := h.path_unpack hu
          rw [hnone] at hfold
          cases hfold
    obtain ⟨work, hr⟩ := hroute
    refine .inr ⟨work, hr, ?_⟩
    simpa [hr.path] using hfold

/-- **What folding makes of a constant** is what becomes of it. -/
theorem Plain.change_of_foldPath (h : Plain t) (hc : c.WellFormed)
    (htype : way.prescribed t = some c.type)
    (hfold : foldPath ds version t way.source way.goal c = some c') :
    way.change t c c' ∧ c'.WellFormed ∧ (t = .data ∨ ∃ work, Route way t work) := by
  rcases h.fold_of_foldPath hfold with ⟨rfl, rfl⟩ | ⟨work, hr, hwork⟩
  · refine ⟨?_, hc, .inl rfl⟩
    unfold Constant.WellFormed at hc
    have htype : some ConstType.data = some c'.type := by cases way <;> exact htype
    obtain ⟨d, rfl⟩ : ∃ d, c' = .data d := by
      cases c' <;> first | cases htype; done | exact ⟨_, rfl⟩ | cases hc
    rw [Constant.wellFormed] at hc
    cases way with
    | pack => exact ⟨d, ⟨rfl, hc⟩, rfl⟩
    | unpack => exact ⟨d, rfl, hc, rfl⟩
  · have hchange := hr.change_of_fold hc htype hwork
    exact ⟨hchange, hr.wellFormed_of_change hchange, .inr ⟨work, hr⟩⟩

end

end CoreLowering.Encoding
