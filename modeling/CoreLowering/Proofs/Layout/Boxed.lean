import CoreLowering.Proofs.Core.Constants
import CoreLowering.Proofs.Encoding.Stored

/-!
# Constants of builtin types in data

`Boxed t c d` says that the constant `c` of the builtin type `t` is packed
into the data `d`: truth values and the unit value as constructors without
fields, texts as their bytes, lists item by item, lists of pairs of data as
maps, other pairs as constructors of two fields.

Main statements: `Boxed.pack` and `Boxed.unpack`, packing and unpacking a
known constant follow this relation; `Boxed.unique`, one piece of data is the
packed form of at most one constant; `exists_boxed`, every constant of a
packable type has a packed form.
-/

namespace CoreLowering

variable {α β : Type} {R : α → β → Prop} {xs : List α} {ys : List β}

theorem Ty.eq_data_of_same {t : Ty} (h : t.same .data = true) : t = .data := by
  rcases t with ⟨c, _ | ⟨a, args⟩⟩ | _ | _ | _ <;> simp_all [Ty.data, Ty.same, Ty.sameAll]

theorem Ty.eq_dataPairT_of_same {t : Ty} (h : t.same Graph.dataPairT = true) :
    t = Graph.dataPairT := by
  rcases t with ⟨c, _ | ⟨a, _ | ⟨b, _ | ⟨e, args⟩⟩⟩⟩ | _ | _ | _ <;>
    simp_all [Graph.dataPairT, Ty.builtinPair, Ty.same, Ty.sameAll]
  exact ⟨Ty.eq_data_of_same h.2.1, Ty.eq_data_of_same h.2.2⟩

theorem Ty.constType?_valid {t : Ty} {ct : ConstType} (h : t.constType? = some ct) :
    ct.valid = true := by
  fun_induction Ty.constType? t generalizing ct with
  | case1 | case2 | case3 | case4 | case5 | case6 =>
    obtain rfl := Option.some.inj h
    rfl
  | case7 e _ ih | case8 e _ ih =>
    obtain ⟨ce, hce, rfl⟩ := Option.map_eq_some_iff.1 h
    have hvalid : ce.valid = true := ih hce
    exact hvalid
  | case9 a b _ x y hy hx iha ihb =>
    obtain rfl := Option.some.inj h
    simp [ConstType.valid, iha hx, ihb hy]
  | case11 _ _ ih => exact ih h
  | case10 | case12 => cases h

namespace Layout

open CoreLowering.Graph

/-- A constant of a builtin type and the data it is packed into. -/
def Boxed : Ty → Constant → Data → Prop
  | .all _ body, c, d => Boxed body c d
  | .con .integer _, c, d => ∃ n, c = .integer n ∧ d = .int n
  | .con .byteString _, c, d => ∃ b, c = .byteString b ∧ d = .bytes b
  | .con .string _, c, d => ∃ s, c = .string s ∧ d = .bytes (.ofString s)
  | .con .boolean _, c, d => ∃ b, c = .bool b ∧ d = .ofBool b
  | .con .unit _, c, d => c = .unit ∧ d = .ofBool false
  | .con .data _, c, d => c = .data d ∧ d.valid = true
  | .con .builtinList (e :: _), c, d =>
    if e.same dataPairT then
      ∃ ps, c = .dataPairList ps ∧ d = .map ps ∧ Data.validEntries ps = true
    else
      ∃ ct cs ds, e.constType? = some ct ∧ c = .list ct cs ∧ d = .list ds ∧
        List.Forall₂ (fun x p => Boxed e x p) cs ds
  | .con .builtinPair (a :: b :: _), c, d =>
    ∃ x y p q, c = .pairOf x y ∧ d = .ofPair (p, q) ∧ Boxed a x p ∧ Boxed b y q
  | _, _, _ => False

/-! ## Packing and unpacking follow the relation -/

theorem mapM_of_forall₂ {f : α → Option β} (h : List.Forall₂ R xs ys)
    (hf : ∀ x y, R x y → f x = some y) : xs.mapM f = some ys := by
  induction h with
  | nil => rfl
  | cons hxy _ ih => simp [hf _ _ hxy, ih]

theorem forall₂_of_mapM {f : α → Option β} (h : xs.mapM f = some ys) :
    List.Forall₂ (fun x y => f x = some y) xs ys := by
  induction xs generalizing ys with
  | nil =>
    cases h
    exact .nil
  | cons x xs ih =>
    rw [List.mapM_cons] at h
    obtain ⟨y, hy, h⟩ := Option.bind_eq_some_iff.1 h
    obtain ⟨zs, hzs, h⟩ := Option.bind_eq_some_iff.1 h
    cases h
    exact .cons hy (ih hzs)

theorem exists_of_mem_forall₂ {x : α} (h : List.Forall₂ R xs ys) (hx : x ∈ xs) :
    ∃ y ∈ ys, R x y := by
  induction h with
  | nil => cases hx
  | cons hxy _ ih =>
    rcases List.mem_cons.1 hx with rfl | hx
    · exact ⟨_, List.mem_cons_self, hxy⟩
    · obtain ⟨y, hy, hR⟩ := ih hx
      exact ⟨y, List.mem_cons_of_mem _ hy, hR⟩

theorem exists_forall₂ (h : ∀ x ∈ xs, ∃ y, R x y) : ∃ ys, List.Forall₂ R xs ys := by
  induction xs with
  | nil => exact ⟨[], .nil⟩
  | cons x xs ih =>
    obtain ⟨y, hy⟩ := h x List.mem_cons_self
    obtain ⟨ys, hys⟩ := ih fun x hx => h x (List.mem_cons_of_mem _ hx)
    exact ⟨y :: ys, .cons hy hys⟩

theorem mapM_dataPair? (ps : List (Data × Data)) :
    (Constant.dataPairList ps).items.mapM Constant.dataPair? = some ps := by
  rw [Constant.dataPairList, Constant.items, List.mapM_map]
  exact mapM_of_forall₂ (List.forall₂_same.2 fun p _ => rfl) fun p q (h : p = q) => by
    rw [← h]
    rfl

namespace Boxed

variable {t : Ty} {c c' : Constant} {d : Data}

/-- **Packing a known constant gives its packed form.** -/
theorem pack (h : Boxed t c d) : Fold.pack t c = some (.data d) := by
  fun_induction Boxed t c d with
  | case1 _ _ _ _ ih => exact ih h
  | case2 | case3 | case4 | case5 =>
    obtain ⟨_, rfl, rfl⟩ := h
    rfl
  | case6 | case7 =>
    obtain ⟨rfl, _⟩ := h
    simp_all [Fold.pack]
  | case8 e rest c d hpair =>
    obtain ⟨ps, rfl, rfl, _⟩ := h
    simp [Fold.pack, hpair, Fold.packMap, mapM_dataPair?]
  | case9 e rest c d hpair ih =>
    obtain ⟨ct, cs, ds, _, rfl, rfl, hall⟩ := h
    have hitems : cs.mapM (fun x => (Fold.pack e x).bind Constant.data?) = some ds :=
      mapM_of_forall₂ hall fun x p hx => by simp [ih x p hx, Constant.data?]
    simp [Fold.pack, hpair, Constant.items, hitems]
  | case10 a b rest c d iha ihb =>
    obtain ⟨x, y, p, q, rfl, rfl, hx, hy⟩ := h
    simp [Fold.pack, Constant.pairOf, iha x p hx, ihb y q hy, Constant.data?]
  | case11 => exact h.elim

/-- **Unpacking a packed constant gives it back.** -/
theorem unpack (ht : unpackable t = true) (h : Boxed t c d) : Fold.unpack t (.data d) = some c := by
  fun_induction Boxed t c d with
  | case1 _ _ _ _ ih => exact ih ht h
  | case2 | case3 =>
    obtain ⟨_, rfl, rfl⟩ := h
    rfl
  | case4 =>
    obtain ⟨s, rfl, rfl⟩ := h
    simp [Fold.unpack, Constant.data?]
  | case5 =>
    obtain ⟨b, rfl, rfl⟩ := h
    cases b <;> rfl
  | case6 | case7 =>
    obtain ⟨rfl, _⟩ := h
    rfl
  | case8 e rest c d hpair =>
    obtain ⟨ps, rfl, rfl, _⟩ := h
    simp [Fold.unpack, hpair, Fold.unpackMap, Constant.data?]
  | case9 e rest c d hpair ih =>
    obtain ⟨ct, cs, ds, hct, rfl, rfl, hall⟩ := h
    rw [unpackable, Bool.and_eq_true, Bool.and_eq_true] at ht
    have hitems : ds.mapM (fun x => Fold.unpack e (.data x)) = some cs :=
      mapM_of_forall₂ hall.flip fun p x hx => ih x p ht.1.2 hx
    simp [Fold.unpack, hpair, Constant.data?, hct, hitems]
  | case10 a b rest c d iha ihb =>
    obtain ⟨x, y, p, q, rfl, rfl, hx, hy⟩ := h
    have hpair := Ty.eq_dataPairT_of_same ht
    obtain ⟨rfl, rfl, rfl⟩ : a = .data ∧ b = .data ∧ rest = [] := by
      simpa [dataPairT, Ty.builtinPair] using hpair
    obtain ⟨rfl, _⟩ := hx
    obtain ⟨rfl, _⟩ := hy
    rfl
  | case11 => exact h.elim

/-- **Data is the packed form of one constant at most.** -/
theorem unique (h : Boxed t c d) (h' : Boxed t c' d) : c = c' := by
  fun_induction Boxed t c d generalizing c' with
  | case1 _ _ _ _ ih => exact ih h h'
  | case2 | case3 =>
    obtain ⟨_, rfl, rfl⟩ := h
    obtain ⟨_, rfl, heq⟩ := h'
    cases heq
    rfl
  | case4 =>
    obtain ⟨s, rfl, rfl⟩ := h
    obtain ⟨s', rfl, heq⟩ := h'
    have htext : (Bytes.ofString s).toString? = (Bytes.ofString s').toString? := by
      rw [Data.bytes.inj heq]
    rw [Encoding.toString?_ofString, Encoding.toString?_ofString] at htext
    rw [Option.some.inj htext]
  | case5 =>
    obtain ⟨b, rfl, rfl⟩ := h
    obtain ⟨b', rfl, heq⟩ := h'
    cases b <;> cases b' <;> simp_all [Data.ofBool]
  | case6 | case7 =>
    obtain ⟨rfl, _⟩ := h
    exact h'.1.symm
  | case8 e rest c d hpair =>
    obtain ⟨ps, rfl, rfl, _⟩ := h
    rw [Boxed, if_pos hpair] at h'
    obtain ⟨ps', rfl, heq, _⟩ := h'
    rw [Data.map.inj heq]
  | case9 e rest c d hpair ih =>
    obtain ⟨ct, cs, ds, hct, rfl, rfl, hall⟩ := h
    rw [Boxed, if_neg hpair] at h'
    obtain ⟨ct', cs', ds', hct', rfl, heq, hall'⟩ := h'
    obtain rfl := Data.list.inj heq
    obtain rfl := Option.some.inj (hct.symm.trans hct')
    have hcs : cs = cs' := by
      clear hct hct' heq
      induction hall generalizing cs' with
      | nil =>
        cases hall'
        rfl
      | cons hx _ ihall =>
        obtain _ | ⟨hx', hrest'⟩ := hall'
        rw [ih _ _ hx hx', ihall _ hrest']
    rw [hcs]
  | case10 a b rest c d iha ihb =>
    obtain ⟨x, y, p, q, rfl, rfl, hx, hy⟩ := h
    obtain ⟨x', y', p', q', rfl, heq, hx', hy'⟩ := h'
    obtain ⟨rfl, rfl⟩ : p = p' ∧ q = q' := by simpa [Data.ofPair] using heq
    rw [iha x p hx hx', ihb y q hy hy']
  | case11 => exact h.elim

theorem constant_typed (h : Boxed t c d) : t.constType? = some c.type ∧ c.wellFormed = true := by
  fun_induction Boxed t c d with
  | case1 _ _ _ _ ih => exact ih h
  | case2 | case3 | case4 | case5 =>
    obtain ⟨_, rfl, _⟩ := h
    exact ⟨rfl, rfl⟩
  | case6 | case7 =>
    obtain ⟨rfl, hd⟩ := h
    exact ⟨rfl, by simp_all [Constant.wellFormed]⟩
  | case8 e rest c d hpair =>
    obtain ⟨ps, rfl, rfl, hps⟩ := h
    obtain rfl := Ty.eq_dataPairT_of_same hpair
    exact ⟨rfl, Constant.wellFormed_dataPairList (Data.validEntries_iff.1 hps)⟩
  | case9 e rest c d hpair ih =>
    obtain ⟨ct, cs, ds, hct, rfl, rfl, hall⟩ := h
    refine ⟨by simp [Ty.constType?, hct, Constant.type], ?_⟩
    rw [Constant.wellFormed, Bool.and_eq_true, Constant.wellFormedAll_iff]
    refine ⟨Ty.constType?_valid hct, fun x hx => ?_⟩
    obtain ⟨p, _, hxp⟩ := exists_of_mem_forall₂ hall hx
    obtain ⟨htype, hwell⟩ := ih x p hxp
    exact ⟨Option.some.inj (htype.symm.trans hct), hwell⟩
  | case10 a b rest c d iha ihb =>
    obtain ⟨x, y, p, q, rfl, rfl, hx, hy⟩ := h
    obtain ⟨hxt, hxw⟩ := iha x p hx
    obtain ⟨hyt, hyw⟩ := ihb y q hy
    refine ⟨by simp [Ty.constType?, hxt, hyt, Constant.pairOf, Constant.type], ?_⟩
    simp [Constant.pairOf, Constant.wellFormed, Ty.constType?_valid hxt,
      Ty.constType?_valid hyt, hxw, hyw]
  | case11 => exact h.elim

theorem data_valid (h : Boxed t c d) : d.valid = true := by
  fun_induction Boxed t c d with
  | case1 _ _ _ _ ih => exact ih h
  | case2 | case3 | case4 =>
    obtain ⟨_, _, rfl⟩ := h
    rfl
  | case5 =>
    obtain ⟨b, _, rfl⟩ := h
    cases b <;> rfl
  | case6 =>
    obtain ⟨_, rfl⟩ := h
    rfl
  | case7 => exact h.2
  | case8 e rest c d hpair =>
    obtain ⟨ps, _, rfl, hps⟩ := h
    exact hps
  | case9 e rest c d hpair ih =>
    obtain ⟨ct, cs, ds, _, _, rfl, hall⟩ := h
    rw [Data.valid, Data.validAll_iff]
    intro p hp
    obtain ⟨x, _, hxp⟩ := exists_of_mem_forall₂ hall.flip hp
    exact ih x p hxp
  | case10 a b rest c d iha ihb =>
    obtain ⟨x, y, p, q, _, rfl, hx, hy⟩ := h
    simp [Data.ofPair, Data.valid, Data.validAll, iha x p hx, ihb y q hy]
  | case11 => exact h.elim

end Boxed

/-- A constant of the type of a pair is a pair. -/
theorem pair_of_type {c : Constant} {a b : ConstType} (htype : c.type = .pair a b)
    (hc : c.wellFormed = true) : ∃ x y : Constant, c = .pairOf x y ∧ x.type = a ∧ y.type = b ∧
      x.wellFormed = true ∧ y.wellFormed = true := by
  rcases c with _ | _ | _ | _ | _ | _ | _ | _ | ⟨_, _, _ | ⟨x, _ | ⟨y, _ | _⟩⟩⟩ | _ | _ <;>
    cases htype
  all_goals try cases hc
  simp only [Constant.wellFormed, Bool.and_eq_true, decide_eq_true_eq] at hc
  obtain ⟨⟨⟨⟨_, rfl⟩, rfl⟩, hxw⟩, hyw⟩ := hc
  exact ⟨x, y, rfl, rfl, rfl, hxw, hyw⟩

/-- A pair of data is made of two pieces of data. -/
theorem dataPair_of_type {c : Constant} (htype : c.type = .dataPair) (hc : c.wellFormed = true) :
    ∃ p : Data × Data, c = .pairOf (.data p.1) (.data p.2) ∧
      p.1.valid = true ∧ p.2.valid = true := by
  have data_of_type : ∀ x : Constant, x.type = .data → x.wellFormed = true →
      ∃ d : Data, x = .data d ∧ d.valid = true := by
    intro x hx hw
    cases x <;> cases hx
    · exact ⟨_, rfl, hw⟩
    · cases hw
  obtain ⟨x, y, rfl, hx, hy, hxw, hyw⟩ := pair_of_type htype hc
  obtain ⟨d, rfl, hd⟩ := data_of_type x hx hxw
  obtain ⟨e, rfl, he⟩ := data_of_type y hy hyw
  exact ⟨(d, e), rfl, hd, he⟩

/-- **Every constant of a packable type has a packed form.** -/
theorem exists_boxed {t : Ty} {c : Constant} (ht : packable t = true)
    (htype : t.constType? = some c.type) (hc : c.wellFormed = true) : ∃ d, Boxed t c d := by
  fun_induction packable t generalizing c with
  | case1 _ _ ih => exact ih ht htype hc
  | case2 e rest ih =>
    obtain ⟨ct, hct, hlist⟩ := Option.map_eq_some_iff.1 htype
    rcases c with _ | _ | _ | _ | _ | _ | _ | ⟨_, cs⟩ | _ | _ | _ <;> cases hlist
    rw [Constant.wellFormed, Bool.and_eq_true, Constant.wellFormedAll_iff] at hc
    by_cases hpair : e.same dataPairT = true
    · obtain rfl := Ty.eq_dataPairT_of_same hpair
      cases hct
      obtain ⟨ps, hps⟩ := exists_forall₂ fun x hx => dataPair_of_type (hc.2 x hx).1 (hc.2 x hx).2
      have hcs : cs = ps.map fun p => Constant.pairOf (.data p.1) (.data p.2) := by
        clear hc htype
        induction hps with
        | nil => rfl
        | cons hx _ ih => rw [List.map_cons, hx.1, ih]
      refine ⟨.map ps, ?_⟩
      rw [Boxed, if_pos hpair]
      refine ⟨ps, by rw [hcs]; rfl, rfl, Data.validEntries_iff.2 fun p hp => ?_⟩
      obtain ⟨x, _, hx⟩ := exists_of_mem_forall₂ hps.flip hp
      exact hx.2
    · obtain ⟨ds, hds⟩ := exists_forall₂ fun x hx =>
        ih ht (hct.trans (congrArg some (hc.2 x hx).1.symm)) (hc.2 x hx).2
      refine ⟨.list ds, ?_⟩
      rw [Boxed, if_neg hpair]
      exact ⟨ct, cs, ds, hct, rfl, rfl, hds⟩
  | case3 a b rest iha ihb =>
    rw [Bool.and_eq_true] at ht
    rw [Ty.constType?] at htype
    split at htype
    case h_2 => cases htype
    rename_i ca cb ha hb
    obtain ⟨x, y, rfl, rfl, rfl, hxw, hyw⟩ := pair_of_type (Option.some.inj htype).symm hc
    obtain ⟨p, hp⟩ := iha ht.1 ha hxw
    obtain ⟨q, hq⟩ := ihb ht.2 hb hyw
    exact ⟨.ofPair (p, q), x, y, p, q, rfl, rfl, hp, hq⟩
  | case4 =>
    cases c <;> cases htype
    · exact ⟨_, rfl, hc⟩
    · cases hc
  | case5 con args =>
    cases con <;> cases ht <;> cases c <;> cases htype
    · exact ⟨_, _, rfl, rfl⟩
    · exact ⟨_, _, rfl, rfl⟩
    · exact ⟨_, _, rfl, rfl⟩
    · exact ⟨_, _, rfl, rfl⟩
    · exact ⟨_, rfl, rfl⟩
  | case6 => cases ht

end Layout

end CoreLowering
