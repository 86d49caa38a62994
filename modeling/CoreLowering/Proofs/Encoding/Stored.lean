import CoreLowering.Proofs.FirstOrder.Building
import CoreLowering.Proofs.Text.Utf8
import CoreLowering.Proofs.Typed.Joins

/-!
# Types whose constants are kept in data

Constants of the primitive types, data and lists of such constants are kept
in data.  Values of one such type meet at it, where branches join.

The module also holds what texts are as bytes, and what the machine gives for
the builtins that put constants into data and take them out.
-/

namespace CoreLowering.Encoding

open CoreLowering.FirstOrder (primitive_cases)

/-- Types whose constants are kept in data: the primitive ones, data and lists
of constants that are. -/
inductive Stored : Ty → Prop where
  | primitive {t : Ty} : FirstOrder.primitive t = true → Stored t
  | data : Stored .data
  | list {t : Ty} : Stored t → Stored (.builtinList t)

/-! ## Texts as bytes, and calls -/

/-- A text is what its bytes spell. -/
@[simp]
theorem toString?_ofString (s : String) : (Bytes.ofString s).toString? = some s := by
  have hbytes : (⟨(Bytes.ofString s).toArray⟩ : ByteArray) = s.toUTF8 := by
    rw [Utf8.ofString_eq_data]
  unfold Bytes.toString? String.fromUTF8?
  rw [hbytes, String.toUTF8_eq_toByteArray, dif_pos s.isValidUTF8]
  rfl

theorem call_decodeUtf8_eq (b : Bytes) :
    Machine.call .decodeUtf8 [.con (.byteString b)] =
      match b.toString? with
      | some s => .ok (.con (.string s))
      | none => .error .notUtf8 := rfl

theorem call_decodeUtf8 {b : Bytes} {s : String} (h : b.toString? = some s) :
    Machine.call .decodeUtf8 [.con (.byteString b)] = .ok (.con (.string s)) := by
  rw [call_decodeUtf8_eq, h]

theorem call_mkCons {e : ConstType} {x : Constant} (h : e = x.type) (xs : List Constant) :
    Machine.call .mkCons [.con x, .con (.list e xs)] = .ok (.con (.list e (x :: xs))) := by
  change (if e = x.type then pure (.con (.list e (x :: xs)))
    else throw (.elementType x.type (.list e)) : Except Machine.Refusal Machine.Value) = _
  rw [if_pos h]
  rfl

theorem asDataList_dataList (ds : List Data) :
    (Machine.Value.con (.dataList ds)).asDataList = .ok ds := by
  change List.mapM _ (ds.map Constant.data) = _
  induction ds with
  | nil => rfl
  | cons d ds ih =>
    rw [List.map_cons, List.mapM_cons]
    simp only [ih]
    rfl

theorem call_listData (ds : List Data) :
    Machine.call .listData [.con (.dataList ds)] = .ok (.con (.data (.list ds))) := by
  change ((Machine.Value.con (.dataList ds)).asDataList >>= fun fields =>
    pure (Machine.Value.con (.data (.list fields))) : Except Machine.Refusal Machine.Value) = _
  rw [asDataList_dataList]
  rfl

theorem asDataPairs_dataPairList (ps : List (Data × Data)) :
    (Machine.Value.con (.dataPairList ps)).asDataPairs = .ok ps := by
  change List.mapM _ (ps.map fun p => Constant.pairOf (.data p.1) (.data p.2)) = _
  induction ps with
  | nil => rfl
  | cons p ps ih =>
    rw [List.map_cons, List.mapM_cons]
    simp only [ih]
    rfl

theorem call_mapData (ps : List (Data × Data)) :
    Machine.call .mapData [.con (.dataPairList ps)] = .ok (.con (.data (.map ps))) := by
  change ((Machine.Value.con (.dataPairList ps)).asDataPairs >>= fun entries =>
    pure (Machine.Value.con (.data (.map entries))) : Except Machine.Refusal Machine.Value) = _
  rw [asDataPairs_dataPairList]
  rfl

theorem mapM_data? (ds : List Data) : (ds.map Constant.data).mapM Constant.data? = some ds := by
  induction ds with
  | nil => rfl
  | cons d ds ih => simp [Constant.data?, ih]

theorem call_constrData {tag : Nat} (h : tag < UInt64.size) (ds : List Data) :
    Machine.call .constrData [.con (.integer tag), .con (.dataList ds)] =
      .ok (.con (.data (.constr (.ofNat tag) ds))) := by
  have hrange : ¬((tag : Int) < 0 ∨ (tag : Int) ≥ 0x10000000000000000) := by
    have : UInt64.size = 0x10000000000000000 := rfl
    omega
  change (if (tag : Int) < 0 ∨ (tag : Int) ≥ 0x10000000000000000 then _ else
    (Machine.Value.con (.dataList ds)).asDataList >>= fun fields =>
      pure (Machine.Value.con (.data (.constr (.ofNat (tag : Int).toNat) fields))) :
    Except Machine.Refusal Machine.Value) = _
  rw [if_neg hrange, asDataList_dataList, Int.toNat_natCast]
  rfl

/-! ## Types -/

namespace Stored

variable {t : Ty}

theorem con (h : Stored t) : ∃ c args, t = .con c args := by
  cases h with
  | primitive ht => cases t <;> first | exact ⟨_, _, rfl⟩ | cases ht
  | data | list => exact ⟨_, _, rfl⟩

theorem known (h : Stored t) : t.Ground ∧ t.Whole := by
  induction h with
  | primitive ht =>
    obtain rfl | rfl | rfl | rfl | rfl := primitive_cases ht <;>
      simp [Ty.Ground, Ty.Whole, Ty.integer, Ty.byteString, Ty.string, Ty.boolean, Ty.unit,
        Ty.parts, Ty.partsAll]
  | data => simp [Ty.Ground, Ty.Whole, Ty.data, Ty.parts, Ty.partsAll]
  | list _ ih =>
    simpa [Ty.Ground, Ty.Whole, Ty.builtinList, Ty.parts, Ty.partsAll] using ih

/-- Values of one and the same type meet at it. -/
theorem join_self (h : Stored t) : t.join t = some t :=
  Ty.join_self h.known.1 h.known.2

end Stored

end CoreLowering.Encoding
