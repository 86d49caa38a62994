import CoreLowering.Core.Constant

/-!
# Valid data and well-formed constants

What the checks of data and constants say part by part.  On what passes
them, sameness is equality.
-/

namespace CoreLowering

variable {xs : List Constant} {ps : List (Data × Data)} {e : ConstType}

namespace Data

theorem validAll_iff {xs : List Data} : validAll xs = true ↔ ∀ x ∈ xs, x.valid = true := by
  induction xs with
  | nil => simp [validAll]
  | cons x xs ih => simp [validAll, ih]

theorem validEntries_iff :
    validEntries ps = true ↔ ∀ p ∈ ps, p.1.valid = true ∧ p.2.valid = true := by
  induction ps with
  | nil => simp [validEntries]
  | cons p ps ih => simp [validEntries, ih]

mutual

/-- Valid data is the same as itself. -/
theorem same_self : ∀ d : Data, d.valid = true → d.same d = true
  | .constr tag fields, h => by
    rw [valid] at h
    simp [same, sameAll_self fields h]
  | .map entries, h => by
    rw [valid] at h
    simp [same, sameEntries_self entries h]
  | .list items, h => by
    rw [valid] at h
    simp [same, sameAll_self items h]
  | .int _, _ | .bytes _, _ => by simp [same]
  | .unknown _, h => by simp [valid] at h

theorem sameAll_self : ∀ xs : List Data, validAll xs = true → sameAll xs xs = true
  | [], _ => by simp [sameAll]
  | x :: xs, h => by
    rw [validAll, Bool.and_eq_true] at h
    simp [sameAll, x.same_self h.1, sameAll_self xs h.2]

theorem sameEntries_self :
    ∀ es : List (Data × Data), validEntries es = true → sameEntries es es = true
  | [], _ => by simp [sameEntries]
  | (k, v) :: es, h => by
    rw [validEntries, Bool.and_eq_true, Bool.and_eq_true] at h
    simp [sameEntries, k.same_self h.1.1, v.same_self h.1.2, sameEntries_self es h.2]

end

mutual

/-- Data that is the same is equal. -/
theorem eq_of_same : ∀ {d e : Data}, d.same e = true → d = e
  | .constr _ _, e, h => by
    cases e with
    | constr _ _ =>
      rw [same, Bool.and_eq_true, beq_iff_eq] at h
      rw [h.1, eq_of_sameAll h.2]
    | _ => simp [same] at h
  | .map _, e, h => by
    cases e with
    | map _ => rw [eq_of_sameEntries h]
    | _ => simp [same] at h
  | .list _, e, h => by
    cases e with
    | list _ => rw [eq_of_sameAll h]
    | _ => simp [same] at h
  | .int _, e, h | .bytes _, e, h => by cases e <;> simp_all [same]
  | .unknown _, e, h => by cases e <;> simp [same] at h

theorem eq_of_sameAll : ∀ {xs ys : List Data}, sameAll xs ys = true → xs = ys
  | [], ys, h => by cases ys <;> simp_all [sameAll]
  | x :: xs, ys, h => by
    cases ys with
    | nil => simp [sameAll] at h
    | cons y ys =>
      rw [sameAll, Bool.and_eq_true] at h
      rw [eq_of_same h.1, eq_of_sameAll h.2]

theorem eq_of_sameEntries :
    ∀ {es fs : List (Data × Data)}, sameEntries es fs = true → es = fs
  | [], fs, h => by cases fs <;> simp_all [sameEntries]
  | (k, v) :: es, fs, h => by
    cases fs with
    | nil => simp [sameEntries] at h
    | cons f fs =>
      obtain ⟨l, w⟩ := f
      rw [sameEntries, Bool.and_eq_true, Bool.and_eq_true] at h
      rw [eq_of_same h.1.1, eq_of_same h.1.2, eq_of_sameEntries h.2]

end

end Data

namespace Constant

theorem wellFormedAll_iff :
    wellFormedAll e xs = true ↔ ∀ x ∈ xs, x.type = e ∧ x.wellFormed = true := by
  induction xs with
  | nil => simp [wellFormedAll]
  | cons x xs ih => simp [wellFormedAll, ih]

theorem wellFormed_list_iff :
    (Constant.list e xs).wellFormed = true ↔
      e.valid = true ∧ ∀ x ∈ xs, x.type = e ∧ x.wellFormed = true := by
  rw [wellFormed, Bool.and_eq_true, wellFormedAll_iff]

/-- A well-formed pair has two items. -/
theorem items_of_pair {a b : ConstType} (h : (Constant.pair a b xs).wellFormed = true) :
    ∃ x y, xs = [x, y] ∧ (x.type = a ∧ x.wellFormed = true) ∧
      y.type = b ∧ y.wellFormed = true := by
  rcases xs with _ | ⟨x, _ | ⟨y, _ | ⟨z, xs⟩⟩⟩
  · simp [wellFormed] at h
  · simp [wellFormed] at h
  · simp only [wellFormed, Bool.and_eq_true, decide_eq_true_eq] at h
    obtain ⟨⟨⟨⟨-, htx⟩, hty⟩, hx⟩, hy⟩ := h
    exact ⟨x, y, rfl, ⟨htx, hx⟩, hty, hy⟩
  · simp [wellFormed] at h

/-- The type of a well-formed constant has all its parts. -/
theorem valid_type {c : Constant} (h : c.wellFormed = true) : c.type.valid = true := by
  cases c with
  | list e xs | array e xs =>
    rw [wellFormed, Bool.and_eq_true] at h
    exact h.1
  | pair a b xs =>
    obtain ⟨x, y, rfl, -⟩ := items_of_pair h
    simp only [wellFormed, Bool.and_eq_true] at h
    simp [type, ConstType.valid, h]
  | noData | unknown => simp [wellFormed] at h
  | integer | byteString | string | unit | bool | data => rfl

theorem wellFormed_pairOf {a b : Constant} (ha : a.wellFormed = true)
    (hb : b.wellFormed = true) : (pairOf a b).wellFormed = true := by
  simp [pairOf, wellFormed, valid_type ha, valid_type hb, ha, hb]

theorem wellFormed_dataList {xs : List Data} (h : ∀ x ∈ xs, x.valid = true) :
    (dataList xs).wellFormed = true := by
  rw [dataList, wellFormed, Bool.and_eq_true, wellFormedAll_iff]
  refine ⟨rfl, fun x hx => ?_⟩
  obtain ⟨d, hd, rfl⟩ := List.mem_map.1 hx
  exact ⟨rfl, h d hd⟩

theorem wellFormed_dataPairList (h : ∀ p ∈ ps, p.1.valid = true ∧ p.2.valid = true) :
    (dataPairList ps).wellFormed = true := by
  rw [dataPairList, wellFormed, Bool.and_eq_true, wellFormedAll_iff]
  refine ⟨rfl, fun x hx => ?_⟩
  obtain ⟨p, hp, rfl⟩ := List.mem_map.1 hx
  exact ⟨rfl, wellFormed_pairOf (h p hp).1 (h p hp).2⟩

mutual

/-- A well-formed constant is the same as itself. -/
theorem same_self : ∀ c : Constant, c.wellFormed = true → c.same c = true
  | .integer _, _ | .byteString _, _ | .string _, _ | .unit, _ | .bool _, _ => by simp [same]
  | .data d, h => by
    rw [wellFormed] at h
    simp [same, d.same_self h]
  | .list e xs, h => by
    rw [wellFormed, Bool.and_eq_true] at h
    simp [same, sameAll_self e xs h.2]
  | .array e xs, h => by
    rw [wellFormed, Bool.and_eq_true] at h
    simp [same, sameAll_self e xs h.2]
  | .pair a b [x, y], h => by
    rw [wellFormed, Bool.and_eq_true, Bool.and_eq_true] at h
    simp [same, sameAll, x.same_self h.1.2, y.same_self h.2]
  | .pair _ _ [], h | .pair _ _ [_], h | .pair _ _ (_ :: _ :: _ :: _), h
  | .noData, h | .unknown _, h => by simp [wellFormed] at h

theorem sameAll_self (e : ConstType) :
    ∀ xs : List Constant, wellFormedAll e xs = true → sameAll xs xs = true
  | [], _ => by simp [sameAll]
  | x :: xs, h => by
    rw [wellFormedAll, Bool.and_eq_true, Bool.and_eq_true] at h
    simp [sameAll, x.same_self h.1.2, sameAll_self e xs h.2]

end

end Constant

end CoreLowering
