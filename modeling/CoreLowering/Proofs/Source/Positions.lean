import CoreLowering.Source.FileSet

/-!
# Positions and lines

Offsets become positions by a search among the newlines, and the text of a
line is cut out between two of them.  Both describe the same partition of the
file: its parts between newlines.

Main statements: `bisect_eq`, what the search finds; `line?_eq_splitOn`, the
lines are the parts between newlines; `positions_and_lines_agree`.
-/

namespace CoreLowering.SourceFile

variable {bytes : Bytes} {newlines : List Nat} {offset : Nat}

/-! ## Newlines -/

theorem newlinesFrom_succ (start : Nat) (bytes : Bytes) :
    newlinesFrom (start + 1) bytes = (newlinesFrom start bytes).map (· + 1) := by
  induction bytes generalizing start with
  | nil => rfl
  | cons b rest ih =>
    simp only [newlinesFrom, ih]
    split <;> rfl

/-- The first `k` of the newlines come before an offset, and no others. -/
structure Split (newlines : List Nat) (offset k : Nat) : Prop where
  le_length : k ≤ newlines.length
  lt_iff {i n : Nat} : newlines[i]? = some n → (n < offset ↔ i < k)

/-- There are as many newlines before an offset as among the bytes up to it. -/
theorem split_newlines (bytes : Bytes) (offset : Nat) :
    Split (newlinesFrom 0 bytes) offset ((bytes.take offset).count 10) := by
  induction bytes generalizing offset with
  | nil => exact ⟨by simp, by simp [newlinesFrom]⟩
  | cons b rest ih =>
    cases offset with
    | zero => exact ⟨by simp, by simp⟩
    | succ offset =>
      obtain ⟨hle, hlt⟩ := ih offset
      rw [List.take_succ_cons, List.count_cons]
      simp only [newlinesFrom, newlinesFrom_succ, beq_iff_eq]
      split
      · refine ⟨by simpa using hle, fun {i n} hn => ?_⟩
        cases i with
        | zero =>
          cases hn
          simp
        | succ i =>
          obtain ⟨m, hm, rfl⟩ := by simpa using hn
          simpa using hlt hm
      · refine ⟨by simpa using hle, fun {i n} hn => ?_⟩
        obtain ⟨m, hm, rfl⟩ := by simpa using hn
        simpa using hlt hm

/-- **The search** finds the number of newlines before the offset. -/
theorem bisect_eq {k lo hi : Nat} (h : Split newlines offset k) (hlo : lo ≤ k) (hk : k ≤ hi)
    (hhi : hi ≤ newlines.length) : bisect newlines offset lo hi = k := by
  -- The place that is looked for stays between the two bounds.
  fun_induction bisect newlines offset lo hi with
  | case1 lo hi hlt mid hmid ih =>
    have hget : newlines[mid]? = some (newlines.getD mid 0) := by grind
    have hbefore := (h.lt_iff hget).1 hmid
    exact ih (by omega) hk hhi
  | case2 lo hi hlt mid hmid ih =>
    have hget : newlines[mid]? = some (newlines.getD mid 0) := by grind
    have hbefore := mt (h.lt_iff hget).2 hmid
    exact ih hlo (by omega) (by omega)
  | case3 lo hi hlt => omega

/-! ## Lines -/

/-- **The lines** are the parts of the file between its newlines. -/
theorem line?_eq_splitOn {f : SourceFile} (hf : f.content = some bytes) (n : Nat) :
    f.line? (n + 1) = (bytes.splitOn 10)[n]? := by
  obtain ⟨path, content⟩ := f
  cases hf
  induction bytes generalizing n with
  | nil => cases n <;> simp [line?, lineStart, lineStop, newlines, newlinesFrom, size]
  | cons b rest ih =>
    simp only [line?, lineStart, lineStop, newlines, newlinesFrom, newlinesFrom_succ, size,
      Option.getD_some] at ih ⊢
    rw [List.splitOn_cons_eq_if_modifyHead]
    by_cases hb : b = 10
    · -- A newline ends an empty first line and moves the others by one.
      rcases n with _ | _ | n
      · simp [hb]
      · simp [hb, ← ih 0]
      · cases h : (newlinesFrom 0 rest)[n]? <;> simp [hb, h, ← ih (n + 1)]
    · -- Any other byte comes in front of the first line.
      cases n with
      | zero => simp [hb, ← ih 0]
      | succ n => cases h : (newlinesFrom 0 rest)[n]? <;> simp [hb, h, ← ih (n + 1)]

theorem not_mem_of_mem_splitOn {line : Bytes} (h : line ∈ bytes.splitOn 10) : 10 ∉ line := by
  induction bytes generalizing line with
  | nil => simp_all
  | cons b rest ih =>
    rw [List.splitOn_cons_eq_if_modifyHead] at h
    cases hrest : rest.splitOn 10 with
    | nil => exact absurd hrest (List.splitOn_ne_nil 10 rest)
    | cons first lines =>
      rw [hrest, List.modifyHead_cons] at h
      rw [hrest] at ih
      grind

/-! ## Positions -/

section

variable {f : SourceFile} (hf : f.content = some bytes)
include hf

/-- The line of an offset contains it. -/
theorem line_around (hoffset : offset ≤ bytes.length) :
    f.lineStart ((bytes.take offset).count 10 + 1) ≤ offset ∧
      offset ≤ f.lineStop ((bytes.take offset).count 10 + 1) := by
  have hsplit := split_newlines bytes offset
  generalize (bytes.take offset).count 10 = k at hsplit ⊢
  constructor
  · cases k with
    | zero => simp [lineStart]
    | succ k =>
      have hn := List.getElem?_eq_getElem hsplit.le_length
      have hlt := (hsplit.lt_iff hn).2 (Nat.lt_succ_self k)
      simpa [lineStart, newlines, hf, hn] using Nat.succ_le_of_lt hlt
  · cases hn : (newlinesFrom 0 bytes)[k]? with
    | none => simpa [lineStop, newlines, size, hf, hn] using hoffset
    | some n =>
      have hle := mt (hsplit.lt_iff hn).1 (Nat.lt_irrefl k)
      simpa [lineStop, newlines, hf, hn] using hle

/-- The position of an offset: its line, and how far it is from where that
line starts. -/
theorem position_eq (hsize : bytes.length + 1 < UInt32.size) {offset : UInt32}
    (hoffset : offset.toNat ≤ bytes.length) :
    (f.position offset).line.toNat = (bytes.take offset.toNat).count 10 + 1 ∧
      (f.position offset).column.toNat =
        offset.toNat - f.lineStart ((bytes.take offset.toNat).count 10 + 1) + 1 := by
  have hsplit := split_newlines bytes offset.toNat
  obtain ⟨hstart, -⟩ := line_around hf hoffset
  have hcount : (bytes.take offset.toNat).count 10 ≤ bytes.length :=
    Nat.le_trans List.count_le_length (List.length_take_le' _ _)
  have hfound := bisect_eq hsplit (Nat.zero_le _) hsplit.le_length (Nat.le_refl _)
  generalize (bytes.take offset.toNat).count 10 = k at *
  have hline : (if k = 0 then 0 else (newlinesFrom 0 bytes).getD (k - 1) 0 + 1) =
      f.lineStart (k + 1) := by
    cases k with
    | zero => rfl
    | succ k =>
      have hn := List.getElem?_eq_getElem hsplit.le_length
      simp [lineStart, newlines, hf, hn]
  have hposition : f.position offset =
      ⟨UInt32.ofNat (k + 1), offset - UInt32.ofNat (f.lineStart (k + 1)) + 1⟩ := by
    simp only [position, positionAmong, newlines, hf, Option.isSome_some, if_true,
      Option.getD_some, hfound, hline]
  generalize f.lineStart (k + 1) = start at *
  have hword : (UInt32.ofNat start).toNat = start := UInt32.toNat_ofNat_of_lt' (by omega)
  have hle : UInt32.ofNat start ≤ offset := by rwa [UInt32.le_iff_toNat_le, hword]
  rw [hposition]
  constructor
  · exact UInt32.toNat_ofNat_of_lt' (by omega)
  · have hdistance := UInt32.toNat_sub_of_le offset _ hle
    rw [hword] at hdistance
    rw [UInt32.toNat_add, hdistance, UInt32.toNat_one]
    exact Nat.mod_eq_of_lt (Nat.lt_of_le_of_lt (by omega) hsize)

end

/-- **Positions and lines agree.**  The line of an offset is one more than the
newlines before it; its text has no newline and goes on at the column as the
file does at the offset.  Different offsets have different positions, and the
texts of all lines, joined by newlines, are the file.  The file has to be
short enough for its columns to be words. -/
theorem positions_and_lines_agree {f : SourceFile} {bytes : Bytes} (hf : f.content = some bytes)
    (hsize : bytes.length + 1 < UInt32.size) :
    (∀ offset : UInt32, offset.toNat ≤ bytes.length →
      (f.position offset).line.toNat = (bytes.take offset.toNat).count 10 + 1 ∧
      ∃ text column, f.line? (f.position offset).line.toNat = some text ∧ 10 ∉ text ∧
        (f.position offset).column.toNat = column + 1 ∧ column ≤ text.length ∧
        text.drop column <+: bytes.drop offset.toNat) ∧
    (∀ offset offset' : UInt32, offset.toNat ≤ bytes.length → offset'.toNat ≤ bytes.length →
      f.position offset = f.position offset' → offset = offset') ∧
    ∃ texts : List Bytes, f.line? 0 = none ∧ (∀ n, f.line? (n + 1) = texts[n]?) ∧
      [10].intercalate texts = bytes := by
  have hlines := line?_eq_splitOn hf
  refine ⟨fun offset hoffset => ?_, fun offset offset' hoffset hoffset' h => ?_,
    bytes.splitOn 10, by simp [line?, hf], hlines, List.intercalate_splitOn 10⟩
  · obtain ⟨hline, hcolumn⟩ := position_eq hf hsize hoffset
    obtain ⟨hstart, hstop⟩ := line_around hf hoffset
    have hcount := (split_newlines bytes offset.toNat).le_length
    rw [hline, hcolumn]
    generalize (bytes.take offset.toNat).count 10 = k at *
    have htext : f.line? (k + 1) =
        some ((bytes.take (f.lineStop (k + 1))).drop (f.lineStart (k + 1))) := by
      have hle : k ≤ f.newlines.length := by simpa [newlines, hf] using hcount
      simp only [line?, hf]
      exact if_neg (by omega)
    refine ⟨rfl, _, _, htext, ?_, rfl, ?_, ?_⟩
    · rw [hlines] at htext
      exact not_mem_of_mem_splitOn (List.mem_of_getElem? htext)
    · rw [List.length_drop, List.length_take]
      omega
    · rw [List.drop_drop, Nat.add_sub_cancel' hstart, List.drop_take]
      exact List.take_prefix _ _
  · obtain ⟨hline, hcolumn⟩ := position_eq hf hsize hoffset
    obtain ⟨hline', hcolumn'⟩ := position_eq hf hsize hoffset'
    obtain ⟨hstart, -⟩ := line_around hf hoffset
    obtain ⟨hstart', -⟩ := line_around hf hoffset'
    rw [h, hline'] at hline
    rw [h, hcolumn', ← hline] at hcolumn
    rw [← hline] at hstart
    exact UInt32.toNat_inj.1 (by omega)

/-- The last line of a file with an empty line in it, and the offset at the
end of the file. -/
theorem positions_and_lines_agree_blank :
    let f : SourceFile := ⟨"a", some [97, 10, 10, 98]⟩
    (f.position 4).line.toNat = 3 ∧ (∃ text, f.line? 3 = some text) ∧
      (f.position 2 = f.position 3 → (2 : UInt32) = 3) := by
  have h := positions_and_lines_agree (f := ⟨"a", some [97, 10, 10, 98]⟩) rfl (by decide)
  obtain ⟨hline, text, column, htext, -⟩ := h.1 4 (by decide)
  rw [hline] at htext
  exact ⟨hline, ⟨text, htext⟩, h.2.1 2 3 (by decide) (by decide)⟩

end CoreLowering.SourceFile
