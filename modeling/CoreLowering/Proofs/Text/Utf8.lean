import Mathlib.Tactic.SplitIfs
import CoreLowering.Text.Utf8

/-!
# Texts as bytes and back

Lenient reading puts a replacement character where bytes make no sense.  The
bytes of a text do make sense: `lenientText_ofString` gives the text back.
-/

namespace CoreLowering.Utf8

/-! ## One character -/

/-- A byte that continues a character, by its number. -/
theorem continues_byte {lo hi n : Nat} (hn : n < 256) (h : lo ≤ n ∧ n ≤ hi) :
    continues lo hi (UInt8.ofNat n) = true := by
  simp [continues, UInt8.toNat_ofNat_of_lt' hn, h]

variable (rest : Bytes)

theorem first_one {n : Nat} (h : n < 0x80) : first (UInt8.ofNat n) rest = (Char.ofNat n, 0) := by
  have ha := UInt8.toNat_ofNat_of_lt' (show n < 256 by omega)
  simp only [first, ha, if_pos h]

theorem first_two {n b : Nat} (hn : 0xC2 ≤ n ∧ n ≤ 0xDF) (hb : 0x80 ≤ b ∧ b ≤ 0xBF) :
    first (.ofNat n) (.ofNat b :: rest) = (Char.ofNat (64 * (n % 32) + b % 64), 1) := by
  have ha := UInt8.toNat_ofNat_of_lt' (show n < 256 by omega)
  have hb' := UInt8.toNat_ofNat_of_lt' (show b < 256 by omega)
  have hbounds : secondBounds n = (0x80, 0xBF) := by
    unfold secondBounds
    split_ifs <;> first | omega | rfl
  have hcont := continues_byte (n := b) (by omega) hb
  have hlead : ¬n < 0x80 := by omega
  simp [first, ha, hbounds, hcont, append, hb', hn, hlead]

theorem first_three {n b c : Nat} (hn : 0xE0 ≤ n ∧ n ≤ 0xEF)
    (hb : (secondBounds n).1 ≤ b ∧ b ≤ (secondBounds n).2) (hb₀ : b < 256)
    (hc : 0x80 ≤ c ∧ c ≤ 0xBF) :
    first (.ofNat n) (.ofNat b :: .ofNat c :: rest) =
      (Char.ofNat (64 * (64 * (n % 16) + b % 64) + c % 64), 2) := by
  have ha := UInt8.toNat_ofNat_of_lt' (show n < 256 by omega)
  have hb' := UInt8.toNat_ofNat_of_lt' hb₀
  have hc' := UInt8.toNat_ofNat_of_lt' (show c < 256 by omega)
  have hcont := continues_byte hb₀ hb
  have hcont' := continues_byte (n := c) (by omega) hc
  have hlead : ¬n < 0x80 := by omega
  have hlead' : ¬n ≤ 0xDF := by omega
  simp [first, ha, hcont, hcont', append, hb', hc', hn, hlead, hlead']

theorem first_four {n b c d : Nat} (hn : 0xF0 ≤ n ∧ n ≤ 0xF4)
    (hb : (secondBounds n).1 ≤ b ∧ b ≤ (secondBounds n).2) (hb₀ : b < 256)
    (hc : 0x80 ≤ c ∧ c ≤ 0xBF) (hd : 0x80 ≤ d ∧ d ≤ 0xBF) :
    first (.ofNat n) (.ofNat b :: .ofNat c :: .ofNat d :: rest) =
      (Char.ofNat (64 * (64 * (64 * (n % 8) + b % 64) + c % 64) + d % 64), 3) := by
  have ha := UInt8.toNat_ofNat_of_lt' (show n < 256 by omega)
  have hb' := UInt8.toNat_ofNat_of_lt' hb₀
  have hc' := UInt8.toNat_ofNat_of_lt' (show c < 256 by omega)
  have hd' := UInt8.toNat_ofNat_of_lt' (show d < 256 by omega)
  have hcont := continues_byte hb₀ hb
  have hcont' := continues_byte (n := c) (by omega) hc
  have hcont'' := continues_byte (n := d) (by omega) hd
  have hlead : ¬n < 0x80 := by omega
  have hlead' : ¬n ≤ 0xDF := by omega
  have hlead'' : ¬n ≤ 0xEF := by omega
  simp [first, ha, hcont, hcont', hcont'', append, hb', hc', hd', hn, hlead, hlead', hlead'']

/-- The bytes of a character are read as that character. -/
theorem first_utf8EncodeChar (c : Char) :
    ∃ a bs, String.utf8EncodeChar c = a :: bs ∧ first a (bs ++ rest) = (c, bs.length) := by
  -- surrogates are no characters, so the second byte is within the bounds of the first
  have hvalid : c.toNat < 0xD800 ∨ 0xDFFF < c.toNat ∧ c.toNat < 0x110000 := c.valid
  have hself : Char.ofNat c.toNat = c := Char.ofNat_toNat c
  have hval : c.val.toNat = c.toNat := rfl
  unfold String.utf8EncodeChar
  simp only [hval]
  generalize c.toNat = n at *
  subst hself
  split_ifs with h1 h2 h3
  · exact ⟨_, _, rfl, first_one rest (by omega)⟩
  · refine ⟨_, _, rfl, (first_two rest (by omega) (by omega)).trans ?_⟩
    congr 2
    omega
  · refine ⟨_, _, rfl, (first_three rest (by omega) ?_ (by omega) (by omega)).trans ?_⟩
    · unfold secondBounds
      split_ifs <;> simp only <;> omega
    · congr 2
      omega
  · refine ⟨_, _, rfl, (first_four rest (by omega) ?_ (by omega) (by omega) (by omega)).trans ?_⟩
    · unfold secondBounds
      split_ifs <;> simp only <;> omega
    · congr 2
      omega

/-! ## Texts -/

theorem lenient_flatMap (cs : List Char) : lenient (cs.flatMap String.utf8EncodeChar) = cs := by
  induction cs with
  | nil => rw [List.flatMap_nil, lenient]
  | cons c cs ih =>
    obtain ⟨a, bs, heq, hfirst⟩ := first_utf8EncodeChar (cs.flatMap String.utf8EncodeChar) c
    rw [List.flatMap_cons, heq, List.cons_append, lenient, hfirst]
    simp only [List.drop_left, ih]

theorem toList_loop (b : ByteArray) (i : Nat) (acc : List UInt8) :
    ByteArray.toList.loop b i acc = acc.reverse ++ b.data.toList.drop i := by
  fun_induction ByteArray.toList.loop b i acc with
  | case1 i acc hlt ih =>
    have hi : i < b.data.toList.length := hlt
    rw [ih, List.reverse_cons, List.append_assoc, List.drop_eq_getElem_cons hi]
    have hget : b.get! i = b.data.toList[i] := by
      rw [Array.getElem_toList]
      exact getElem!_pos b.data i hlt
    rw [hget]
    rfl
  | case2 i acc hle =>
    have hi : b.data.toList.length ≤ i := Nat.le_of_not_lt hle
    rw [List.drop_eq_nil_of_le hi, List.append_nil]

theorem ofString_eq_data (s : String) : Bytes.ofString s = s.toUTF8.data.toList := by
  rw [Bytes.ofString, ByteArray.toList, toList_loop]
  rfl

theorem ofString_eq (s : String) : Bytes.ofString s = s.toList.flatMap String.utf8EncodeChar := by
  rw [ofString_eq_data, String.toUTF8_eq_toByteArray, ← String.utf8Encode_toList]
  simp [List.utf8Encode]

/-- **The bytes of a text are read as the text.** -/
@[simp]
theorem lenientText_ofString (s : String) : lenientText (Bytes.ofString s) = s := by
  rw [lenientText, ofString_eq, lenient_flatMap, String.ofList_toList]

end CoreLowering.Utf8
