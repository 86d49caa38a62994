import Mathlib.Algebra.Group.Int.Defs
import Mathlib.Algebra.Group.Nat.Defs
import Mathlib.Data.List.Induction
import CoreLowering.Core.Data.Cbor
import CoreLowering.MsgPack.Reader

/-!
# Numbers as bytes

Both binary formats write a number with its highest byte first, in a width
that its head tells.  Main statements: `ofBigEndian_bigEndian`, reading gives
back what the width holds of a number; `ofBigEndian_magnitude`, the bytes of
a number without leading zeros spell it.
-/

namespace CoreLowering

namespace Msg

/-! ## Splitting -/

@[simp]
theorem split?_append (b rest : Bytes) : split? b.length (b ++ rest) = some (b, rest) := by
  have h : b.length ≤ (b ++ rest).length := by simp
  rw [split?, if_pos h, List.take_left, List.drop_left]

theorem split?_of_length {n : Nat} {b : Bytes} (h : b.length = n) (rest : Bytes) :
    split? n (b ++ rest) = some (b, rest) := by
  subst h
  exact split?_append b rest

end Msg

/-! ## The highest byte first -/

namespace Bytes

@[simp]
theorem length_bigEndian (width n : Nat) : (bigEndian width n).length = width := by
  induction width with
  | zero => rfl
  | succ width ih => rw [bigEndian, List.length_cons, ih]

@[simp]
theorem ofBigEndian_nil : ofBigEndian [] = 0 := rfl

theorem ofBigEndian_concat (bytes : Bytes) (b : UInt8) :
    ofBigEndian (bytes ++ [b]) = 256 * ofBigEndian bytes + b.toNat := by
  simp only [ofBigEndian, List.foldl_append, List.foldl_cons, List.foldl_nil]

/-- The value of the first byte is shifted past all that follow it. -/
theorem ofBigEndian_cons (b : UInt8) (bytes : Bytes) :
    ofBigEndian (b :: bytes) = b.toNat * 256 ^ bytes.length + ofBigEndian bytes := by
  induction bytes using List.reverseRecOn with
  | nil => simp [ofBigEndian]
  | append_singleton bytes c ih =>
    rw [← List.cons_append, ofBigEndian_concat, ih, ofBigEndian_concat, List.length_append,
      List.length_singleton, Nat.pow_succ, ← Nat.mul_assoc]
    omega

/-- Reading gives back what the width holds of a number. -/
theorem ofBigEndian_bigEndian (width n : Nat) :
    ofBigEndian (bigEndian width n) = n % 256 ^ width := by
  induction width with
  | zero => simp [bigEndian, Nat.mod_one]
  | succ width ih =>
    have hbyte : (UInt8.ofNat (n / Nat.pow 256 width)).toNat = n / 256 ^ width % 256 :=
      UInt8.toNat_ofNat'
    rw [bigEndian, ofBigEndian_cons, length_bigEndian, ih, hbyte, Nat.pow_succ, Nat.mod_mul,
      Nat.mul_comm, Nat.add_comm]

theorem ofBigEndian_of_lt {width n : Nat} (h : n < 256 ^ width) :
    ofBigEndian (bigEndian width n) = n := by
  rw [ofBigEndian_bigEndian, Nat.mod_eq_of_lt h]

end Bytes

namespace Data.Cbor

/-- The shortest bytes of a number spell it. -/
theorem ofBigEndian_magnitude (n : Nat) : Bytes.ofBigEndian (magnitude n) = n := by
  fun_induction magnitude n with
  | case1 => rfl
  | case2 n _ ih =>
    have hbyte : (UInt8.ofNat (n % 256)).toNat = n % 256 := by
      rw [UInt8.toNat_ofNat']
      omega
    rw [Bytes.ofBigEndian_concat, ih, hbyte]
    omega

end Data.Cbor

end CoreLowering
