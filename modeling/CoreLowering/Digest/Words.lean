import CoreLowering.Text.Hex

/-!
# Words of bytes

The digests read their input in blocks and words.  This file cuts byte
strings into blocks and turns bytes into words of either byte order and back.
-/

namespace CoreLowering.Digest

/-- The first `n` elements, then the next `n`, and so on; the last block may
be shorter.  Blocks of no elements are refused by giving none. -/
def blocks {α : Type} (n : Nat) (xs : List α) : List (List α) :=
  if _h : n = 0 ∨ xs = [] then []
  else xs.take n :: blocks n (xs.drop n)
termination_by xs.length
decreasing_by
  have hx : xs ≠ [] := fun e => _h (Or.inr e)
  have hn : n ≠ 0 := fun e => _h (Or.inl e)
  have := List.length_pos_iff.mpr hx
  simp only [List.length_drop]
  omega

/-- The number whose digits in base 256 are `bytes`, least significant first. -/
def littleEndian (bytes : Bytes) : Nat :=
  bytes.foldr (fun b n => b.toNat + 256 * n) 0

/-- The `width` low digits of `n` in base 256, least significant first. -/
def littleBytes : (width : Nat) → (n : Nat) → Bytes
  | 0, _ => []
  | w + 1, n => UInt8.ofNat (n % 256) :: littleBytes w (n / 256)

/-- A 32-bit word turned right by `k` places. -/
def rotateRight32 (x : UInt32) (k : UInt32) : UInt32 :=
  (x >>> k) ||| (x <<< (32 - k))

/-- A 64-bit word turned right by `k` places. -/
def rotateRight64 (x : UInt64) (k : UInt64) : UInt64 :=
  (x >>> k) ||| (x <<< (64 - k))

/-- A 64-bit word turned left by `k` places. -/
def rotateLeft64 (x : UInt64) (k : UInt64) : UInt64 :=
  if k = 0 then x else (x <<< k) ||| (x >>> (64 - k))

end CoreLowering.Digest
