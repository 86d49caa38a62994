import CoreLowering.Digest.Words

/-!
# BLAKE2b with 32 bytes

Blocks of 128 bytes are mixed into a state of eight words of 64 bits by
twelve rounds.  A counter of the bytes read so far and a mark on the last
block take part in the mixing.
-/

namespace CoreLowering.Digest.Blake2b

def initialWords : Array UInt64 := #[
  0x6a09e667f3bcc908, 0xbb67ae8584caa73b, 0x3c6ef372fe94f82b, 0xa54ff53a5f1d36f1,
  0x510e527fade682d1, 0x9b05688c2b3e6c1f, 0x1f83d9abfb41bd6b, 0x5be0cd19137e2179]

/-- The order in which each round reads the words of a block. -/
def orders : List (Array Nat) := [
  #[0, 1, 2, 3, 4, 5, 6, 7, 8, 9, 10, 11, 12, 13, 14, 15],
  #[14, 10, 4, 8, 9, 15, 13, 6, 1, 12, 0, 2, 11, 7, 5, 3],
  #[11, 8, 12, 0, 5, 2, 15, 13, 10, 14, 3, 6, 7, 1, 9, 4],
  #[7, 9, 3, 1, 13, 12, 11, 14, 2, 6, 5, 10, 4, 0, 15, 8],
  #[9, 0, 5, 7, 2, 4, 10, 15, 14, 1, 11, 12, 6, 8, 3, 13],
  #[2, 12, 6, 10, 0, 11, 8, 3, 4, 13, 7, 5, 15, 14, 1, 9],
  #[12, 5, 1, 15, 14, 13, 4, 10, 0, 7, 6, 3, 9, 2, 8, 11],
  #[13, 11, 7, 14, 12, 1, 3, 9, 5, 0, 15, 4, 8, 6, 2, 10],
  #[6, 15, 14, 9, 11, 3, 0, 8, 12, 2, 13, 7, 1, 4, 10, 5],
  #[10, 2, 8, 4, 7, 6, 1, 5, 15, 11, 9, 14, 3, 12, 13, 0],
  #[0, 1, 2, 3, 4, 5, 6, 7, 8, 9, 10, 11, 12, 13, 14, 15],
  #[14, 10, 4, 8, 9, 15, 13, 6, 1, 12, 0, 2, 11, 7, 5, 3]]

/-- Mixes four words of the working state with two words of the block. -/
def mix (v : Array UInt64) (a b c d : Nat) (x y : UInt64) : Array UInt64 :=
  let va := v.getD a 0 + v.getD b 0 + x
  let vd := rotateRight64 (v.getD d 0 ^^^ va) 32
  let vc := v.getD c 0 + vd
  let vb := rotateRight64 (v.getD b 0 ^^^ vc) 24
  let va := va + vb + y
  let vd := rotateRight64 (vd ^^^ va) 16
  let vc := vc + vd
  let vb := rotateRight64 (vb ^^^ vc) 63
  (((v.setIfInBounds a va).setIfInBounds b vb).setIfInBounds c vc).setIfInBounds d vd

/-- The places that one round mixes, in order. -/
def places : List (Nat × Nat × Nat × Nat) := [
  (0, 4, 8, 12), (1, 5, 9, 13), (2, 6, 10, 14), (3, 7, 11, 15),
  (0, 5, 10, 15), (1, 6, 11, 12), (2, 7, 8, 13), (3, 4, 9, 14)]

def round (words : Array UInt64) (v : Array UInt64) (order : Array Nat) : Array UInt64 :=
  places.zipIdx.foldl (fun v ((a, b, c, d), i) =>
    mix v a b c d (words.getD (order.getD (2 * i) 0) 0)
      (words.getD (order.getD (2 * i + 1) 0) 0)) v

/-- Mixes a block into the state; `read` counts the bytes up to its end. -/
def compress (h : Array UInt64) (block : Bytes) (read : Nat) (last : Bool) : Array UInt64 :=
  let full := block ++ List.replicate (128 - block.length) 0
  let words := ((blocks 8 full).map fun b => UInt64.ofNat (littleEndian b)).toArray
  let v := h ++ initialWords
  let v := v.modify 12 (· ^^^ UInt64.ofNat read)
  let v := v.modify 13 (· ^^^ UInt64.ofNat (read / UInt64.size))
  let v := if last then v.modify 14 (~~~ ·) else v
  let v := orders.foldl (round words) v
  h.mapIdx fun i w => w ^^^ v.getD i 0 ^^^ v.getD (i + 8) 0

/-- Mixes all blocks; `read` counts the bytes before them. -/
def compressAll (h : Array UInt64) (read : Nat) : List Bytes → Array UInt64
  | [] => h
  | [b] => compress h b (read + b.length) true
  | b :: bs => compressAll (compress h b (read + b.length) false) (read + b.length) bs

/-- The state before the first block: 32 bytes of digest and no key. -/
def start : Array UInt64 :=
  initialWords.modify 0 (· ^^^ 0x01010020)

end CoreLowering.Digest.Blake2b

def CoreLowering.Digest.blake2b (message : Bytes) : Bytes :=
  let bs := if message = [] then [[]] else blocks 128 message
  let h := Blake2b.compressAll Blake2b.start 0 bs
  (h.toList.take 4).flatMap fun w => littleBytes 8 w.toNat
