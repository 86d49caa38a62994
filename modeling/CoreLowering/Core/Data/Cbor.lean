import CoreLowering.Core.Data

/-!
# The CBOR form of data

Every value has one byte form.  A head carries a major type and a number in
the shortest of five widths.  Constructor tags below 7 and below 128 have
ranges of head tags of their own, all others stand in a pair with their tag;
lists are open-ended unless empty; byte strings over 64 bytes are cut into
chunks; integers past 64 bits are byte strings under a bignum tag.
-/

namespace CoreLowering.Data.Cbor

/-- A head: the major type and a number below `2 ^ 64`. -/
def head (major : Nat) (n : Nat) : Bytes :=
  let m := 32 * major
  if n < 24 then [UInt8.ofNat (m + n)]
  else if n ≤ 0xff then UInt8.ofNat (m + 24) :: Bytes.bigEndian 1 n
  else if n ≤ 0xffff then UInt8.ofNat (m + 25) :: Bytes.bigEndian 2 n
  else if n ≤ 0xffffffff then UInt8.ofNat (m + 26) :: Bytes.bigEndian 4 n
  else UInt8.ofNat (m + 27) :: Bytes.bigEndian 8 n

/-- The chunks of at most 64 bytes of a long byte string, each with its
head. -/
def chunks (b : Bytes) : Bytes :=
  if _h : b = [] then []
  else
    let n := min b.length 64
    head 2 n ++ b.take n ++ chunks (b.drop n)
termination_by b.length
decreasing_by
  have := List.length_pos_iff.mpr _h
  simp only [List.length_drop]
  omega

/-- A byte string, in chunks if it is longer than 64 bytes. -/
def byteString (b : Bytes) : Bytes :=
  if b.length ≤ 64 then head 2 b.length ++ b
  else 0x5f :: chunks b ++ [0xff]

/-- The bytes of a number, most significant first, without leading zeros. -/
def magnitude (n : Nat) : Bytes :=
  if _h : n = 0 then [] else magnitude (n / 256) ++ [UInt8.ofNat (n % 256)]
termination_by n
decreasing_by omega

/-- An integer: a head when it fits into 64 bits, a tagged byte string
otherwise.  A negative integer is written as the number that it is below
minus one. -/
def integer (n : Int) : Bytes :=
  match n with
  | .ofNat k => if k < UInt64.size then head 0 k else head 6 2 ++ byteString (magnitude k)
  | .negSucc k => if k < UInt64.size then head 1 k else head 6 3 ++ byteString (magnitude k)

def constrHead (tag : Nat) : Bytes :=
  if tag < 7 then head 6 (121 + tag)
  else if tag < 128 then head 6 (1280 + (tag - 7))
  else head 6 102 ++ head 4 2 ++ head 0 tag

mutual

/-- The byte form of a value. -/
def encode : Data → Bytes
  | constr tag fields => constrHead tag.toNat ++ encodeList fields
  | map entries => head 5 entries.length ++ encodeEntries entries
  | list items => encodeList items
  | int n => integer n
  | bytes b => byteString b
  | unknown _ => []

/-- The byte form of a list: open-ended unless it is empty. -/
def encodeList : List Data → Bytes
  | [] => [0x80]
  | x :: xs => 0x9f :: encode x ++ encodeAll xs ++ [0xff]

/-- The byte forms of values, one after the other. -/
def encodeAll : List Data → Bytes
  | [] => []
  | x :: xs => encode x ++ encodeAll xs

/-- The byte forms of the keys and values of entries. -/
def encodeEntries : List (Data × Data) → Bytes
  | [] => []
  | (k, v) :: es => encode k ++ encode v ++ encodeEntries es

end

end CoreLowering.Data.Cbor
