import CoreLowering.Digest.Words

/-!
# SHA3-256

A sponge: blocks of 136 bytes are mixed into a state of 25 words of 64 bits,
and after each block the state is permuted by 24 rounds.  The digest is the
first four words.
-/

namespace CoreLowering.Digest.Sha3

/-- The constants mixed into the first word, one a round. -/
def roundConstants : List UInt64 := [
  0x0000000000000001, 0x0000000000008082, 0x800000000000808A, 0x8000000080008000,
  0x000000000000808B, 0x0000000080000001, 0x8000000080008081, 0x8000000000008009,
  0x000000000000008A, 0x0000000000000088, 0x0000000080008009, 0x000000008000000A,
  0x000000008000808B, 0x800000000000008B, 0x8000000000008089, 0x8000000000008003,
  0x8000000000008002, 0x8000000000000080, 0x000000000000800A, 0x800000008000000A,
  0x8000000080008081, 0x8000000000008080, 0x0000000080000001, 0x8000000080008008]

/-- How far each word is turned; the word at column `x` and row `y` has index
`x + 5 * y`. -/
def rotations : Array UInt64 := #[
  0, 1, 62, 28, 27, 36, 44, 6, 55, 20, 3, 10, 43, 25, 39, 41, 45, 15, 21, 8, 18, 2, 61, 56, 14]

def rate : Nat := 136

abbrev State := Array UInt64

/-- The word at column `x` and row `y`, both taken modulo five. -/
def cell (s : State) (x y : Nat) : UInt64 :=
  s.getD (x % 5 + 5 * (y % 5)) 0

/-- The state with a word computed for every column and row. -/
def build (f : Nat → Nat → UInt64) : State :=
  ((List.range 25).map fun i => f (i % 5) (i / 5)).toArray

/-- Adds to every word the parity of two neighbouring columns. -/
def theta (s : State) : State :=
  let parity := fun x => (List.range 5).foldl (fun p y => p ^^^ cell s x y) 0
  build fun x y => cell s x y ^^^ parity (x + 4) ^^^ rotateLeft64 (parity (x + 1)) 1

/-- Turns every word and moves it to its new place. -/
def rhoPi (s : State) : State :=
  build fun x y =>
    let x' := x + 3 * y
    rotateLeft64 (cell s x' x) (rotations.getD (x' % 5 + 5 * x) 0)

/-- Mixes each word with the next two of its row. -/
def chi (s : State) : State :=
  build fun x y => cell s x y ^^^ (~~~ cell s (x + 1) y &&& cell s (x + 2) y)

def round (s : State) (constant : UInt64) : State :=
  let t := chi (rhoPi (theta s))
  t.modify 0 (· ^^^ constant)

def permute (s : State) : State :=
  roundConstants.foldl round s

def absorb (s : State) (block : Bytes) : State :=
  let ws := (blocks 8 block).map fun b => UInt64.ofNat (littleEndian b)
  permute (s.mapIdx fun i w => w ^^^ ws.getD i 0)

/-- The message with its padding to whole blocks. -/
def pad (message : Bytes) : Bytes :=
  let room := rate - message.length % rate
  if room = 1 then message ++ [0x86]
  else message ++ 0x06 :: List.replicate (room - 2) 0 ++ [0x80]

end CoreLowering.Digest.Sha3

def CoreLowering.Digest.sha3 (message : Bytes) : Bytes :=
  let s := (blocks Sha3.rate (Sha3.pad message)).foldl Sha3.absorb (Array.replicate 25 0)
  (s.toList.take 4).flatMap fun w => littleBytes 8 w.toNat
