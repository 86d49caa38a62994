/-!
# Bytes and hexadecimal text

Byte strings are lists of bytes.  They are shown as two lower-case
hexadecimal digits a byte and read back from such text.  A number is written
as bytes with the highest one first.
-/

namespace CoreLowering

abbrev Bytes := List UInt8

namespace Hex

/-- The lower-case hexadecimal digit of a number below sixteen. -/
def digit (n : Nat) : Char :=
  if n < 10 then Char.ofNat ('0'.toNat + n) else Char.ofNat ('a'.toNat + (n - 10))

def ofByte (b : UInt8) : List Char :=
  [digit (b.toNat / 16), digit (b.toNat % 16)]

def encode (bytes : Bytes) : String :=
  String.ofList (bytes.flatMap ofByte)

/-- The value of a hexadecimal digit of either case. -/
def value? (c : Char) : Option Nat :=
  if '0' ≤ c ∧ c ≤ '9' then some (c.toNat - '0'.toNat)
  else if 'a' ≤ c ∧ c ≤ 'f' then some (c.toNat - 'a'.toNat + 10)
  else if 'A' ≤ c ∧ c ≤ 'F' then some (c.toNat - 'A'.toNat + 10)
  else none

/-- Reads digits two by two; an odd digit or another character is refused. -/
def decodeChars : List Char → Option Bytes
  | [] => some []
  | [_] => none
  | a :: b :: rest => do
    let hi ← value? a
    let lo ← value? b
    let bytes ← decodeChars rest
    return UInt8.ofNat (16 * hi + lo) :: bytes

/-- The byte string a hexadecimal text stands for. -/
def decode (text : String) : Option Bytes :=
  decodeChars text.toList

/-- The last `width` hexadecimal digits of `n`. -/
def lastDigits : (width n : Nat) → List Char
  | 0, _ => []
  | width + 1, n => lastDigits width (n / 16) ++ [digit (n % 16)]

/-- The hexadecimal numeral of `n` in `width` digits. -/
def padded (width n : Nat) : String :=
  String.ofList (lastDigits width n)

end Hex

namespace Bytes

/-- The `width` low bytes of `n`, the highest first. -/
def bigEndian : (width : Nat) → (n : Nat) → Bytes
  | 0, _ => []
  | w + 1, n => UInt8.ofNat (n / Nat.pow 256 w) :: bigEndian w n

/-- The number that bytes spell, the highest first. -/
def ofBigEndian (bytes : Bytes) : Nat :=
  bytes.foldl (fun n b => 256 * n + b.toNat) 0

def ofString (s : String) : Bytes :=
  s.toUTF8.toList

/-- The text a byte string spells in UTF-8, if it is valid. -/
def toString? (b : Bytes) : Option String :=
  String.fromUTF8? ⟨b.toArray⟩

end Bytes

end CoreLowering
