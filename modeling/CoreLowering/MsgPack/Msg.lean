import CoreLowering.Text.Hex

/-!
# Messages of the binary format

A message is nil, a truth value, an integer in one of several widths, a
float, a text, a byte string, an array or a map.  `Msg.encode` writes it with
the shortest header for its length.  `broken` stands where the bytes end or
make no sense; it is only ever read.
-/

namespace CoreLowering

/-- How many bytes an integer takes and whether it has a sign. -/
inductive IntFormat where
  /-- In the header byte itself. -/
  | fixed
  | u8
  | u16
  | u32
  | u64
  | i8
  | i16
  | i32
  | i64
  deriving DecidableEq

inductive Msg where
  | nil
  | bool (b : Bool)
  | int (format : IntFormat) (n : Int)
  | float (bytes : Bytes)
  | str (bytes : Bytes)
  | bin (bytes : Bytes)
  | arr (items : List Msg)
  | map (entries : List (Msg × Msg))
  | ext (bytes : Bytes)
  | broken

namespace Msg

/-- The number of bytes of an integer after its header. -/
def IntFormat.width : IntFormat → Nat
  | .fixed => 0
  | .u8 => 1
  | .i8 => 1
  | .u16 => 2
  | .i16 => 2
  | .u32 => 4
  | .i32 => 4
  | .u64 => 8
  | .i64 => 8

/-- The header of an integer that is not in the header itself. -/
def intHeader : IntFormat → UInt8
  | .fixed => 0
  | .u8 => 0xcc
  | .u16 => 0xcd
  | .u32 => 0xce
  | .u64 => 0xcf
  | .i8 => 0xd0
  | .i16 => 0xd1
  | .i32 => 0xd2
  | .i64 => 0xd3

def encodeInt (format : IntFormat) (n : Int) : Bytes :=
  match format with
  | .fixed => [UInt8.ofInt n]
  | format =>
    let width := IntFormat.width format
    intHeader format :: Bytes.bigEndian width (n % Nat.pow 256 width).toNat

/-- The header of something of a length: a short form, if the length fits
into it, else one, two or four bytes for the length.  Without a header for
one byte, two are taken. -/
def lengthHeader (short : Nat) (shortMax : Nat) (one : Option UInt8) (two four : UInt8)
    (length : Nat) : Bytes :=
  if length < shortMax then [UInt8.ofNat (short + length)]
  else
    match one with
    | some header =>
      if length < 256 then header :: Bytes.bigEndian 1 length
      else if length < 65536 then two :: Bytes.bigEndian 2 length
      else four :: Bytes.bigEndian 4 length
    | none =>
      if length < 65536 then two :: Bytes.bigEndian 2 length else four :: Bytes.bigEndian 4 length

mutual

def encode : Msg → Bytes
  | nil => [0xc0]
  | bool false => [0xc2]
  | bool true => [0xc3]
  | int format n => encodeInt format n
  | float bytes => (if bytes.length = 4 then 0xca else 0xcb) :: bytes
  | str bytes => lengthHeader 0xa0 32 (some 0xd9) 0xda 0xdb bytes.length ++ bytes
  | bin bytes => lengthHeader 0 0 (some 0xc4) 0xc5 0xc6 bytes.length ++ bytes
  | arr items => lengthHeader 0x90 16 none 0xdc 0xdd items.length ++ encodeAll items
  | map entries => lengthHeader 0x80 16 none 0xde 0xdf entries.length ++ encodeEntries entries
  | ext bytes => lengthHeader 0 0 (some 0xc7) 0xc8 0xc9 (bytes.length - 1) ++ bytes
  | broken => []

def encodeAll : List Msg → Bytes
  | [] => []
  | m :: ms => m.encode ++ encodeAll ms

def encodeEntries : List (Msg × Msg) → Bytes
  | [] => []
  | (k, v) :: es => k.encode ++ v.encode ++ encodeEntries es

end

mutual

/-- Whether no part of a message is broken. -/
def isWhole : Msg → Bool
  | broken => false
  | arr items => isWholeAll items
  | map entries => isWholeEntries entries
  | _ => true

def isWholeAll : List Msg → Bool
  | [] => true
  | m :: ms => m.isWhole && isWholeAll ms

/-- Whether no key or value of entries is broken. -/
def isWholeEntries : List (Msg × Msg) → Bool
  | [] => true
  | (k, v) :: es => k.isWhole && v.isWhole && isWholeEntries es

end

def text (s : String) : Msg := .str (Bytes.ofString s)

def byte (n : UInt8) : Msg := .int .u8 n.toNat

def word (n : UInt32) : Msg := .int .u32 n.toNat

def long (n : UInt64) : Msg := .int .u64 n.toNat

/-- A map with texts for keys. -/
def fields (entries : List (String × Msg)) : Msg :=
  .map (entries.map fun (k, v) => (text k, v))

/-- A field that is left out where `present` is false. -/
def optional (present : Bool) (name : String) (m : Msg) : List (String × Msg) :=
  if present then [(name, m)] else []

end Msg

end CoreLowering
