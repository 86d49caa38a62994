import CoreLowering.MsgPack.Msg

/-!
# Reading messages

`Msg.decode` reads one message from the start of some bytes and ignores what
comes after it.  Where the bytes end too early or make no sense, the message
is broken at that place and nothing after it is read.
-/

namespace CoreLowering.Msg

/-- The first `n` bytes and the rest, if there are as many. -/
def split? (n : Nat) (bytes : Bytes) : Option (Bytes × Bytes) :=
  if n ≤ bytes.length then some (bytes.take n, bytes.drop n) else none

/-- A message and the bytes after it, unless it is broken. -/
abbrev Reading := Msg × Option Bytes

/-- The reading where nothing more can be read. -/
def stopped : Reading := (.broken, none)

def signed (bytes : Bytes) : Int :=
  let n := Bytes.ofBigEndian bytes
  let count := Nat.pow 256 bytes.length
  if n < count / 2 then n else (n : Int) - count

def readInt (format : IntFormat) (hasSign : Bool) (bytes : Bytes) : Reading :=
  match split? (IntFormat.width format) bytes with
  | some (b, rest) => (.int format (if hasSign then signed b else Bytes.ofBigEndian b), some rest)
  | none => stopped

def readBytes (make : Bytes → Msg) (n : Nat) (bytes : Bytes) : Reading :=
  match split? n bytes with
  | some (b, rest) => (make b, some rest)
  | none => stopped

def readLength (width : Nat) (next : Nat → Bytes → Reading) (bytes : Bytes) : Reading :=
  match split? width bytes with
  | some (b, rest) => next (Bytes.ofBigEndian b) rest
  | none => stopped

def readItems (read : Bytes → Reading) : (n : Nat) → Bytes → List Msg × Option Bytes
  | 0, bytes => ([], some bytes)
  | n + 1, bytes =>
    match read bytes with
    | (m, none) => ([m], none)
    | (m, some rest) =>
      let (ms, rest) := readItems read n rest
      (m :: ms, rest)

def readEntries (read : Bytes → Reading) :
    (n : Nat) → Bytes → List (Msg × Msg) × Option Bytes
  | 0, bytes => ([], some bytes)
  | n + 1, bytes =>
    match read bytes with
    | (k, none) => ([(k, .broken)], none)
    | (k, some rest) =>
      match read rest with
      | (v, none) => ([(k, v)], none)
      | (v, some rest) =>
        let (es, rest) := readEntries read n rest
        ((k, v) :: es, rest)

def readArr (read : Bytes → Reading) (n : Nat) (bytes : Bytes) : Reading :=
  let (ms, rest) := readItems read n bytes
  (.arr ms, rest)

def readMap (read : Bytes → Reading) (n : Nat) (bytes : Bytes) : Reading :=
  let (es, rest) := readEntries read n bytes
  (.map es, rest)

/-- Reads a message after its header, given how messages inside it are
read. -/
def readAfter (read : Bytes → Reading) (header : UInt8) (rest : Bytes) : Reading :=
  let h := header.toNat
  if h < 0x80 then (.int .fixed h, some rest)
  else if h < 0x90 then readMap read (h - 0x80) rest
  else if h < 0xa0 then readArr read (h - 0x90) rest
  else if h < 0xc0 then readBytes .str (h - 0xa0) rest
  else if 0xe0 ≤ h then (.int .fixed ((h : Int) - 256), some rest)
  else
    match h with
    | 0xc0 => (.nil, some rest)
    | 0xc2 => (.bool false, some rest)
    | 0xc3 => (.bool true, some rest)
    | 0xc4 => readLength 1 (readBytes .bin) rest
    | 0xc5 => readLength 2 (readBytes .bin) rest
    | 0xc6 => readLength 4 (readBytes .bin) rest
    | 0xc7 => readLength 1 (fun n => readBytes .ext (n + 1)) rest
    | 0xc8 => readLength 2 (fun n => readBytes .ext (n + 1)) rest
    | 0xc9 => readLength 4 (fun n => readBytes .ext (n + 1)) rest
    | 0xca => readBytes .float 4 rest
    | 0xcb => readBytes .float 8 rest
    | 0xcc => readInt .u8 false rest
    | 0xcd => readInt .u16 false rest
    | 0xce => readInt .u32 false rest
    | 0xcf => readInt .u64 false rest
    | 0xd0 => readInt .i8 true rest
    | 0xd1 => readInt .i16 true rest
    | 0xd2 => readInt .i32 true rest
    | 0xd3 => readInt .i64 true rest
    | 0xd4 => readBytes .ext 2 rest
    | 0xd5 => readBytes .ext 3 rest
    | 0xd6 => readBytes .ext 5 rest
    | 0xd7 => readBytes .ext 9 rest
    | 0xd8 => readBytes .ext 17 rest
    | 0xd9 => readLength 1 (readBytes .str) rest
    | 0xda => readLength 2 (readBytes .str) rest
    | 0xdb => readLength 4 (readBytes .str) rest
    | 0xdc => readLength 2 (readArr read) rest
    | 0xdd => readLength 4 (readArr read) rest
    | 0xde => readLength 2 (readMap read) rest
    | 0xdf => readLength 4 (readMap read) rest
    | _ => stopped

/-- Reads a message that is at most `fuel` deep. -/
def readIn : (fuel : Nat) → Bytes → Reading
  | 0, _ => stopped
  | _ + 1, [] => stopped
  | fuel + 1, header :: rest => readAfter (readIn fuel) header rest

/-- The message at the start of some bytes.  Each level of a message takes a
byte at least, so it is not deeper than the bytes are many. -/
def decode (bytes : Bytes) : Msg :=
  (readIn (bytes.length + 1) bytes).1

end CoreLowering.Msg
