import CoreLowering.Text.Hex
import CoreLowering.Text.Style

/-!
# Durations

A duration is a number of nanoseconds.  Below a second it is shown in the
largest unit that leaves a whole part, above it in hours, minutes and
seconds.  Zeros at the end of the fraction are left out.

A duration is written as numbers with units, such as `1m30.5s`.
-/

namespace CoreLowering.Duration

def second : Nat := 1000000000

/-- The first number of nanoseconds that is too large for a duration. -/
def limit : Nat := 0x8000000000000000

/-- The fraction `part` of `10 ^ digits` after a point, without zeros at its
end. -/
def fraction (digits part : Nat) : String :=
  let ds := (zeroPadded digits part).toList.reverse.dropWhile (· = '0')
  if ds.isEmpty then "" else "." ++ String.ofList ds.reverse

/-- A number of units of `10 ^ digits` nanoseconds. -/
def inUnits (digits ns : Nat) : String :=
  let unit := Nat.pow 10 digits
  toString (ns / unit) ++ fraction digits (ns % unit)

def text (ns : Nat) : String :=
  if ns = 0 then "0s"
  else if ns < 1000 then toString ns ++ "ns"
  else if ns < 1000000 then inUnits 3 ns ++ "µs"
  else if ns < second then inUnits 6 ns ++ "ms"
  else
    let minutes := ns / (60 * second)
    let seconds := inUnits 9 (ns % (60 * second)) ++ "s"
    if minutes = 0 then seconds
    else if minutes < 60 then toString minutes ++ "m" ++ seconds
    else toString (minutes / 60) ++ "h" ++ toString (minutes % 60) ++ "m" ++ seconds

/-- A duration rounded to microseconds; a half is rounded up. -/
def toMicros (ns : Nat) : Nat :=
  (ns + 500) / 1000 * 1000

/-- Why a text is no duration. -/
inductive Fault where
  | malformed (text : String)
  | noUnit (text : String)
  | unknownUnit (unit text : String)

/-- A text between quotes, with the bytes of what is not plain in
hexadecimal. -/
def quoted (s : String) : String :=
  let escape (c : Char) : String :=
    if c.toNat < 0x20 || 0x80 ≤ c.toNat then
      String.join ((Bytes.ofString c.toString).map fun b => "\\x" ++ Hex.padded 2 b.toNat)
    else if c = '"' || c = '\\' then "\\" ++ c.toString
    else c.toString
  "\"" ++ String.join (s.toList.map escape) ++ "\""

def Fault.message : Fault → String
  | malformed t => "time: invalid duration " ++ quoted t
  | noUnit t => "time: missing unit in duration " ++ quoted t
  | unknownUnit u t => "time: unknown unit " ++ quoted u ++ " in duration " ++ quoted t

def unit? : String → Option Nat
  | "ns" => some 1
  | "us" => some 1000
  | "µs" => some 1000
  | "μs" => some 1000
  | "ms" => some 1000000
  | "s" => some second
  | "m" => some (60 * second)
  | "h" => some (3600 * second)
  | _ => none

def numeral (ds : List Char) : Nat :=
  ds.foldl (fun n c => 10 * n + (c.toNat - '0'.toNat)) 0

/-- The nanoseconds of at most `fuel` numbers with units; `whole` is the text
that they are part of. -/
def partsIn (whole : String) : (fuel : Nat) → List Char → Except Fault Nat
  | 0, _ => .error (.malformed whole)
  | _ + 1, [] => .ok 0
  | fuel + 1, cs => do
    let ds := cs.takeWhile Char.isDigit
    let rest := cs.drop ds.length
    let fs := match rest with
      | '.' :: r => r.takeWhile Char.isDigit
      | _ => []
    let rest := match rest with
      | '.' :: r => r.drop fs.length
      | r => r
    if ds.isEmpty && fs.isEmpty then throw (.malformed whole)
    let u := rest.takeWhile fun c => c ≠ '.' && !c.isDigit
    if u.isEmpty then throw (.noUnit whole)
    let some ns := unit? (String.ofList u) | throw (.unknownUnit (String.ofList u) whole)
    let value := numeral ds * ns + numeral fs * ns / Nat.pow 10 fs.length
    if limit < value then throw (.malformed whole)
    let more ← partsIn whole fuel (rest.drop u.length)
    if limit < value + more then throw (.malformed whole)
    return value + more

def parse (text : String) : Except Fault Int := do
  let (minus, cs) := match text.toList with
    | '-' :: cs => (true, cs)
    | '+' :: cs => (false, cs)
    | cs => (false, cs)
  if cs = ['0'] then return 0
  if cs.isEmpty then throw (.malformed text)
  let ns ← partsIn text (cs.length + 1) cs
  if minus then return -(ns : Int)
  else if ns < limit then return ns
  else throw (.malformed text)

end CoreLowering.Duration
