import CoreLowering.Text.Quoted

/-!
# Numerals in several bases

An integer of 64 bits may be written with a sign, with a mark for its base
(`0b`, `0o` or a zero, `0x`) and with underscores between its digits.
-/

namespace CoreLowering.Numeral

/-- Why a text is no integer. -/
inductive Fault where
  | malformed
  | outOfRange
  deriving DecidableEq

def Fault.message : Fault → String
  | malformed => "invalid syntax"
  | outOfRange => "value out of range"

def digit? (c : Char) : Option Nat :=
  let c := c.toLower
  if '0' ≤ c && c ≤ '9' then some (c.toNat - '0'.toNat)
  else if 'a' ≤ c && c ≤ 'z' then some (c.toNat - 'a'.toNat + 10)
  else none

/-- The base that a numeral is written in, and its digits. -/
def baseOf : List Char → Nat × List Char
  | '0' :: c :: d :: cs =>
    let rest := d :: cs
    if c.toLower = 'b' then (2, rest)
    else if c.toLower = 'o' then (8, rest)
    else if c.toLower = 'x' then (16, rest)
    else (8, c :: rest)
  | '0' :: cs => (8, cs)
  | cs => (10, cs)

/-- The number that digits spell after `n`.  It must take 64 bits. -/
def digits (base : Nat) : Nat → List Char → Except Fault Nat
  | n, [] => .ok n
  | n, '_' :: cs => digits base n cs
  | n, c :: cs =>
    match digit? c with
    | none => .error .malformed
    | some d =>
      if base ≤ d then .error .malformed
      else if UInt64.size ≤ base * n + d then .error .outOfRange
      else digits base (base * n + d) cs

/-- Whether each underscore stands between digits, where the mark of a base
counts as one; `afterDigit` says whether the character before is a digit. -/
def underscoresOk (afterDigit : Bool) : List Char → Bool
  | [] => true
  | ['_'] => false
  | '_' :: '_' :: _ => false
  | '_' :: cs => afterDigit && underscoresOk false cs
  | _ :: cs => underscoresOk true cs

/-- The number that a text without a sign stands for. -/
def natural (cs : List Char) : Except Fault Nat := do
  if cs.isEmpty then throw .malformed
  let (base, ds) := baseOf cs
  let n ← digits base 0 ds
  unless underscoresOk (base ≠ 10) ds do throw .malformed
  return n

def integer (text : String) : Except Fault Int := do
  let (minus, cs) := match text.toList with
    | '-' :: cs => (true, cs)
    | '+' :: cs => (false, cs)
    | cs => (false, cs)
  let n ← natural cs
  if minus then
    if n ≤ 0x8000000000000000 then return -(n : Int) else throw .outOfRange
  else
    if n < 0x8000000000000000 then return n else throw .outOfRange

end CoreLowering.Numeral
