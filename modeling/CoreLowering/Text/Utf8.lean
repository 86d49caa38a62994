import CoreLowering.Text.Hex

/-!
# Reading bytes as text

A byte string that is cut in the middle of a character is no valid text any
more.  `Utf8.lenient` reads it all the same: every byte that belongs to no
character counts as one replacement character.
-/

namespace CoreLowering.Utf8

/-- The character that stands for a byte that belongs to none. -/
def replacement : Char := '�'

/-- Whether a byte continues a character, with the bounds that its place
asks for. -/
def continues (lo hi : Nat) (b : UInt8) : Bool :=
  lo ≤ b.toNat && b.toNat ≤ hi

/-- The bits that a continuing byte adds to a number. -/
def append (n : Nat) (b : UInt8) : Nat :=
  64 * n + b.toNat % 64

/-- The bounds of the second byte of a character, by its first byte. -/
def secondBounds (a : Nat) : Nat × Nat :=
  if a = 0xE0 then (0xA0, 0xBF)
  else if a = 0xED then (0x80, 0x9F)
  else if a = 0xF0 then (0x90, 0xBF)
  else if a = 0xF4 then (0x80, 0x8F)
  else (0x80, 0xBF)

/-- The character that starts with the byte `a`, and how many bytes of
`rest` belong to it. -/
def first (a : UInt8) (rest : Bytes) : Char × Nat :=
  let n := a.toNat
  let (lo, hi) := secondBounds n
  if n < 0x80 then (Char.ofNat n, 0)
  else
    match rest with
    | b :: more =>
      if !continues lo hi b then (replacement, 0)
      else if 0xC2 ≤ n && n ≤ 0xDF then (Char.ofNat (append (n % 32) b), 1)
      else
        match more with
        | c :: more =>
          if !continues 0x80 0xBF c then (replacement, 0)
          else if 0xE0 ≤ n && n ≤ 0xEF then
            (Char.ofNat (append (append (n % 16) b) c), 2)
          else
            match more with
            | d :: _ =>
              if continues 0x80 0xBF d && 0xF0 ≤ n && n ≤ 0xF4 then
                (Char.ofNat (append (append (append (n % 8) b) c) d), 3)
              else (replacement, 0)
            | [] => (replacement, 0)
        | [] => (replacement, 0)
    | [] => (replacement, 0)

def lenient : Bytes → List Char
  | [] => []
  | a :: rest =>
    let (c, n) := first a rest
    c :: lenient (rest.drop n)
termination_by b => b.length

def lenientText (b : Bytes) : String :=
  String.ofList (lenient b)

/-- The text that bytes spell, if every byte belongs to a character. -/
def text? (b : Bytes) : Option String :=
  let s := lenientText b
  if Bytes.ofString s = b then some s else none

/-- The number of bytes of the character that a byte begins. -/
def lengthFrom (a : UInt8) : Nat :=
  if a < 0xC2 then 1
  else if a < 0xE0 then 2
  else if a < 0xF0 then 3
  else if a < 0xF8 then 4
  else 1

/-- Bytes split before a character that their end cuts off. -/
def splitCut : Bytes → Bytes × Bytes
  | [] => ([], [])
  | a :: rest =>
    if rest.length + 1 < lengthFrom a then ([], a :: rest)
    else
      let (whole, tail) := splitCut rest
      (a :: whole, tail)

end CoreLowering.Utf8
