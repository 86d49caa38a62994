import CoreLowering.Text.Style

/-!
# Fixed places

A float written with a fixed number of decimal places.  The float stands for
an exact fraction, which is rounded to the nearest number of so many places;
a tie goes to the even neighbour.
-/

namespace CoreLowering.Timing

/-- The quotient of two numbers, rounded to the nearest whole number; a tie
goes to the even one. -/
def roundDiv (num den : Nat) : Nat :=
  let q := num / den
  let twice := 2 * (num % den)
  if twice < den then q
  else if den < twice then q + 1
  else if q % 2 = 0 then q
  else q + 1

/-- The size of a finite float as a fraction, from its bits. -/
def fractionOf (bits : UInt64) : Nat × Nat :=
  let exponent := bits.toNat / 0x10000000000000 % 0x800
  let mantissa := bits.toNat % 0x10000000000000
  let (m, e) := if exponent = 0 then (mantissa, 1) else (mantissa + 0x10000000000000, exponent)
  if 1075 ≤ e then (m <<< (e - 1075), 1) else (m, 1 <<< (1075 - e))

def fixed (places : Nat) (x : Float) : String :=
  let bits := x.toBits
  let isNegative := 0x8000000000000000 ≤ bits.toNat
  if x.isNaN then "NaN"
  else if x.isInf then (if isNegative then "-Inf" else "+Inf")
  else
    let (num, den) := fractionOf bits
    let unit := Nat.pow 10 places
    let scaled := roundDiv (num * unit) den
    (if isNegative then "-" else "") ++ toString (scaled / unit) ++
      (if places = 0 then "" else "." ++ zeroPadded places (scaled % unit))

end CoreLowering.Timing
