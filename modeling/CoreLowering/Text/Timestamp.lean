import CoreLowering.Text.Style

/-!
# Time stamps

A moment is a number of microseconds since the start of 1970.  Its text is
the date in the Gregorian calendar and the time of day, both in universal
time.
-/

namespace CoreLowering.Timestamp

/-- Days in four hundred years. -/
def daysPerEra : Int := 146097

/-- Year, month and day of the date that is `days` after 1970-01-01.  Years
are counted from March, so that the leap day is the last day of a year. -/
def civil (days : Int) : Int × Nat × Nat :=
  let z := days + 719468
  let era := z.fdiv daysPerEra
  let doe := (z.fmod daysPerEra).toNat
  let yoe := (doe - doe / 1460 + doe / 36524 - doe / 146096) / 365
  let doy := doe - (365 * yoe + yoe / 4 - yoe / 100)
  let mp := (5 * doy + 2) / 153
  let day := doy - (153 * mp + 2) / 5 + 1
  let month := if mp < 10 then mp + 3 else mp - 9
  let year := (yoe : Int) + era * 400
  (if month ≤ 2 then year + 1 else year, month, day)

/-- A year in four digits at least. -/
def yearText (y : Int) : String :=
  if y < 0 then "-" ++ zeroPadded 4 (-y).toNat else zeroPadded 4 y.toNat

/-- The text of a moment, with six digits for the parts of a second. -/
def text (micros : Int) : String :=
  let seconds := micros.fdiv 1000000
  let fraction := (micros.fmod 1000000).toNat
  let days := seconds.fdiv 86400
  let rest := (seconds.fmod 86400).toNat
  let (year, month, day) := civil days
  yearText year ++ "-" ++ zeroPadded 2 month ++ "-" ++ zeroPadded 2 day ++ "T" ++
    zeroPadded 2 (rest / 3600) ++ ":" ++ zeroPadded 2 (rest / 60 % 60) ++ ":" ++
    zeroPadded 2 (rest % 60) ++ "." ++ zeroPadded 6 fraction ++ "Z"

end CoreLowering.Timestamp
