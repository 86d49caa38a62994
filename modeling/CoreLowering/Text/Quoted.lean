import CoreLowering.Text.Hex
import CoreLowering.Text.Printable

/-!
# Quoted text

A text is quoted between double quotes so that it can be shown on one line.
The quote and the backslash are escaped, seven control characters have a
letter of their own, other characters that are not printable are written as
a hexadecimal numeral of two, four or eight digits, and all else stands for
itself.
-/

namespace CoreLowering.Quoted

/-- The letter that names a control character after a backslash. -/
def controlLetter? (c : Char) : Option Char :=
  match c.toNat with
  | 0x07 => some 'a'
  | 0x08 => some 'b'
  | 0x0C => some 'f'
  | 0x0A => some 'n'
  | 0x0D => some 'r'
  | 0x09 => some 't'
  | 0x0B => some 'v'
  | _ => none

/-- What stands for one character between the quotes. -/
def escape (c : Char) : String :=
  match controlLetter? c with
  | some l => "\\" ++ String.singleton l
  | none =>
    let n := c.toNat
    if c = '"' ∨ c = '\\' then "\\" ++ String.singleton c
    else if isPrintable c then String.singleton c
    else if n < 0x20 ∨ n = 0x7F then "\\x" ++ Hex.padded 2 n
    else if n < 0x10000 then "\\u" ++ Hex.padded 4 n
    else "\\U" ++ Hex.padded 8 n

end CoreLowering.Quoted

/-- The text between double quotes, on one line. -/
def CoreLowering.quote (s : String) : String :=
  "\"" ++ String.join (s.toList.map CoreLowering.Quoted.escape) ++ "\""
