import CoreLowering.Text.CodePoint

/-!
# Letter case and blanks

`lower` maps every capital letter to its small one, character by character.
`trim` drops blanks at both ends of a text.  Both know all of Unicode: the
small letters come from a table of runs, each with a step and the distance
from the capital to the small letter.
-/

namespace CoreLowering.Letter

/-- The runs of capital letters, as `step+distance=first-last,first-last`; a
tilde in place of the plus sign marks a distance that goes down. -/
def caseText : String := "
1+20=41-5A,C0-D6,8-E,391-A1,3-B,410-2F,FF21-3A,118A0-BF,6E40-5F 2+1=100-2E,32-6,9-47,A-76,9-D,82-4
2+1=1A0-4,B3-5,CB-DB,E-EE,F2-4,8-21E,22-32,46-E,370-2,D8-EE,460-80,A-BE,C1-D,D0-52E,1E00-94,A0-FE
2+1=2C67-B,80-E2,B-D,A640-6C,80-9A,722-E,32-6E,79-B,E-86,90-2,6-A8,B4-C2,7-9,D6-8 1~C7=130 1~79=178
1+D2=181 1+CE=186 1+1=187,B,91,8,A7,C,F,B8,C,C5,8,23B,41,376,F7,A,2183,C60,72,5,F2,A78B,D0,F5
1+CD=189-A,93 1+4F=18E 1+CA=18F 1+CB=190 1+CF=194 1+D3=196,C 1+D1=197 1+D5=19D 1+D6=19F 1+DA=1A6,9,E
1+D9=1B1-2 1+DB=1B7 1+2=1C4,7,A,F1 1~61=1F6 1~38=1F7 1~82=220,3FD-F 1+2A2B=23A 1~A3=23D 1+2A28=23E
1~C3=243 1+45=244 1+47=245 1+74=37F 1+26=386 1+25=388-A 1+40=38C,10C80-B2 1+3F=38E-F 1+8=3CF,13F0-5
1~3C=3F4 1~7=3F9,1FEC 1+50=400-F 1+F=4C0 1+30=531-56,2C00-2F 1+1C60=10A0-C5,7,D 1+97D0=13A0-EF
1~BC0=1C90-BA,D-F 1~1DBF=1E9E 1~8=1F08-F,18-D,28-F,38-F,48-D,68-F,88-F,98-F,A8-F,B8-9,D8-9,E8-9
2~8=1F59-F 1~4A=1FBA-B 1~9=1FBC,CC,FC 1~56=1FC8-B 1~64=1FDA-B 1~70=1FEA-B 1~80=1FF8-9 1~7E=1FFA-B
1~1D5D=2126 1~20BF=212A 1~2046=212B 1+1C=2132 1+10=2160-F 1+1A=24B6-CF 1~29F7=2C62 1~EE6=2C63
1~29E7=2C64 1~2A1C=2C6D 1~29FD=2C6E 1~2A1F=2C6F 1~2A1E=2C70 1~2A3F=2C7E-F 1~8A04=A77D 1~A528=A78D
1~A544=A7AA,E 1~A54F=A7AB 1~A54B=A7AC 1~A541=A7AD 1~A512=A7B0 1~A52A=A7B1 1~A515=A7B2 1+3A0=A7B3
1~30=A7C4 1~A543=A7C5 1~8A38=A7C6 1+28=10400-27,B0-D3 2+27=10570-94,71-9,D-89,D-91 1+27=10595
1+22=1E900-21"

/-- A run of capital letters and the distance to their small letters. -/
structure CaseRun where
  first : Nat
  last : Nat
  step : Nat
  distance : Int

def CaseRun.ofWord (w : List Char) : List CaseRun :=
  match CodePoint.pieces (· == '=') w with
  | [step :: sign :: digits, ranges] =>
    let d : Int := CodePoint.numeral digits
    (CodePoint.rangesOf ranges).map fun (a, b) =>
      ⟨a, b, CodePoint.digitValue step, if sign = '~' then -d else d⟩
  | _ => []

def caseRuns : List CaseRun :=
  (CodePoint.words caseText).flatMap CaseRun.ofWord

/-- The small letter of a capital, any other character itself. -/
def lowerChar (c : Char) : Char :=
  let n := c.toNat
  if n < 0x80 then c.toLower
  else
    match caseRuns.find? (fun r => r.first ≤ n && n ≤ r.last && (n - r.first) % r.step == 0) with
    | some r => Char.ofNat (n + r.distance).toNat
    | none => c

def isBlank (c : Char) : Bool :=
  let n := c.toNat
  (0x09 ≤ n && n ≤ 0x0D) || n == 0x20 || n == 0x85 || n == 0xA0 || n == 0x1680
    || (0x2000 ≤ n && n ≤ 0x200A) || n == 0x2028 || n == 0x2029 || n == 0x202F
    || n == 0x205F || n == 0x3000

end CoreLowering.Letter

namespace CoreLowering

/-- The text in small letters. -/
def lower (s : String) : String :=
  String.ofList (s.toList.map Letter.lowerChar)

/-- The text without blanks at its ends. -/
def trim (s : String) : String :=
  let start := s.toList.dropWhile Letter.isBlank
  String.ofList (start.reverse.dropWhile Letter.isBlank).reverse

end CoreLowering
