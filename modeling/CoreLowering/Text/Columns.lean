import CoreLowering.Text.Cluster
import CoreLowering.Text.Utf8

/-!
# Columns

How many columns of a fixed-width display a text takes.  East Asian wide
characters take two columns, controls and combining marks none, all others
one; characters whose width is ambiguous count as narrow.  A cluster takes
the columns of its first character that takes any.
-/

namespace CoreLowering.Columns

/-- Controls, format characters and combining marks take no column. -/
def zeroTable : CodePoint.Ranges := CodePoint.Ranges.ofText "
300-6F 483-9 70F,EB-F3 C00,4,F3 D00-1 135D-F,80B-E,A7F,B0-CE,B6B-73,DC0-FF 200B-F,28-E,6A-F,D0-F0
2CEF-F1,DE0-FF 3099-A A66F-72,4-D,9E-F,F0-1,8E0-F1 D800-FFF FE20-F,FF,FF9-B,E-F 101FD,376-A,EAB-C
10F46-50,82-5,1300-1,3B-C,66-C,70-4,6AF0-4,CF00-2D,30-46,D165-9,D-72,B-82,5-B,AA-D,242-4,E000-6,8-18
1E01B-21,3-4,6-A,8F,8D0-6"

/-- East Asian wide and full-width characters take two columns. -/
def wideTable : CodePoint.Ranges := CodePoint.Ranges.ofText "
1100-5F 231A-B,29-A,E9-C,F0,3,5FD-E,614-5,48-53,7F,93,A1,A-B,BD-E,C4-5,E,D4,EA,F2-3,5,A,D,705,A-B,28
274C,E,53-5,7,95-7,B0,F,B1B-C,50,5,E80-99,B-F3,F00-D5,F0-B 3000-3E,41-96,9-FF,105-2F,31-8E,90-E3
31F0-21E,20-47,50-4DBF,E00-A48C,90-C6,960-7C,C00-D7A3 F900-AFF,E10-9,30-52,4-66,8-B,F01-60,E0-6
16FE0-4,F0-1,7000-87F7,800-CD5,D00-8,AFF0-3,5-B,D-E,B000-122,32,50-2,5,64-7,70-2FB,F004,CF,18E,91-A
1F200-2,10-3B,40-8,50-1,60-5,300-20,D-35,7-7C,E-93,A0-CA,F-D3,E0-F0,4,8-43E,40,2-FC,F-53D,4B-E,50-67
1F57A,95-6,A4,FB-64F,80-C5,C,D0-2,5-7,C-F,EB-C,F4-C,7E0-B,F0,90C-3A,C-45,7-FF,A70-C,80-8,90-BD,F-C5
1FACE-DB,E0-8,F0-8 20000-FFFD 30000-FFFD"

/-- The narrow forms that stand inside wide blocks. -/
def isNarrow (n : Nat) : Bool :=
  (0x27E6 ≤ n && n ≤ 0x27ED) || n == 0x2985 || n == 0x2986

def ofChar (c : Char) : Nat :=
  let n := c.toNat
  if n < 0x20 then 0
  else if (0x7F ≤ n ∧ n ≤ 0x9F) ∨ n = 0xAD then 0
  else if n < 0x300 then 1
  else if isNarrow n then 1
  else if zeroTable.contains n then 0
  else if wideTable.contains n then 2
  else 1

def ofCluster : List Char → Nat
  | [] => 0
  | c :: cs => if ofChar c > 0 then ofChar c else ofCluster cs

def ofText (s : String) : Nat :=
  (clusters s.toList).foldl (fun n k => n + ofCluster k) 0

/-- Clusters with characters added to the last of them. -/
def extendLast (ks : List (List Char)) (cs : List Char) : List (List Char) :=
  match ks with
  | [] => [cs]
  | [k] => [k ++ cs]
  | k :: ks => k :: extendLast ks cs

/-- The columns of bytes that need not be whole characters.  What is left of
a character that the end cuts off takes no column of its own, unless nothing
else is there. -/
def ofBytes (b : Bytes) : Nat :=
  let (whole, tail) := Utf8.splitCut b
  let ks := extendLast (clusters (Utf8.lenient whole)) (Utf8.lenient tail)
  ks.foldl (fun n k => n + ofCluster k) 0

/-- The longest run of whole clusters of `ks` that fits into `room`
columns. -/
def takeClusters (room : Nat) : List (List Char) → List Char
  | [] => []
  | k :: ks =>
    if ofCluster k ≤ room then k ++ takeClusters (room - ofCluster k) ks else []

/-- Cuts a text that is wider than `width` columns so that it fits together
with `tail`, which marks the cut.  A text that fits is left alone, and a tail
wider than the room leaves nothing before it. -/
def truncate (s : String) (width : Nat) (tail : String) : String :=
  if ofText s ≤ width then s
  else if width < ofText tail then tail
  else
    String.ofList (takeClusters (width - ofText tail) (clusters s.toList)) ++ tail

end CoreLowering.Columns
