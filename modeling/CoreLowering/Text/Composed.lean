import Std.Data.HashMap
import CoreLowering.Text.ComposedTable

/-!
# Composed text

One text can be spelled with ready-made characters or with letters and
marks.  `compose` gives the one composed spelling: every character is first
taken apart as far as it goes, runs of marks are put into the order of their
combining classes, and then each mark that has a ready-made character with
the letter before it, and is not cut off from that letter by another mark of
the same or a higher class, is put together with it.
-/

namespace CoreLowering.Composed

/-- Rows of parts in which an empty part is that of the row `above`. -/
def rowsBelow (above : List Nat) : List (List (List Char)) → List (List Nat)
  | [] => []
  | row :: rows =>
    let parts := row.zipIdx.map fun (p, i) =>
      if p.isEmpty then above.getD i 0 else CodePoint.numeral p
    parts :: rowsBelow parts rows

/-- The rows of a text `whole=parts,parts`, parts separated by plus signs; each
further row is that of the next character. -/
def rowsOf (text : String) : List (Nat × List Nat) :=
  (CodePoint.words text).flatMap fun w =>
    match CodePoint.pieces (· == '=') w with
    | [whole, rows] =>
      let rows := (CodePoint.pieces (· == ',') rows).map (CodePoint.pieces (· == '+'))
      (rowsBelow [] rows).zipIdx (CodePoint.numeral whole) |>.map Prod.swap
    | _ => []

/-- The rows of letters with a mark; the letters and what they are with it
stand by twos. -/
def markedRows (mark : Nat) : List Char → List (Nat × List Nat)
  | letter :: whole :: rest => (whole.toNat, [letter.toNat, mark]) :: markedRows mark rest
  | _ => []

/-- The rows of all pairs. -/
def pairRows : List (Nat × List Nat) :=
  rowsOf pairText ++ (CodePoint.words markText).flatMap fun w =>
    match CodePoint.pieces (· == '=') w with
    | [mark, letters] => markedRows (CodePoint.numeral mark) letters
    | _ => []

/-- What a character is taken apart into, in one step. -/
def parts : Std.HashMap Nat (List Nat) :=
  Std.HashMap.ofList (pairRows ++ rowsOf singleText)

/-- The ready-made character of a pair. -/
def wholes : Std.HashMap (Nat × Nat) Nat :=
  Std.HashMap.ofList <| pairRows.filterMap fun
    | (whole, [a, b]) => if apart.contains whole then none else some ((a, b), whole)
    | _ => none

/-- The combining classes, one row a range. -/
def classRows : Array (Nat × Nat × Nat) :=
  ((CodePoint.words classText).flatMap fun w =>
    match CodePoint.pieces (· == '=') w with
    | [cls, ranges] => (CodePoint.rangesOf ranges).map fun (a, b) => (a, b, CodePoint.numeral cls)
    | _ => []).toArray

/-- The combining class of a code point, zero for all but marks. -/
def classOf (n : Nat) : Nat :=
  if n < 0x300 then 0
  else
    match classRows.find? (fun (a, b, _) => a ≤ n && n ≤ b) with
    | some (_, _, k) => k
    | none => 0

/-- Takes a code point apart as far as it goes.  A part is taken apart at
most `fuel` times; no character needs more than three. -/
def apartFully (fuel : Nat) (n : Nat) : List Nat :=
  if 0xAC00 ≤ n ∧ n ≤ 0xD7A3 then
    let s := n - 0xAC00
    let lv := [0x1100 + s / 588, 0x1161 + s % 588 / 28]
    if s % 28 = 0 then lv else lv ++ [0x11A7 + s % 28]
  else
    match fuel with
    | 0 => [n]
    | fuel + 1 =>
      match parts[n]? with
      | some ps => ps.flatMap (apartFully fuel)
      | none => [n]

/-- Puts a mark into a run of marks sorted by class, after those of its own
class. -/
def insertMark (m : Nat × Nat) : List (Nat × Nat) → List (Nat × Nat)
  | [] => [m]
  | x :: xs => if x.2 ≤ m.2 then x :: insertMark m xs else m :: x :: xs

/-- Orders every run of marks by class; `run` is the sorted run being
collected. -/
def orderMarks (run : List (Nat × Nat)) : List Nat → List (Nat × Nat)
  | [] => run
  | n :: ns =>
    let k := classOf n
    if k = 0 then run ++ (n, 0) :: orderMarks [] ns
    else orderMarks (insertMark (n, k) run) ns

/-- The ready-made character of two code points, if there is one. -/
def join? (a b : Nat) : Option Nat :=
  if 0x1100 ≤ a ∧ a ≤ 0x1112 ∧ 0x1161 ≤ b ∧ b ≤ 0x1175 then
    some (0xAC00 + ((a - 0x1100) * 21 + (b - 0x1161)) * 28)
  else if 0xAC00 ≤ a ∧ a ≤ 0xD7A3 ∧ (a - 0xAC00) % 28 = 0 ∧ 0x11A8 ≤ b ∧ b ≤ 0x11C2 then
    some (a + (b - 0x11A7))
  else wholes[(a, b)]?

/-- Puts marks together with the letter before them.  `letter` is the last
character of class zero, `kept` the characters after it that stayed, in
reverse, and `lastClass` the class of the last of them. -/
def joinMarks (letter : Option Nat) (kept : List Nat) (lastClass : Nat) :
    List (Nat × Nat) → List Nat
  | [] => letter.toList ++ kept.reverse
  | (n, k) :: rest =>
    let free := kept.isEmpty || (lastClass ≠ 0 && lastClass < k)
    match letter with
    | none =>
      if k = 0 then kept.reverse ++ joinMarks (some n) [] 0 rest
      else joinMarks none (n :: kept) k rest
    | some l =>
      match if free then join? l n else none with
      | some whole => joinMarks (some whole) kept lastClass rest
      | none =>
        if k = 0 then l :: (kept.reverse ++ joinMarks (some n) [] 0 rest)
        else joinMarks (some l) (n :: kept) k rest

/-- The composed spelling of a list of characters. -/
def composeChars (cs : List Char) : List Char :=
  if cs.all (fun c => c.toNat < 0x300) then cs
  else
    let apart := cs.flatMap (fun c => apartFully 4 c.toNat)
    (joinMarks none [] 0 (orderMarks [] apart)).map Char.ofNat

end CoreLowering.Composed

def CoreLowering.compose (s : String) : String :=
  String.ofList (Composed.composeChars s.toList)
