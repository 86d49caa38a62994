/-!
# Tables of code points

A property of characters is given by a table: the sorted, disjoint ranges of
the code points that have it.  Tables are written as text, one `first-last`
pair of hexadecimal numerals a range (a range of one code point has no
dash).  After a dash or a comma a numeral leaves out the digits that it shares
with the one before.  `Ranges.ofText` reads such a text and `Ranges.contains`
looks a code point up by bisection.
-/

namespace CoreLowering.CodePoint

/-- The value of a hexadecimal digit, zero for any other character. -/
def digitValue (c : Char) : Nat :=
  if '0' ≤ c ∧ c ≤ '9' then c.toNat - '0'.toNat
  else if 'A' ≤ c ∧ c ≤ 'F' then c.toNat - 'A'.toNat + 10
  else if 'a' ≤ c ∧ c ≤ 'f' then c.toNat - 'a'.toNat + 10
  else 0

def numeral (digits : List Char) : Nat :=
  digits.foldl (fun n c => 16 * n + digitValue c) 0

/-- The pieces of `cs` between occurrences of separators, the last piece
included, even when it is empty. -/
def pieces (isSep : Char → Bool) : List Char → List (List Char)
  | [] => [[]]
  | c :: cs =>
    if isSep c then [] :: pieces isSep cs
    else
      match pieces isSep cs with
      | [] => [[c]]
      | p :: ps => (c :: p) :: ps

/-- The words of a table text: its pieces between blanks and line ends. -/
def words (text : String) : List (List Char) :=
  (pieces (fun c => c == ' ' || c == '\n') text.toList).filter (· ≠ [])

/-- A set of code points as sorted ranges, both ends included. -/
structure Ranges where
  bounds : Array (Nat × Nat)

/-- A numeral in full, which leaves out digits it shares with the one before. -/
def complete (before digits : List Char) : List Char :=
  before.take (before.length - digits.length) ++ digits

/-- The ranges of a word, the numeral before which is given. -/
def rangesFrom (before : List Char) : List (List Char) → List (Nat × Nat)
  | [] => []
  | range :: ranges =>
    let (first, rest) := range.span (· ≠ '-')
    let first := complete before first
    let last := complete first (rest.drop 1)
    (numeral first, numeral last) :: rangesFrom last ranges

/-- The ranges a word of a table text denotes. -/
def rangesOf (word : List Char) : List (Nat × Nat) :=
  rangesFrom [] (pieces (· == ',') word)

def Ranges.ofText (text : String) : Ranges :=
  ⟨((words text).flatMap rangesOf).toArray⟩

/-- Bisection: the search looks at the rows from `lo` up to `hi`. -/
def searchRange (bounds : Array (Nat × Nat)) (c lo hi : Nat) : Bool :=
  if lo < hi then
    let mid := (lo + hi) / 2
    match bounds[mid]? with
    | none => false
    | some (first, last) =>
      if c < first then searchRange bounds c lo mid
      else if last < c then searchRange bounds c (mid + 1) hi
      else true
  else false
termination_by hi - lo

/-- Whether the set has the code point `c`. -/
def Ranges.contains (r : Ranges) (c : Nat) : Bool :=
  searchRange r.bounds c 0 r.bounds.size

end CoreLowering.CodePoint
