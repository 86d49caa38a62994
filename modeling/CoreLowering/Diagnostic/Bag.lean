import CoreLowering.Diagnostic.Code
import CoreLowering.Source.Span

/-!
# Findings and bags of findings

A bag keeps findings in the order in which they came, up to a limit, and
counts those it had to refuse.

Shared parts of a unit lead to the same finding from each of their uses.  A
reporter passes a finding on to its bag only the first time.  It remembers
what it has seen even where the bag had no room for it.
-/

namespace CoreLowering

/-- A remark that belongs to a finding. -/
structure Note where
  span : Span
  text : String
  deriving DecidableEq

/-- One finding about a unit. -/
structure Diagnostic where
  severity : Severity
  code : Code
  span : Span
  message : String
  notes : List Note
  deriving DecidableEq

namespace Diagnostic

def error (code : Code) (span : Span) (message : String) : Diagnostic :=
  ⟨.error, code, span, message, []⟩

def warning (code : Code) (span : Span) (message : String) : Diagnostic :=
  ⟨.warning, code, span, message, []⟩

def text (d : Diagnostic) : String :=
  d.severity.name ++ " " ++ d.code.id ++ ": " ++ d.message

/-- Whether two findings say the same; notes do not count. -/
def repeats (d e : Diagnostic) : Bool :=
  d.code = e.code && d.severity = e.severity && d.span = e.span && d.message = e.message

/-- The numbers by which findings are ordered: place in the file, then the
worse first, then the code. -/
def sortKey (d : Diagnostic) : List Int :=
  [d.span.file.toNat, d.span.start.toNat, d.span.stop.toNat, -d.severity.rank,
    d.code.number.toNat]

/-- Whether numbers come no later than others; the first place where they
differ decides. -/
def noLater : List Int → List Int → Bool
  | [], _ => true
  | _ :: _, [] => false
  | x :: xs, y :: ys => if x = y then noLater xs ys else x < y

/-- Whether a finding may stand before another. -/
def before (d e : Diagnostic) : Bool :=
  noLater d.sortKey e.sortKey

end Diagnostic

/-- Findings up to a limit. -/
structure Bag where
  items : List Diagnostic
  limit : Nat
  dropped : Nat

namespace Bag

def maxLimit : Nat := 65535

/-- An empty bag.  A limit out of range is the highest one. -/
def new (limit : Int) : Bag :=
  ⟨[], if limit < 0 ∨ limit > maxLimit then maxLimit else limit.toNat, 0⟩

def isFull (b : Bag) : Bool := b.limit ≤ b.items.length

def add (b : Bag) (d : Diagnostic) : Bag :=
  if b.isFull then { b with dropped := b.dropped + 1 }
  else { b with items := b.items ++ [d] }

def addAll (b : Bag) (ds : List Diagnostic) : Bag :=
  ds.foldl add b

/-- How many findings are at least as bad as `s`. -/
def count (b : Bag) (s : Severity) : Nat :=
  b.items.countP (s.rank ≤ ·.severity.rank)

/-- Whether a finding fails the unit. -/
def hasErrors (b : Bag) : Bool :=
  b.items.any (·.severity.fails)

def hasWarnings (b : Bag) : Bool :=
  0 < b.count .warning

/-- Adds the findings of another bag and makes room for them. -/
def merge (b other : Bag) : Bag :=
  let total := b.items.length + other.items.length
  let grown := if b.limit < total then { b with limit := min total maxLimit } else b
  let filled := grown.addAll other.items
  { filled with dropped := filled.dropped + other.dropped }

/-- Orders the findings by place, the worse first; equal ones keep their
order. -/
def sort (b : Bag) : Bag :=
  { b with items := b.items.mergeSort Diagnostic.before }

/-- The findings of `ds` that repeat none before them, `seen` included. -/
def distinct (seen : List Diagnostic) : List Diagnostic → List Diagnostic
  | [] => []
  | d :: ds =>
    if seen.any (·.repeats d) then distinct seen ds else d :: distinct (d :: seen) ds

/-- Removes findings that repeat an earlier one. -/
def dedup (b : Bag) : Bag :=
  { b with items := distinct [] b.items }

end Bag

/-- A bag and the findings that were reported to it. -/
structure Reporter where
  bag : Bag
  seen : List Diagnostic

namespace Reporter

def ofBag (b : Bag) : Reporter := ⟨b, []⟩

/-- Reports a finding unless it repeats one that was reported before. -/
def report (r : Reporter) (d : Diagnostic) : Reporter :=
  if r.seen.any (·.repeats d) then r else ⟨r.bag.add d, d :: r.seen⟩

end Reporter

end CoreLowering
