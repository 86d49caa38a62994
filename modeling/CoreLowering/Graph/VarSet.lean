/-!
# Sets of values

A set of the numbers of values, kept as a rising list.
-/

namespace CoreLowering.Graph

/-- The number of a value of the graph.  Zero is the number of none. -/
abbrev ValueId := Nat

/-- A set of values: their numbers, each once, rising. -/
structure VarSet where
  ids : List ValueId
  deriving DecidableEq

namespace VarSet

def empty : VarSet := ⟨[]⟩

def single (id : ValueId) : VarSet := ⟨[id]⟩

def has (s : VarSet) (id : ValueId) : Bool :=
  s.ids.contains id

def insertInto (id : ValueId) : List ValueId → List ValueId
  | [] => [id]
  | x :: xs =>
    if id < x then id :: x :: xs else if id = x then x :: xs else x :: insertInto id xs

/-- The values of two rising lists, in one rising list. -/
def merge : List ValueId → List ValueId → List ValueId
  | [], ys => ys
  | xs, [] => xs
  | x :: xs, y :: ys =>
    if x < y then x :: merge xs (y :: ys)
    else if y < x then y :: merge (x :: xs) ys
    else x :: merge xs ys
termination_by xs ys => xs.length + ys.length

def insert (s : VarSet) (id : ValueId) : VarSet := ⟨insertInto id s.ids⟩

def union (s t : VarSet) : VarSet := ⟨merge s.ids t.ids⟩

def filter (s : VarSet) (p : ValueId → Bool) : VarSet := ⟨s.ids.filter p⟩

def inter (s t : VarSet) : VarSet := s.filter t.has

def ofList (ids : List ValueId) : VarSet := ids.foldl insert empty

end VarSet

/-- How often each value is referred to; a value that is not listed is not
referred to. -/
structure Counts where
  entries : List (ValueId × Nat)

namespace Counts

def empty : Counts := ⟨[]⟩

def single (id : ValueId) : Counts := ⟨[(id, 1)]⟩

def addTo (id : ValueId) (n : Nat) : List (ValueId × Nat) → List (ValueId × Nat)
  | [] => [(id, n)]
  | (x, m) :: rest => if x = id then (x, m + n) :: rest else (x, m) :: addTo id n rest

def add (a b : Counts) : Counts :=
  ⟨b.entries.foldl (fun es e => addTo e.1 e.2 es) a.entries⟩

end Counts

end CoreLowering.Graph
