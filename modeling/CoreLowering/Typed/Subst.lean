import CoreLowering.Typed.Ty

/-!
# Substitution of type variables

A substitution gives types to the numbers of variables.  Applying it replaces
each variable once: what a variable stands for is not substituted into again,
and a variable that an inner general type brings along is left alone.
-/

namespace CoreLowering

/-- Types for the numbers of variables, the latest first. -/
structure Subst where
  entries : List (UInt32 × Ty)

namespace Subst

/-- The substitution that replaces nothing. -/
def empty : Subst := ⟨[]⟩

def find? (s : Subst) (id : UInt32) : Option Ty :=
  s.entries.lookup id

/-- Lets a variable stand for a type, whatever it stood for before. -/
def insert (s : Subst) (id : UInt32) (t : Ty) : Subst :=
  ⟨(id, t) :: s.entries.filter (·.1 != id)⟩

/-- Leaves the given variables alone. -/
def without (s : Subst) (vs : List TyVar) : Subst :=
  ⟨s.entries.filter fun e => !vs.any (·.id == e.1)⟩

/-- The substitution with the given entries; of two for one variable the
later counts. -/
def ofList (entries : List (UInt32 × Ty)) : Subst :=
  entries.foldl (fun s e => s.insert e.1 e.2) empty

/-- The entries by rising number. -/
def sorted (s : Subst) : List (UInt32 × Ty) :=
  s.entries.mergeSort fun a b => a.1.toNat ≤ b.1.toNat

mutual

def apply (s : Subst) : Ty → Ty
  | .var v => (s.find? v.id).getD (.var v)
  | .con c args => .con c (s.applyAll args)
  | .all ps body => .all ps ((s.without ps).apply body)
  | .missing => .missing

def applyAll (s : Subst) : List Ty → List Ty
  | [] => []
  | t :: ts => s.apply t :: s.applyAll ts

end

end Subst

end CoreLowering
