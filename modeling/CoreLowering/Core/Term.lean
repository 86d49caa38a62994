import CoreLowering.Core.Builtin
import CoreLowering.Core.Constant

/-!
# Terms and programs

The target language is an untyped lambda calculus with delayed terms,
constants, builtin functions, constructors and case.  A term can be missing,
or of a kind that is not known, where it was read from outside; such a term
has no parts.
-/

namespace CoreLowering

/-- A term of the target language. -/
inductive Term where
  | var (name : String)
  | lam (name : String) (body : Term)
  | apply (fn arg : Term)
  | force (body : Term)
  | delay (body : Term)
  | con (c : Constant)
  | builtin (f : Builtin)
  | error
  | constr (tag : UInt64) (fields : List Term)
  | case (scrutinee : Term) (branches : List Term)
  /-- A kind number that names no term. -/
  | unknown (kind : UInt8)
  | missing

namespace Term

/-- A term applied to arguments, one after the other. -/
def applyAll (f : Term) (args : List Term) : Term :=
  args.foldl .apply f

def forceTimes : (n : Nat) → Term → Term
  | 0, t => t
  | n + 1, t => forceTimes n (.force t)

/-- A builtin, forced as often as it needs. -/
def ofBuiltin (f : Builtin) : Term :=
  forceTimes f.forces (.builtin f)

/-- The name of a kind number that names no term. -/
def unknownKindText (kind : UInt8) : String :=
  "TermKind(" ++ toString kind.toNat ++ ")"

mutual

/-- The number of nodes of a term; a missing term has none. -/
def size : Term → Nat
  | lam _ b => b.size + 1
  | apply f a => f.size + a.size + 1
  | force b => b.size + 1
  | delay b => b.size + 1
  | constr _ fs => sizeAll fs + 1
  | case s bs => s.size + sizeAll bs + 1
  | missing => 0
  | _ => 1

def sizeAll : List Term → Nat
  | [] => 0
  | t :: ts => t.size + sizeAll ts

end

mutual

/-- The names used and not bound, in order of first use.  `bound` are the
names bound around the term and `seen` the ones listed before it. -/
def freeFrom (bound seen : List String) : Term → List String
  | var x => if bound.contains x || seen.contains x then seen else seen ++ [x]
  | lam x b => freeFrom (x :: bound) seen b
  | apply f a => freeFrom bound (freeFrom bound seen f) a
  | force b => freeFrom bound seen b
  | delay b => freeFrom bound seen b
  | constr _ fs => freeFromAll bound seen fs
  | case s bs => freeFromAll bound (freeFrom bound seen s) bs
  | _ => seen

def freeFromAll (bound seen : List String) : List Term → List String
  | [] => seen
  | t :: ts => freeFromAll bound (freeFrom bound seen t) ts

end

/-- The free names of a term, in order of first use. -/
def free (t : Term) : List String :=
  t.freeFrom [] []

end Term

/-- A term for one version of the language. -/
structure Program where
  version : Version
  term : Term

end CoreLowering
