import CoreLowering.Typed.Subst

/-!
# Unification, upcasts and joins

`unify` asks whether a type can be used where another one is expected and
finds what the variables in both have to stand for.  With upcasts allowed a
case can be used where its declared type is expected.  Types of which nothing
is known and the type of what never returns fit everywhere, and so do
arguments that are left out.

A variable is bound to whatever it meets, also to a type it occurs in.  Later
comparisons can then follow such a binding round and round; only at a depth
that no run reaches are they cut off, with `Mismatch.endless`.
-/

namespace CoreLowering

/-- More nested calls than any run can make. -/
def unreachableDepth : Nat := 0x4000000000000000

/-- Why two types do not fit. -/
inductive Mismatch where
  | missing
  | isNot (a b : Ty)
  | arity (a b : Ty)
  /-- The types do not fit because an argument does not. -/
  | inside (a b : Ty) (inner : Mismatch)
  /-- The comparison runs in a circle. -/
  | endless (a b : Ty)

def Mismatch.message : Mismatch → String
  | missing => "missing type"
  | isNot a b => a.text ++ " is not " ++ b.text
  | arity a b => a.text ++ " and " ++ b.text ++ " differ in arity"
  | inside a b inner => a.text ++ " is not " ++ b.text ++ ": " ++ inner.message
  | endless a b => a.text ++ " and " ++ b.text ++ " are endless"

/-- Follows bindings, at most `fuel` of them, from a variable to what it
stands for. -/
def Subst.resolveIn (s : Subst) : (fuel : Nat) → Ty → Ty
  | 0, t => t
  | fuel + 1, .var v =>
    match s.find? v.id with
    | some t => s.resolveIn fuel t
    | none => .var v
  | _ + 1, t => t

/-- What a type stands for at its head. -/
def Subst.resolve (s : Subst) (t : Ty) : Ty :=
  s.resolveIn s.entries.length t

namespace Ty

/-- Whether a case can be used for the type `d` stands for. -/
def upcasts : TyCon → TyCon → Bool
  | .caseClass d _, .sum e => d = e
  | _, _ => false

mutual

/-- Makes two types fit, at most `fuel` arguments deep. -/
def unifyIn (fuel : Nat) (up : Bool) (a b : Ty) (s : Subst) : Except Mismatch Subst :=
  match s.resolve a.unwrap, s.resolve b.unwrap with
  | missing, _ => .error .missing
  | _, missing => .error .missing
  | con .free _, _ => .ok s
  | _, con .free _ => .ok s
  | con .nothing _, _ => .ok s
  | _, con .nothing _ => .ok s
  | var v, var w => if v.id = w.id then .ok s else .ok (s.insert v.id (.var w))
  | var v, b => .ok (s.insert v.id b)
  | a, var w => .ok (s.insert w.id a)
  | con c xs, con d ys =>
    if c = d || up && upcasts c d then
      if xs.length = ys.length then
        match fuel with
        | 0 => .error (.endless (con c xs) (con d ys))
        | fuel + 1 => unifyAll fuel up (con c xs) (con d ys) xs ys s
      else if xs.isEmpty || ys.isEmpty then .ok s
      else .error (.arity (con c xs) (con d ys))
    else .error (.isNot (con c xs) (con d ys))
  | a, b => .error (.isNot a b)
termination_by (fuel, 0)

/-- Makes the arguments of the types `a` and `b` fit, place by place. -/
def unifyAll (fuel : Nat) (up : Bool) (a b : Ty) (xs ys : List Ty) (s : Subst) :
    Except Mismatch Subst :=
  match xs, ys with
  | x :: xs, y :: ys =>
    match unifyIn fuel up x y s with
    | .ok s => unifyAll fuel up a b xs ys s
    | .error e => .error (.inside a b e)
  | _, _ => .ok s
termination_by (fuel, xs.length + 1)

end

/-- A bound on the depth of the comparisons that do not run in a circle. -/
def unifyFuel (a b : Ty) : Nat :=
  let n := a.size + b.size + 1
  n * n * n + unreachableDepth

/-- Makes `a` usable where `b` is expected. -/
def unify (a b : Ty) (up : Bool) : Except Mismatch Subst :=
  unifyIn (unifyFuel a b) up a b .empty

/-- The types a value passes on its way from one type to another, the last
being the goal; none if there is no such way. -/
def upcastChain (source goal : Ty) : List Ty :=
  match source.unwrap, goal.unwrap with
  | con .nothing _, goal => [goal]
  | con (.caseClass d _) xs, con (.sum e) ys =>
    if d = e then [sum d (if ys.isEmpty then xs else ys)] else []
  | con (.caseClass d _) xs, var v => [sum d xs, .var v]
  | _, _ => []

/-- The least type that two types can be used for: one of the two if they
fit, the declared type for two of its cases. -/
def join (a b : Ty) : Option Ty :=
  if a.isNothing then some b
  else if b.isNothing then some a
  else
    match unify b a false, unify b a true, unify a b true with
    | .ok s, _, _ => some (s.apply a)
    | _, .ok s, _ => some (s.apply a)
    | _, _, .ok s => some (s.apply b)
    | _, _, _ =>
      match a.unwrap, b.unwrap with
      | con (.caseClass d _) xs, con (.caseClass e c) ys =>
        if d = e then
          let whole := sum d (if xs.isEmpty then ys else xs)
          match unify (con (.caseClass e c) ys) whole true with
          | .ok s => some (s.apply whole)
          | .error _ => none
        else none
      | _, _ => none

end Ty

end CoreLowering
