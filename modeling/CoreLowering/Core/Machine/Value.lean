import CoreLowering.Core.Term.Printer

/-!
# Values of the machine

What evaluation gives: a constant, a delayed or a lambda term with the
values of its free names, a builtin that waits for forces or arguments, or a
constructor with its fields.
-/

namespace CoreLowering.Machine

/-- The result of evaluating a term. -/
inductive Value where
  | con (c : Constant)
  | delay (body : Term) (env : List (String × Value))
  | lam (name : String) (body : Term) (env : List (String × Value))
  /-- A builtin that has been forced `forces` times and holds `args`. -/
  | builtin (f : Builtin) (forces : Nat) (args : List Value)
  | constr (tag : UInt64) (fields : List Value)

/-- The values of names, the innermost first. -/
abbrev Env := List (String × Value)

def Env.find? (env : Env) (name : String) : Option Value :=
  match env with
  | [] => none
  | (x, v) :: rest => if x = name then some v else Env.find? rest name

namespace Value

mutual

/-- The text of a value.  Environments are not shown. -/
def text : Value → String
  | con c => c.text
  | delay body _ => "(delay " ++ body.text ++ ")"
  | lam x body _ => "(lam " ++ x ++ " " ++ body.text ++ ")"
  | builtin f _ args => "(builtin " ++ f.name ++ "/" ++ toString args.length ++ ")"
  | constr tag fields => "(constr " ++ toString tag.toNat ++ textsAfter fields ++ ")"

def textsAfter : List Value → String
  | [] => ""
  | v :: vs => " " ++ v.text ++ textsAfter vs

end

def constant? : Value → Option Constant
  | con c => some c
  | _ => none

end Value

end CoreLowering.Machine
