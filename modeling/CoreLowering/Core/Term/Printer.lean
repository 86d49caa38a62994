import CoreLowering.Core.Term

/-!
# The text of terms

`Term.text` writes a term on one line.  Applications are written as a list
in brackets, with the arguments of a chain of applications in one list; all
other forms stand in parentheses after their keyword.
-/

namespace CoreLowering

namespace Term

mutual

/-- The text of a term on one line.  In a chain of applications (`inChain`)
the brackets are left to the outermost one. -/
def textIn (inChain : Bool) : Term → String
  | var x => x
  | lam x b => "(lam " ++ x ++ " " ++ textIn false b ++ ")"
  | apply f a =>
    let parts := textIn true f ++ " " ++ textIn false a
    if inChain then parts else "[" ++ parts ++ "]"
  | force b => "(force " ++ textIn false b ++ ")"
  | delay b => "(delay " ++ textIn false b ++ ")"
  | con c => c.text
  | builtin f => "(builtin " ++ f.name ++ ")"
  | error => "(error)"
  | constr tag fs => "(constr " ++ toString tag.toNat ++ textsAfter fs ++ ")"
  | case s bs => "(case " ++ textIn false s ++ textsAfter bs ++ ")"
  | unknown _ => ""
  | missing => "<nil>"

def textsAfter : List Term → String
  | [] => ""
  | t :: ts => " " ++ textIn false t ++ textsAfter ts

end

def text (t : Term) : String :=
  textIn false t

end Term

def Program.text (p : Program) : String :=
  "(program " ++ p.version.language ++ " " ++ p.term.text ++ ")"

end CoreLowering
