import CoreLowering.Core.Term.Printer
import CoreLowering.Text.Columns

/-!
# The layout of terms

`Term.layout` writes a term over several lines.  A term that fits into the
width, measured in display columns from its indent on, stays on one line.
Otherwise its head stays where it is and each of its parts goes on a line of
its own, two columns further in.
-/

namespace CoreLowering.Term

/-- The width used when none is given. -/
def standardWidth : Nat := 80

/-- The indent of the parts of a term that starts at `indent`. -/
def partIndent (indent : Nat) : Nat :=
  2 * (indent / 2 + 1)

def newLine (indent : Nat) : String :=
  "\n" ++ String.ofList (List.replicate indent ' ')

section

variable (fits : Nat → String → Bool)

mutual

/-- The layout of a term at `indent`, where `fits` says which texts stay on one
line there.  In a chain of applications (`inChain`) `indent` is where the chain
starts: its head stands one column further in, after the bracket, and its
arguments a line each. -/
def layoutIn (inChain : Bool) (indent : Nat) (t : Term) : String :=
  let start := if inChain then indent + 1 else indent
  let i := partIndent start
  match t with
  | apply f a =>
    let parts := layoutIn true indent f ++ newLine (partIndent indent)
      ++ layoutIn false (partIndent indent) a
    if inChain then parts
    else if fits indent (apply f a).text then (apply f a).text
    else "[" ++ parts ++ "]"
  | lam x b =>
    if fits start (lam x b).text then (lam x b).text
    else "(lam " ++ x ++ newLine i ++ layoutIn false i b ++ ")"
  | force b =>
    if fits start (force b).text then (force b).text
    else "(force" ++ newLine i ++ layoutIn false i b ++ ")"
  | delay b =>
    if fits start (delay b).text then (delay b).text
    else "(delay" ++ newLine i ++ layoutIn false i b ++ ")"
  | constr tag fs =>
    if fits start (constr tag fs).text then (constr tag fs).text
    else "(constr " ++ toString tag.toNat ++ layoutParts i fs ++ ")"
  | case s bs =>
    if fits start (case s bs).text then (case s bs).text
    else "(case" ++ newLine i ++ layoutIn false i s ++ layoutParts i bs ++ ")"
  | t => t.text

/-- The layout of parts, each on a line of its own. -/
def layoutParts (indent : Nat) : List Term → String
  | [] => ""
  | t :: ts => newLine indent ++ layoutIn false indent t ++ layoutParts indent ts

end

end

/-- The layout of a term in lines of at most `width` columns where it can be
broken, `columns` being the columns a text takes; a width that is not positive
means the standard one. -/
def layoutBy (columns : String → Int) (t : Term) (width : Int) : String :=
  let width := if width ≤ 0 then (standardWidth : Int) else width
  layoutIn (fun indent text => indent + columns text ≤ width) false 0 t

/-- The layout of a term on a display of fixed width. -/
def layout (t : Term) (width : Int) : String :=
  layoutBy (fun text => Columns.ofText text) t width

end CoreLowering.Term
