import CoreLowering.Graph.Emit

/-!
# Lowering a unit

A unit is lowered by building its root, emitting the term and binding the
fixed-point combinator around it if it is used.
-/

namespace CoreLowering.Graph

def fixHalf : Term :=
  .lam "x" (.apply (.var "f")
    (.lam "v" (.applyAll (.var "x") [.var "x", .var "v"])))

def fixCombinator : Term :=
  .lam "f" (.apply fixHalf fixHalf)

/-- Binds the fixed-point combinator around a term that uses it. -/
def link (t : Term) (usesFix : Bool) : Term :=
  if usesFix then .apply (.lam fixName t) fixCombinator else t

/-- What comes out of lowering. -/
structure Result where
  /-- The term with the fixed-point combinator bound. -/
  term : Term
  unlinked : Term
  usesFix : Bool
  type : Ty
  rep : Rep

def run (root : Expr) : LowerM Result := do
  let id ← build root
  let t ← emit id
  let v ← value id
  let usesFix := (← get).usesFix
  return ⟨link t usesFix, t, usesFix, v.type, v.rep⟩

/-- Why a unit could not be lowered. -/
inductive LowerError where
  | noRoot
  | declaredTwice (unit : String) (e : DeclaredTwice)
  | failed (f : Failure)

def LowerError.message : LowerError → String
  | noRoot => "lower: module has no root expression"
  | declaredTwice unit e => "lower " ++ unit ++ ": " ++ e.message
  | failed f => f.message

/-- What is left of a lowering: its result, its findings and its trail. -/
structure Lowered where
  result : Except LowerError Result
  stats : Stats
  diagnostics : List Diagnostic
  trail : Option (List Point)

def Lowered.refused (e : LowerError) : Lowered :=
  ⟨.error e, ⟨0, 0, 0, 0, 0, 0⟩, [], none⟩

def lowerWith (decls : Decls) (root : Expr) (target : Version) (debug : Bool) : Lowered :=
  let (result, s) := (run root).run (State.new target decls debug)
  ⟨result.mapError .failed, s.stats, s.diagnostics, some s.trail⟩

def lowerModule (m : Module) (target : Version) (debug : Bool) : Lowered :=
  match m.root with
  | .missing => .refused .noRoot
  | root =>
    match m.scope with
    | .error e => .refused (.declaredTwice m.name e)
    | .ok decls => lowerWith decls root target debug

end CoreLowering.Graph
