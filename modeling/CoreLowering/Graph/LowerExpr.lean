import CoreLowering.Graph.Match

/-!
# Lowering of expressions

`lowerExpr` turns an expression into a value of the graph, and `build` does
so for the root of a unit: the value comes out in the standard layout of its
type, and everything it uses is bound.
-/

namespace CoreLowering.Graph

/-- Lowers an expression, given how its parts are lowered. -/
def lowerStep (lower : Lowerer) (e : Expr) : LowerM ValueId := do
  match e with
  | .missing => failAt .missingExpression .none
  | .node .missing span form => failAt (.untyped form.kindName) span
  | .node type span form =>
    point "lower" form.kindName
    match form with
    | .var x =>
      match ← lookupName x with
      | some id => return id
      | none => fail (.unboundVariable x) span [type] []
    | .const (some c) => constValue c type span
    | .const none => failAt .constantWithoutValue span
    | .letIn true bs body => lowerLetRec lower span bs body
    | .letIn false bs body => lowerLet lower span bs body
    | .lam x t body => lowerLam lower type span x t body
    | .apply f a => lowerApply lower type span f a
    | .select field es => lowerSelect lower span field es
    | .operator op es => lowerOperator lower type span op es
    | .builtin f => builtinRef f span
    | .error message => errorValue message type span
    | .constr decl name es => lowerConstr lower type span decl name es
    | .matchOn es arms => lowerMatch lower type span es arms
    | .unknown kind => failAt (.unknownKind (Form.unknownName kind)) span

/-- Lowers an expression that is at most `fuel` deep. -/
def lowerExprIn : (fuel : Nat) → Lowerer
  | 0, _ => failAt .missingExpression .none
  | fuel + 1, e => lowerStep (lowerExprIn fuel) e

def lowerExpr (e : Expr) : LowerM ValueId :=
  lowerExprIn (e.depth + 1) e

def checkDefined (id : ValueId) : LowerM Unit := do
  let v ← value id
  if v.node.rhs?.isNone then
    fail (.unboundAtTop v.node.name) v.span [v.type] [v.rep]

/-- Reports a failure, unless it is one of the lowering itself. -/
def reporting {α : Type} (m : LowerM α) : LowerM α :=
  tryCatch m fun f => do
    if f.code ≠ .internal then
      modify fun s => { s with reported := f.diagnostic :: s.reported }
    throw f

def build (e : Expr) : LowerM ValueId :=
  reporting do
    let id ← lowerExpr e
    let id ← upcast id e.type e.span
    let id ← toRep id (← standardRep e.type)
    ((← get).usedOf id).ids.forM checkDefined
    return id

def convert (id : ValueId) (rep : Rep) : LowerM ValueId :=
  reporting (toRep id rep)

end CoreLowering.Graph
