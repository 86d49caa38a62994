import CoreLowering.Core.Term
import CoreLowering.Graph.LowerExpr
import CoreLowering.Graph.Placement

/-!
# Emitting terms

A value becomes a term.  The variables that are bound at a value become
functions around its term, applied to their definitions.  A variable that is
bound where it is used becomes its name, any other variable its definition.
`emitWith` takes the placement of bindings as an argument; `emit` uses the
one that shares work.
-/

namespace CoreLowering.Graph

/-- Which variables to bind at a value. -/
abbrev Placing := ValueId → LowerM (List ValueId)

/-- The values whose names are bound around a term. -/
abbrev Bound := List ValueId

abbrev Emitter := Bound → ValueId → LowerM Term

/-- A definition to bind around a term. -/
structure Bind where
  name : String
  definition : Term

/-- A term with definitions bound around it, the first one outermost. -/
def wrapBinds (binds : List Bind) (t : Term) : Term :=
  binds.foldr (fun b t => .apply (.lam b.name t) b.definition) t

/-- Emits the definitions of the variables bound at a value. -/
def emitBinds (emit : Emitter) (kind : String) (id : ValueId) :
    List ValueId → Bound → LowerM (List Bind × Bound)
  | [], bound => return ([], bound)
  | x :: xs, bound => do
    if bound.contains x then emitBinds emit kind id xs bound
    else
      let v ← value x
      match v.node.rhs? with
      | none => failAt (.invalidValue 0) .none
      | some rhs =>
        let definition ← emit bound rhs
        modify fun s => { s with bindings := s.bindings + 1 }
        point "bind" (v.node.name ++ " at " ++ kind ++ "#" ++ toString id)
        let (rest, bound) ← emitBinds emit kind id xs (x :: bound)
        return (⟨v.node.name, definition⟩ :: rest, bound)

def emitVar (emit : Emitter) (bound : Bound) (id : ValueId) (v : Value) : LowerM Term := do
  if bound.contains id then return .var v.node.name
  match v.node.rhs? with
  | some rhs =>
    modify fun s => { s with inlined := s.inlined + 1 }
    emit bound rhs
  | none => fail (.unboundInTerm v.node.name) v.span [v.type] [v.rep]

def underBinders (emit : Emitter) (bound : Bound) (binders : List ValueId) (body : ValueId) :
    LowerM Term := do
  let t ← emit (binders ++ bound) body
  let names ← binders.mapM fun b => do return (← value b).node.name
  return names.foldr .lam t

/-- The variable at the end of a chain of definitions that are variables,
if it is one to evaluate first: one that is not bound and has a definition
that takes effort. -/
def State.strictRoot (s : State) (bound : Bound) :
    (fuel : Nat) → ValueId → Option (ValueId × ValueId)
  | 0, _ => none
  | fuel + 1, id =>
    match s.value? id with
    | none => none
    | some v =>
      if bound.contains id then none
      else
        match v.node.rhs? with
        | none => none
        | some rhs =>
          match s.value? rhs with
          | none => none
          | some r =>
            if r.node.isIdentifiable then s.strictRoot bound fuel rhs
            else if s.isEffortless rhs then none
            else some (id, rhs)

/-- Emits a value after the definition of a variable, which is evaluated
even where the value does not look at it. -/
def strictly (emit : Emitter) (bound : Bound) (id body : ValueId) : LowerM Term := do
  let s ← get
  match s.strictRoot bound (s.size + 1) id with
  | none => emit bound body
  | some (x, rhs) =>
    let v ← value x
    let definition ← emit bound rhs
    let t ← emit (x :: bound) body
    modify fun s => { s with bindings := s.bindings + 1 }
    return .apply (.lam v.node.name t) definition

/-- An error term.  When debugging it writes a message first. -/
def errorTerm (message : String) : LowerM Term := do
  if (← get).debug && message ≠ "" then
    return .force (.applyAll (.ofBuiltin .trace) [.con (.string message), .delay .error])
  else return .error

def emitDelayed (emit : Emitter) (bound : Bound) (ids : List ValueId) : LowerM (List Term) :=
  ids.mapM fun id => do return .delay (← emit bound id)

/-- Emits a choice by a builtin that takes the scrutinee and the branches,
held back. -/
def emitChoice (emit : Emitter) (bound : Bound) (f : Builtin) (scrutinee : ValueId)
    (branches : List ValueId) : LowerM Term := do
  let s ← emit bound scrutinee
  let bs ← emitDelayed emit bound branches
  return .force (.applyAll (.ofBuiltin f) (s :: bs))

def emitEmulated (emit : Emitter) (bound : Bound) (span : Span) (shape : Shape)
    (scrutinee : ValueId) (branches : List ValueId) : LowerM Term :=
  match shape, branches with
  | .bool, [no, yes] => emitChoice emit bound .ifThenElse scrutinee [yes, no]
  | .unit, [only] => emitChoice emit bound .chooseUnit scrutinee [only]
  | .list, [cons, nil] => emitChoice emit bound .chooseList scrutinee [nil, cons]
  | .pair, [only] => strictly emit bound scrutinee only
  | .data, branches => emitChoice emit bound .chooseData scrutinee branches
  | shape, _ => failAt (.noEmulation shape) span

def emitBranches (emit : Emitter) (bound : Bound) :
    List ValueId → List (List ValueId) → LowerM (List Term)
  | [], _ => return []
  | b :: bs, binders => do
    let t ← underBinders emit bound (binders.head?.getD []) b
    return t :: (← emitBranches emit bound bs binders.tail)

def emitNode (emit : Emitter) (bound : Bound) (v : Value) : LowerM Term := do
  match v.node with
  | .const c => return .con c
  | .builtinRef f => return .ofBuiltin f
  | .error message => errorTerm message
  | .typeError message => errorTerm message
  | .lambda none body _ => return .delay (← emit bound body)
  | .lambda (some param) body _ => underBinders emit bound [param] body
  | .apply f a =>
    let f ← emit bound f
    return .apply f (← emit bound a)
  | .letIn _ (some strict) body => strictly emit bound strict body
  | .letIn _ none body => emit bound body
  | .fix self rec =>
    modify fun s => { s with usesFix := true }
    return .apply (.var fixName) (← underBinders emit bound [self] rec)
  | .caseOf _ true scrutinee branches _ binders =>
    let terms ← emitBranches emit bound branches binders
    return .case (← emit bound scrutinee) terms
  | .caseOf shape false scrutinee branches _ _ =>
    emitEmulated emit bound v.span shape scrutinee branches
  | .builtin f args =>
    let args ← args.mapM (emit bound)
    return .applyAll (.ofBuiltin f) args
  | .delay x => return .delay (← emit bound x)
  | .force x =>
    match (← value x).node with
    | .delay y => emit bound y
    | _ => return .force (← emit bound x)
  | .reinterpret x => emit bound x
  | .var name _ => return .var name
  | .aliased name _ _ => return .var name

/-- Emits a value, given how its parts are emitted. -/
def emitStep (placing : Placing) (emit : Emitter) (bound : Bound) (id : ValueId) :
    LowerM Term := do
  let v ← value id
  if v.node.isIdentifiable then emitVar emit bound id v
  else
    let here ← placing id
    let (binds, inside) ← emitBinds emit v.node.kindName id here bound
    let t ← emitNode emit inside v
    return wrapBinds binds t

/-- Emits a value, following at most `fuel` parts and definitions. -/
def emitIn (placing : Placing) : (fuel : Nat) → Emitter
  | 0, _, _ => failAt .endlessTerm .none
  | fuel + 1, bound, id => emitStep placing (emitIn placing fuel) bound id

def emitWith (placing : Placing) (id : ValueId) : LowerM Term := do
  let n := (← get).size + 1
  emitIn placing (n * n) [] id

def emit (id : ValueId) : LowerM Term :=
  reporting (emitWith dominating id)

end CoreLowering.Graph
