import CoreLowering.Diagnostic.Bag
import CoreLowering.Typed.Expr

/-!
# Checking a unit

Before a unit is lowered its shape is checked: every variable is bound,
constructors exist and get as many arguments as they have fields, operators
have their operands, and no type or expression is missing.  `Expr.faults`
lists what is wrong, from the outside in and from left to right.
-/

namespace CoreLowering

def fault (span : Span) (message : String) : Diagnostic :=
  .error .malformed span message

def operandFault (span : Span) (name : String) (want got : Nat) : List Diagnostic :=
  if want = got then []
  else [fault span (name ++ " expects " ++ toString want ++ " operands, has " ++
    toString got)]

def typeFault (type : Ty) (span : Span) (name : String) : List Diagnostic :=
  match type with
  | .missing => [fault span (name ++ " has no type")]
  | _ => []

def constrFault (c : Constructor) (span : Span) (got : Nat) :
    List Diagnostic :=
  let want := c.fields.length
  if want = got then []
  else [fault span (c.name ++ " expects " ++ toString want ++ " arguments, has " ++
    toString got)]

/-- The constructor that an expression names, or the fault of naming none. -/
def findConstr (ds : Decls) (span : Span) (decl name : String) :
    Except Diagnostic (Decl × Constructor) :=
  match ds.find? decl with
  | none => .error (.error .unknownDecl span ("unknown data declaration " ++ decl))
  | some d =>
    match d.find? name with
    | none => .error (fault span (d.name ++ " has no constructor " ++ name))
    | some c => .ok (d, c)

namespace Expr

/-- The names that bindings bind, the last one innermost. -/
def boundBy (bs : List (BindingOf Expr)) (scope : List String) : List String :=
  (bs.map (·.name)).reverse ++ scope

mutual

/-- The faults of an expression in which the names of `scope` are bound. -/
def faults (ds : Decls) (scope : List String) : Expr → List Diagnostic
  | missing => [fault .none "missing expression"]
  | node t sp (.var x) =>
    typeFault t sp "Var" ++
      if scope.contains x then [] else [fault sp ("unbound variable " ++ x)]
  | node t sp (.const c) =>
    typeFault t sp "Const" ++ if c.isSome then [] else [fault sp "constant without value"]
  | node t sp (.builtin _) => typeFault t sp "Builtin"
  | node t sp (.error _) => typeFault t sp "Error"
  | node t sp (.letIn recursive bs body) =>
    let inner := boundBy bs scope
    typeFault t sp "Let" ++ faultsBindings ds (if recursive then inner else scope) bs ++
      body.faults ds inner
  | node t sp (.lam x _ body) => typeFault t sp "LamAbs" ++ body.faults ds (x :: scope)
  | node t sp (.apply f a) =>
    typeFault t sp "Apply" ++ f.faults ds scope ++ a.faults ds scope
  | node t sp (.operator op es) =>
    typeFault t sp op.name ++ operandFault sp op.name op.arity es.length ++
      if es.length = op.arity then faultsAll ds scope es else []
  | node t sp (.select _ es) =>
    typeFault t sp "Select" ++ operandFault sp "Select" 1 es.length ++
      if es.length = 1 then faultsAll ds scope es else []
  | node t sp (.constr decl name es) =>
    typeFault t sp "Constr" ++
      match findConstr ds sp decl name with
      | .error d => [d]
      | .ok (_, c) => constrFault c sp es.length ++ faultsAll ds scope es
  | node t sp (.matchOn es arms) =>
    typeFault t sp "Match" ++ operandFault sp "Match" 1 es.length ++
      if es.length = 1 then faultsAll ds scope es ++ faultsArms ds scope arms else []
  | node t sp (.unknown k) =>
    typeFault t sp (Form.unknownName k) ++
      [fault sp ("unknown expression kind " ++ Form.unknownName k)]

def faultsAll (ds : Decls) (scope : List String) : List Expr → List Diagnostic
  | [] => []
  | e :: es => e.faults ds scope ++ faultsAll ds scope es

def faultsBindings (ds : Decls) (scope : List String) :
    List (BindingOf Expr) → List Diagnostic
  | [] => []
  | ⟨_, _, e, _⟩ :: bs => e.faults ds scope ++ faultsBindings ds scope bs

def faultsArms (ds : Decls) (scope : List String) : List (ArmOf Expr) → List Diagnostic
  | [] => []
  | ⟨_, binders, e, _⟩ :: arms =>
    e.faults ds (binders.reverse ++ scope) ++ faultsArms ds scope arms

end

end Expr

def Module.faults (m : Module) (ds : Decls) : List Diagnostic :=
  m.root.faults ds []

end CoreLowering
