import CoreLowering.Core.Builtin
import CoreLowering.Source.Span
import CoreLowering.Typed.Decl

/-!
# Expressions of the typed language

Every expression carries its type and its span.  Where a unit leaves an
expression out, it is missing.  The operators take lists of operands, because
a unit may come with any number of them; a unit is checked for the right
number before it is lowered.
-/

namespace CoreLowering

structure BindingOf (E : Type) where
  name : String
  type : Ty
  value : E
  span : Span

/-- An arm of a match: a constructor or the wildcard, names for its fields,
and a body. -/
structure ArmOf (E : Type) where
  constr : String
  binders : List String
  body : E
  span : Span

/-- The operators that take a fixed number of operands. -/
inductive Operator where
  | and
  | or
  | not
  | ifThenElse
  | cast
  deriving DecidableEq

/-- The shapes of an expression with parts of type `E`. -/
inductive Form (E : Type) where
  | var (name : String)
  | const (c : Option Constant)
  | letIn (recursive : Bool) (bindings : List (BindingOf E)) (body : E)
  | lam (param : String) (type : Ty) (body : E)
  | apply (fn arg : E)
  | select (field : String) (operands : List E)
  | operator (op : Operator) (operands : List E)
  | builtin (f : Builtin)
  | error (message : String)
  | constr (decl name : String) (operands : List E)
  | matchOn (operands : List E) (arms : List (ArmOf E))
  | unknown (kind : UInt8)

inductive Expr where
  | missing
  | node (type : Ty) (span : Span) (form : Form Expr)

abbrev Binding := BindingOf Expr

abbrev Arm := ArmOf Expr

/-- The constructor name of an arm that takes everything. -/
def Arm.wildcard : String := "_"

def Operator.name : Operator → String
  | and => "And"
  | or => "Or"
  | not => "Not"
  | ifThenElse => "IfThenElse"
  | cast => "Cast"

def Operator.arity : Operator → Nat
  | and => 2
  | or => 2
  | not => 1
  | ifThenElse => 3
  | cast => 1

/-- The name of a kind number that names no expression. -/
def Form.unknownName (kind : UInt8) : String :=
  "ExprKind(" ++ toString kind.toNat ++ ")"

def Form.kindName {E : Type} : Form E → String
  | var _ => "Var"
  | const _ => "Const"
  | letIn _ _ _ => "Let"
  | lam _ _ _ => "LamAbs"
  | apply _ _ => "Apply"
  | select _ _ => "Select"
  | operator op _ => op.name
  | builtin _ => "Builtin"
  | error _ => "Error"
  | constr _ _ _ => "Constr"
  | matchOn _ _ => "Match"
  | unknown k => unknownName k

namespace Expr

def type : Expr → Ty
  | missing => .missing
  | node t _ _ => t

def span : Expr → Span
  | missing => .none
  | node _ s _ => s

/-- The text of an expression, which shows functions, applications and
fields in full and names the rest. -/
def text : Expr → String
  | missing => "<nil>"
  | node _ _ (.var x) => x
  | node _ _ (.const (some c)) => c.text
  | node _ _ (.lam x t body) => "\\" ++ x ++ ": " ++ t.text ++ " -> " ++ body.text
  | node _ _ (.apply f a) => "(" ++ f.text ++ " " ++ a.text ++ ")"
  | node _ _ (.builtin f) => f.name
  | node _ _ (.select field (e :: _)) => e.text ++ "." ++ field
  | node _ _ (.constr _ c es) => c ++ "(..." ++ toString es.length ++ ")"
  | node _ _ (.error m) => "error(" ++ quote m ++ ")"
  | node t _ f => f.kindName ++ ": " ++ t.text

mutual

def depth : Expr → Nat
  | missing => 0
  | node _ _ (.letIn _ bs body) => max (depthBindings bs) body.depth + 1
  | node _ _ (.lam _ _ body) => body.depth + 1
  | node _ _ (.apply f a) => max f.depth a.depth + 1
  | node _ _ (.select _ es) => depthAll es + 1
  | node _ _ (.operator _ es) => depthAll es + 1
  | node _ _ (.constr _ _ es) => depthAll es + 1
  | node _ _ (.matchOn es arms) => max (depthAll es) (depthArms arms) + 1
  | node _ _ _ => 0

def depthAll : List Expr → Nat
  | [] => 0
  | e :: es => max e.depth (depthAll es)

/-- The greatest depth of bound expressions. -/
def depthBindings : List (BindingOf Expr) → Nat
  | [] => 0
  | ⟨_, _, e, _⟩ :: bs => max e.depth (depthBindings bs)

/-- The greatest depth of the bodies of arms. -/
def depthArms : List (ArmOf Expr) → Nat
  | [] => 0
  | ⟨_, _, e, _⟩ :: arms => max e.depth (depthArms arms)

end

end Expr

/-- A unit: its name, its declarations and the expression to lower. -/
structure Module where
  name : String
  decls : List Decl
  root : Expr

namespace Module

def scope (m : Module) : Except DeclaredTwice Decls :=
  (Decls.ofList m.decls).map Decls.withPrelude

end Module

end CoreLowering
