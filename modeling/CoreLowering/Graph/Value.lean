import CoreLowering.Core.Builtin
import CoreLowering.Graph.Rep
import CoreLowering.Graph.VarSet
import CoreLowering.Source.Span

/-!
# Values of the graph

Lowering turns an expression into a graph of values.  Each value is a node,
with a type, a layout and a span, and what is known of it: which variables it
uses, how often it is referred to, where its shared parts are bound.

A variable may have a definition, another value.  It is emitted as a name
where it is bound and as its definition where it is not.  An alias is a
variable that shows another one in a different layout.
-/

namespace CoreLowering.Graph

/-- What a case distinguishes. -/
inductive Shape where
  /-- Branches for false and true. -/
  | bool
  | integer
  /-- Branches for a first item with the rest, and for no item. -/
  | list
  /-- One branch, for the two items. -/
  | pair
  /-- Branches for a constructor, a map, a list, an integer and bytes. -/
  | data
  | unit
  deriving DecidableEq

def Shape.name : Shape → String
  | bool => "bool"
  | integer => "integer"
  | list => "list"
  | pair => "pair"
  | data => "data"
  | unit => "unit"

def Shape.branches : Shape → Nat
  | bool => 2
  | list => 2
  | data => 5
  | _ => 1

inductive Node where
  | const (c : Constant)
  | builtinRef (f : Builtin)
  | error (message : String)
  | typeError (message : String)
  /-- A variable with its definition, if it has one. -/
  | var (name : String) (rhs : Option ValueId)
  /-- A variable that shows `origin` in another layout. -/
  | aliased (name : String) (origin : ValueId) (rhs : Option ValueId)
  /-- A function; without a parameter it is held back.  A barrier binds what
  does not depend on the parameter outside the body. -/
  | lambda (param : Option ValueId) (body : ValueId) (barrier : Bool)
  | apply (fn arg : ValueId)
  /-- A scope for variables, one of which may be evaluated on entry. -/
  | letIn (owned : List ValueId) (strict : Option ValueId) (body : ValueId)
  /-- The function `rec`, in which `self` stands for itself. -/
  | fix (self rec : ValueId)
  /-- A case.  A native one binds variables in its branches, any other one
  owns variables that take the scrutinee apart. -/
  | caseOf (shape : Shape) (native : Bool) (scrutinee : ValueId) (branches : List ValueId)
    (owned : List ValueId) (binders : List (List ValueId))
  | builtin (f : Builtin) (args : List ValueId)
  | delay (inner : ValueId)
  | force (inner : ValueId)
  /-- The same thing at run time, seen with another type or layout. -/
  | reinterpret (inner : ValueId)

namespace Node

def kindName : Node → String
  | const _ => "const"
  | builtinRef _ => "builtin"
  | error _ => "error"
  | typeError _ => "type-error"
  | var _ _ => "var"
  | aliased _ _ _ => "alias"
  | lambda _ _ _ => "lambda"
  | apply _ _ => "apply"
  | letIn _ _ _ => "let"
  | fix _ _ => "fix"
  | caseOf _ _ _ _ _ _ => "case"
  | builtin _ [_] => "builtin1"
  | builtin _ [_, _] => "builtin2"
  | builtin _ _ => "builtinN"
  | delay _ => "delay"
  | force _ => "force"
  | reinterpret _ => "reinterpret"

def isLeaf : Node → Bool
  | const _ => true
  | builtinRef _ => true
  | error _ => true
  | typeError _ => true
  | _ => false

def isIdentifiable : Node → Bool
  | var _ _ => true
  | aliased _ _ _ => true
  | _ => false

/-- Whether the node is made of parts and is no mere view of one. -/
def isComposite : Node → Bool
  | lambda _ _ _ => true
  | apply _ _ => true
  | letIn _ _ _ => true
  | fix _ _ => true
  | caseOf _ _ _ _ _ _ => true
  | builtin _ _ => true
  | _ => false

def isProxy : Node → Bool
  | delay _ => true
  | force _ => true
  | reinterpret _ => true
  | _ => false

/-- The parts of a node, in the order in which they are emitted. -/
def subs : Node → List ValueId
  | lambda _ body _ => [body]
  | apply f a => [f, a]
  | letIn _ _ body => [body]
  | fix _ rec => [rec]
  | caseOf _ _ s bs _ _ => s :: bs
  | builtin _ args => args
  | delay x => [x]
  | force x => [x]
  | reinterpret x => [x]
  | _ => []

/-- The variables that a let or a case owns. -/
def owned : Node → List ValueId
  | letIn owned _ _ => owned
  | caseOf _ _ _ _ owned _ => owned
  | _ => []

def scopeOf : Node → List ValueId
  | lambda param _ _ => param.toList
  | letIn owned _ _ => owned
  | fix self _ => [self]
  | caseOf _ _ _ _ owned binders => owned ++ binders.flatten
  | _ => []

def rhs? : Node → Option ValueId
  | var _ rhs => rhs
  | aliased _ _ rhs => rhs
  | _ => none

/-- The name of a variable, or the message of an error. -/
def name : Node → String
  | var x _ => x
  | aliased x _ _ => x
  | error m => m
  | typeError m => m
  | _ => ""

def withRhs (rhs : ValueId) : Node → Node
  | var x _ => var x (some rhs)
  | aliased x o _ => aliased x o (some rhs)
  | n => n

end Node

structure Value where
  node : Node
  type : Ty
  rep : Rep
  span : Span
  /-- The variables needed, those of definitions included; for a variable
  with a definition also itself. -/
  used : VarSet
  /-- The variables referred to without going through another variable. -/
  direct : Counts
  /-- For a variable, the number of places it is referred to from. -/
  refs : Nat
  /-- For any other value, the number of places it is part of. -/
  slots : Nat
  /-- The variables that the definition of a variable refers to. -/
  dependsOn : List ValueId
  /-- The variables whose definitions refer to this one. -/
  dependedBy : List ValueId
  /-- The variables that are evaluated whenever the value is, once known. -/
  certain : Option VarSet
  /-- The variables bound at the value, once known. -/
  placed : Option (List ValueId)

/-- A value of which nothing is known yet. -/
def Value.new (node : Node) (type : Ty) (rep : Rep) (span : Span) : Value :=
  ⟨node, type, rep, span, .empty, .empty, 0, 0, [], [], none, none⟩

end CoreLowering.Graph
