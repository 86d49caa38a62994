import CoreLowering.Graph.Usage
import CoreLowering.Typed.Signature

/-!
# Building nodes

One function for each kind of node, and what is known of a value from its
node: whether it is a constant, whether evaluating it is worth sharing.
-/

namespace CoreLowering.Graph

def dataListT : Ty := .builtinList .data

def dataPairT : Ty := .builtinPair .data .data

def pairListT : Ty := .builtinList dataPairT

/-- The type of a tag with packed fields. -/
def constrT : Ty := .builtinPair .integer dataListT

def emptyDataList : Constant := .list .data []

def emptyPairList : Constant := .list .dataPair []

def constIn (c : Constant) (type : Ty) (rep : Rep) (span : Span) : LowerM ValueId :=
  newNode (.const c) type rep span

def constValue (c : Constant) (type : Ty) (span : Span) : LowerM ValueId :=
  constIn c type .constant span

def integerValue (n : Int) (span : Span) : LowerM ValueId :=
  constValue (.integer n) .integer span

/-- A failure of the program itself. -/
def errorValue (message : String) (type : Ty) (span : Span) : LowerM ValueId :=
  newNode (.error message) type .error span

/-- A failure in a place that a well-typed program does not reach. -/
def typeErrorValue (message : String) (type : Ty) (span : Span) : LowerM ValueId :=
  newNode (.typeError message) type .error span

/-- A value seen with another type and layout.  A view of a view is a view
of the value underneath. -/
def reinterpret (id : ValueId) (type : Ty) (rep : Rep) : LowerM ValueId := do
  let v ← value id
  let type := match type with
    | .missing => v.type
    | t => t
  if v.rep = rep ∧ type.same v.type then return id
  let inner := match v.node with
    | .reinterpret x => x
    | _ => id
  newNode (.reinterpret inner) type rep v.span

/-- A value that is held back, set free. -/
def force (id : ValueId) (type : Ty) (rep : Rep) : LowerM ValueId := do
  let v ← value id
  newNode (.force id) type rep v.span

/-- An application without any change of layout. -/
def apply (f arg : ValueId) (type : Ty) (rep : Rep) (span : Span) : LowerM ValueId :=
  newNode (.apply f arg) type rep span

/-- A builtin applied to arguments that have their layouts. -/
def builtin (f : Builtin) (type : Ty) (rep : Rep) (span : Span) (args : List ValueId) :
    LowerM ValueId := do
  let version ← target
  if !f.availableIn version then failAt (.unsupportedBuiltin f version) span
  newNode (.builtin f args) type rep span

/-- The layout that a builtin expects for a parameter. -/
def paramRep (t : Ty) : Rep :=
  if t.isVar then .typeVar true else .constant

/-- The layout of a builtin that is not applied. -/
def builtinRep (f : Builtin) : Rep :=
  let (inputs, output) := Signature.parts f
  inputs.foldr (fun t r => .closure (paramRep t) r) (paramRep output)

def builtinRef (f : Builtin) (span : Span) : LowerM ValueId :=
  newNode (.builtinRef f) (Signature.of f) (builtinRep f) span

def lambda (param : Option ValueId) (body : ValueId) (type : Ty) (rep : Rep)
    (barrier : Bool) (span : Span) : LowerM ValueId :=
  newNode (.lambda param body barrier) type rep span

def fix (self rec : ValueId) (span : Span) : LowerM ValueId := do
  let v ← value rec
  newNode (.fix self rec) v.type v.rep span

def letIn (owned : List ValueId) (strict : Option ValueId) (body : ValueId) (span : Span) :
    LowerM ValueId := do
  let v ← value body
  newNode (.letIn owned strict body) v.type v.rep span

namespace State

/-- The constant that a value is known to be, following at most `fuel`
definitions and views. -/
def constantIn (s : State) : (fuel : Nat) → ValueId → Option Constant
  | 0, _ => none
  | fuel + 1, id =>
    match s.value? id with
    | none => none
    | some v =>
      match v.node with
      | .const c => some c
      | .var _ (some rhs) => s.constantIn fuel rhs
      | .aliased _ _ (some rhs) => s.constantIn fuel rhs
      | .reinterpret x => s.constantIn fuel x
      | _ => none

def constantReach : Nat := 64

def constant? (s : State) (id : ValueId) : Option Constant :=
  s.constantIn constantReach id

/-- The node under all views, looking through at most `fuel` of them. -/
def underViewsIn (s : State) : (fuel : Nat) → ValueId → Option Node
  | 0, _ => none
  | fuel + 1, id =>
    match s.value? id with
    | none => none
    | some v =>
      match v.node with
      | .reinterpret x => s.underViewsIn fuel x
      | n => some n

def underViews (s : State) (id : ValueId) : Option Node :=
  s.underViewsIn (s.size + 1) id

/-- Whether evaluating a value costs nothing worth sharing. -/
def isEffortless (s : State) (id : ValueId) : Bool :=
  match s.underViews id with
  | some (.const _) => true
  | some (.builtinRef _) => true
  | some (.var _ _) => true
  | some (.aliased _ _ _) => true
  | some (.lambda _ _ _) => true
  | some (.delay _) => true
  | _ => false

end State

def constantOf (id : ValueId) : LowerM (Option Constant) := do
  let _ ← value id
  return (← get).constant? id

/-- Whether evaluating a value costs nothing worth sharing. -/
def effortless (id : ValueId) : LowerM Bool := do
  let _ ← value id
  return (← get).isEffortless id

end CoreLowering.Graph
