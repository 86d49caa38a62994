import CoreLowering.Graph.Upcast
import CoreLowering.Typed.Expr

/-!
# Parts of the lowering of expressions

How each kind of expression becomes values, given how its parts do.  Parts
are lowered in the order in which they are written.
-/

namespace CoreLowering.Graph

/-- How a part of an expression is lowered. -/
abbrev Lowerer := Expr → LowerM ValueId

def checkOperands (kind : String) (span : Span) (want : Nat) (es : List Expr) :
    LowerM Unit := do
  if es.length ≠ want then failAt (.operands kind want es.length) span

def lowerBool (lower : Lowerer) (e : Expr) : LowerM ValueId := do
  let x ← lower e
  let x ← upcast x .boolean e.span
  toRep x .constant

/-- The layout in which values of a type meet: the first one that is no
failure, if the others can be used as it, else the standard one. -/
def commonRepFrom (ds : Decls) (t : Ty) : Option Rep → List Rep → Rep
  | first, [] => first.getD .error
  | first, .error :: rest => commonRepFrom ds t first rest
  | none, r :: rest => commonRepFrom ds t (some r) rest
  | some first, r :: rest =>
    if ds.compatible t r first then commonRepFrom ds t (some first) rest
    else ds.standardRep t

/-- The layout in which values meet. -/
def commonRep (ids : List ValueId) (t : Ty) : LowerM Rep := do
  let values ← ids.mapM value
  return commonRepFrom (← decls) t none (values.map (·.rep))

/-- The type of alternatives: each joined with those before it. -/
def joinTypes (kind : String) (t : Ty) : List Expr → LowerM Ty
  | [] => return t
  | e :: rest =>
    match t with
    | .missing => joinTypes kind e.type rest
    | t =>
      match t.join e.type with
      | some joined => joinTypes kind joined rest
      | none => fail (.armsDiffer kind t e.type) e.span [t, e.type] []

/-- The type of an expression with alternatives.  Its own type wins, if the
alternatives fit it. -/
def joinArms (kind : String) (type : Ty) (span : Span) (arms : List Expr) : LowerM Ty := do
  let t ← joinTypes kind .missing arms
  match type with
  | .con .free _ => return t
  | .missing => return t
  | type =>
    match t.join type with
    | some _ => return type
    | none => fail (.armsMisfit kind t type) span [t, type] []

def lowerOperator (lower : Lowerer) (type : Ty) (span : Span) (op : Operator)
    (es : List Expr) : LowerM ValueId := do
  checkOperands op.name span op.arity es
  match op, es with
  | .and, [a, b] =>
    let x ← lowerBool lower a
    let y ← lowerBool lower b
    let no ← constValue (.bool false) .boolean span
    ifThenElse x y no .boolean .constant span
  | .or, [a, b] =>
    let x ← lowerBool lower a
    let y ← lowerBool lower b
    let yes ← constValue (.bool true) .boolean span
    ifThenElse x yes y .boolean .constant span
  | .not, [a] =>
    let x ← lowerBool lower a
    let yes ← constValue (.bool true) .boolean span
    let no ← constValue (.bool false) .boolean span
    ifThenElse x no yes .boolean .constant span
  | .ifThenElse, [c, a, b] =>
    let t ← joinArms op.name type span [a, b]
    let cond ← lowerBool lower c
    let x ← lower a
    let x ← upcast x t a.span
    let y ← lower b
    let y ← upcast y t b.span
    let r ← commonRep [x, y] t
    let x ← toRep x r
    let y ← toRep y r
    ifThenElse cond x y t r span
  | .cast, [e] =>
    let id ← lower e
    let v ← value id
    let source := v.type
    let widens := match source.unify type true with
      | .ok _ => true
      | .error _ => !(source.upcastChain type).isEmpty
    if widens then upcast id type span
    else
      let ds ← decls
      let from' := ds.family source
      let to' := ds.family type
      if from' = .typeVar || to' = .typeVar then
        warn .typeVarErasure span
          ("cast from " ++ source.text ++ " to " ++ type.text ++ " erases a type variable")
        let x ← toRep id (ds.packedRep source)
        reinterpret x type (ds.packedRep type)
      else if from' = .data ∧ to' ≠ .function then
        let x ← toRep id .constant
        reinterpret x type (ds.packedRep type)
      else if to' = .data ∧ from' ≠ .function then
        let x ← toRep id (ds.packedRep source)
        reinterpret x type .constant
      else upcast id type span
  | op, es => failAt (.operands op.name op.arity es.length) span

def lowerBinding (lower : Lowerer) (b : Binding) : LowerM ValueId := do
  let type := match b.type with
    | .missing => b.value.type
    | t => t
  let rhs ← lower b.value
  let rhs ← upcast rhs type b.span
  let v ← value rhs
  newVar b.name type v.rep rhs b.span

/-- Warns of a binding that nobody uses although it takes effort. -/
def warnUnused (b : Binding) (id : ValueId) : LowerM Unit := do
  let v ← value id
  match v.refs, v.node.rhs? with
  | 0, some rhs =>
    if !(← effortless rhs) then
      warn .droppedBinding b.span
        ("binding " ++ b.name ++ " is never used and is dropped")
  | _, _ => return ()

def lowerLet (lower : Lowerer) (span : Span) (bs : List Binding) (body : Expr) :
    LowerM ValueId := do
  let owned ← bs.mapM (lowerBinding lower)
  pushScope
  (bs.zip owned).forM fun (b, id) => define b.name id
  let body ← lower body
  popScope
  (bs.zip owned).forM fun (b, id) => warnUnused b id
  letIn owned none body span

def lowerLetRec (lower : Lowerer) (span : Span) (bs : List Binding) (body : Expr) :
    LowerM ValueId := do
  match bs with
  | [b] =>
    if (← family b.type) ≠ .function then
      fail (.recursiveValue b.name) b.span [b.type] []
    let rep ← standardRep b.type
    let self ← newBinder b.name b.type rep b.span
    pushScope
    define b.name self
    let x ← lower b.value
    let x ← upcast x b.type b.span
    let x ← toRep x rep
    setRhs self (← fix self x b.span)
    let body ← lower body
    popScope
    letIn [self] none body span
  | bs => failAt (.recursiveCount bs.length) span

/-- Lowers a function.  One that does not use its unit parameter is held
back instead. -/
def lowerLam (lower : Lowerer) (type : Ty) (span : Span) (param : String) (paramType : Ty)
    (body : Expr) : LowerM ValueId := do
  let paramType := match paramType with
    | .missing => type.input
    | t => t
  let inRep ← standardRep paramType
  let p ← newBinder param paramType inRep span
  pushScope
  define param p
  let x ← lower body
  popScope
  let x ← upcast x body.type body.span
  let x ← toRep x (← standardRep body.type)
  let out := (← value x).rep
  let unused := (← value p).refs = 0
  match paramType.unwrap with
  | .con .unit _ =>
    if unused then lambda none x type (.delayed out) false span
    else lambda (some p) x type (.closure inRep out) true span
  | _ => lambda (some p) x type (.closure inRep out) true span

/-- Applies a closure, whose parameter says the layout of the argument. -/
def applyValue (f arg : ValueId) (type : Ty) (span : Span) : LowerM ValueId := do
  let v ← value f
  if v.rep = .error then return ← apply f arg type .error span
  let f ← if v.rep.isClosure then pure f else toRep f (← standardRep v.type)
  let v ← value f
  match v.rep with
  | .delayed out => force f type out
  | .closure inp out =>
    let a ← upcast arg v.type.input span
    let a ← toRep a inp
    apply f a type out span
  | r => fail (.cannotApply v.type) span [v.type] [r]

/-- The argument of a builtin in the layout it expects.  A declared value
goes in for data as its packed form, and stays as it is where the builtin
does not care. -/
def builtinArg (id : ValueId) (param : Ty) : LowerM ValueId := do
  let v ← value id
  let ds ← decls
  let isFamily := v.type.unwrap.isBuiltinFamily
  if v.rep = .error then return id
  else if param.unwrap.isData && !isFamily && ds.family v.type ≠ .typeVar then
    let x ← toRep id (ds.packedRep v.type)
    reinterpret x .data .constant
  else if param.isVar && !isFamily then return id
  else toRep id .constant

/-- Whether a parameter of a signature is the variable that types the
result. -/
def isResultVar (param output : Ty) : Bool :=
  match param.unwrap, output.unwrap with
  | .var v, .var w => v.id = w.id
  | _, _ => false

/-- Lowers an argument of a builtin.  Where the result is of the type of
this argument, the argument takes the layout of the result. -/
def lowerBuiltinArg (lower : Lowerer) (type output : Ty) (rep : Rep) (e : Expr)
    (param : Ty) : LowerM ValueId := do
  let a ← lower e
  if isResultVar param output then
    let a ← upcast a type e.span
    toRep a rep
  else builtinArg a param

def lowerBuiltinCall (lower : Lowerer) (f : Builtin) (args : List Expr) (type : Ty)
    (span : Span) : LowerM ValueId := do
  let (inputs, output) := Signature.parts f
  let rep ← if output.isVar then standardRep type else pure .constant
  let ids ← (args.zip inputs).mapM fun (e, param) =>
    lowerBuiltinArg lower type output rep e param
  builtin f type rep span ids

/-- The head of nested applications and the arguments with the applications
they belong to, the last argument first. -/
def spine : Expr → Expr × List (Expr × Ty × Span)
  | .node t sp (.apply f a) =>
    let (head, args) := spine f
    (head, (a, t, sp) :: args)
  | e => (e, [])

def applyAll (lower : Lowerer) (f : ValueId) (args : List (Expr × Ty × Span)) :
    LowerM ValueId :=
  args.foldlM (fun f (e, t, sp) => do applyValue f (← lower e) t sp) f

def lowerApply (lower : Lowerer) (type : Ty) (span : Span) (fn arg : Expr) :
    LowerM ValueId := do
  let (head, args) := spine (.node type span (.apply fn arg))
  let args := args.reverse
  let plain := do
    let f ← lower fn
    applyValue f (← lower arg) type span
  match head with
  | .node _ _ (.builtin f) =>
    let n := f.arity
    match args[n - 1]? with
    | some (_, t, sp) =>
      if n = 0 then plain
      else
        let call ← lowerBuiltinCall lower f ((args.take n).map (·.1)) t sp
        applyAll lower call (args.drop n)
    | none => plain
  | _ => plain

/-- The layout of a field that is read out of data. -/
def fieldRep (t : Ty) (span : Span) : LowerM Rep := do
  let ds ← decls
  if ds.family t = .function then
    fail (.functionField t) span [t] [ds.standardRep t, .packed]
  return ds.packedRep t

/-- The fields of a product or a sum as a builtin list. -/
def fieldList (id : ValueId) (span : Span) : LowerM ValueId := do
  let v ← value id
  if v.rep = .prodList then reinterpret id dataListT .constant
  else
    let id ←
      match v.rep with
      | .prodConstr | .sumConstr | .packed | .typeVar _ => pure id
      | _ => toRep id .prodConstr
    let taken ← builtin .unConstrData constrT .constant span [id]
    builtin .sndPair dataListT .constant span [taken]

/-- The tail of a list, `n` times. -/
def dropFields (span : Span) : (n : Nat) → ValueId → LowerM ValueId
  | 0, id => return id
  | n + 1, id => do
    let tail ← builtin .tailList dataListT .constant span [id]
    dropFields span n tail

def nthField (fields : ValueId) (i : Nat) (type : Ty) (span : Span) : LowerM ValueId := do
  let rest ← dropFields span i fields
  builtin .headList type (← fieldRep type span) span [rest]

def selectedConstr (field : String) (t : Ty) (span : Span) :
    LowerM (Decl × Constructor) := do
  match (← decls).find? t.declName with
  | none => fail (.selectUnknown field t) span [t] []
  | some d =>
    let name ←
      match t.constrName, d.constructors with
      | "", [c] => pure c.name
      | "", _ => fail (.selectSum field t) span [t] []
      | name, _ => pure name
    match d.find? name with
    | none => fail (.unknownConstructor name) span [t] []
    | some c => return (d, c)

def lowerSelect (lower : Lowerer) (span : Span) (field : String) (es : List Expr) :
    LowerM ValueId := do
  checkOperands "Select" span 1 es
  match es with
  | [e] =>
    let id ← lower e
    let v ← value id
    let ds ← decls
    let t := v.type.unwrap
    let t := if ds.family t = .typeVar then e.type.unwrap else t
    let (d, c) ← selectedConstr field t span
    match c.fieldIndex? field with
    | none => fail (.noField c.name field) span [t] []
    | some i =>
      let type := ((d.fieldTypes c t.args)[i]?).getD .missing
      if ds.family t = .list then
        let listRep := ds.standardRep (.sum "List" [t.elem])
        let list ← toRep id listRep
        if i = 0 then
          builtin .headList type (ds.elemRep listRep t.elem) span [list]
        else builtin .tailList type listRep span [list]
      else
        match v.rep with
        | .prodPair =>
          let rep ← fieldRep type span
          builtin (if i = 1 then .sndPair else .fstPair) type rep span [id]
        | .prodArray =>
          let k ← integerValue i span
          let rep ← fieldRep type span
          builtin .indexArray type rep span [id, k]
        | _ =>
          let fields ← fieldList id span
          nthField fields i type span
  | _ => failAt (.operands "Select" 1 es.length) span

/-- An item put in front of a list; known constants are put together right
away. -/
def consValue (head list : ValueId) (type : Ty) (rep : Rep) (span : Span) :
    LowerM ValueId := do
  match ← constantOf head, ← constantOf list with
  | some h, some (.list e xs) =>
    if e = h.type then constIn (.list e (h :: xs)) type rep span
    else builtin .mkCons type rep span [head, list]
  | _, _ => builtin .mkCons type rep span [head, list]

def consAll (fields : List ValueId) (span : Span) : LowerM ValueId := do
  let nil ← constValue emptyDataList dataListT span
  fields.reverse.foldlM (fun list x => consValue x list dataListT .constant span) nil

/-- Lowers the arguments of a constructor to packed fields. -/
def lowerFields (lower : Lowerer) (es : List Expr) (types : List Ty) :
    LowerM (List ValueId) :=
  (es.zip types).mapM fun (e, t) => do
    let x ← lower e
    let x ← upcast x t e.span
    toRep x (← fieldRep t e.span)

/-- Lowers a constructor of the declared list type: the empty list, or an
item in front of a list. -/
def lowerListConstr (lower : Lowerer) (type : Ty) (span : Span) (name : String)
    (es : List Expr) (types : List Ty) : LowerM ValueId := do
  let ds ← decls
  let elem := type.unwrap.elem
  let list := Ty.sum "List" [elem]
  let rep := ds.standardRep list
  if name = "Nil" then
    constIn (if rep = .sumPairList then emptyPairList else emptyDataList) type rep span
  else
    match es, types with
    | e :: es, t :: _ =>
      let h ← lower e
      let h ← upcast h t e.span
      let h ← toRep h (ds.elemRep rep elem)
      match es with
      | f :: _ =>
        let x ← lower f
        let x ← upcast x list f.span
        let x ← toRep x rep
        consValue h x type rep span
      | [] => failAt (.outOfRange 1 1) .none
    | _, _ => failAt (.outOfRange 0 0) .none

def lowerConstr (lower : Lowerer) (type : Ty) (span : Span) (decl name : String)
    (es : List Expr) : LowerM ValueId := do
  match (← decls).find? decl with
  | none => fail (.unknownDeclaration decl) span [type] []
  | some d =>
    match d.find? name, d.tag? name with
    | some c, some tag =>
      if es.length ≠ c.fields.length then
        fail (.argumentCount name c.fields.length es.length) span [type] []
      let types := d.fieldTypes c type.unwrap.args
      if d.name = Ty.listName then lowerListConstr lower type span name es types
      else
        let fields ← lowerFields lower es types
        let rep := match type.unwrap with
          | .con (.sum _) _ => if d.isProduct then Rep.prodConstr else .sumConstr
          | _ => .prodConstr
        let list ← consAll fields span
        match (← constantOf list).bind Constant.dataItems with
        | some items =>
          constIn (.data (.constr (UInt64.ofNat tag) items)) type rep span
        | none =>
          let k ← integerValue tag span
          builtin .constrData type rep span [k, list]
    | _, _ => fail (.noConstructor decl name) span [type] []

end CoreLowering.Graph
