import CoreLowering.Typed.Unify
import CoreLowering.Graph.Helper

/-!
# Changing the layout of a value

`toRep` gives a value in another layout.  A layout that can be used as it is
needs a view only.  A variable gets one alias for each layout it is wanted
in, always made from the variable itself.  Closures are wrapped so that
argument and result are converted.  Everything else goes along the edges of
its type; known constants are converted right away.

A change of layout leads to others: of the items of a list, of the argument
and the result of a closure.  These get smaller, and their number is bounded
by the sizes of the type and of the two layouts.  A change can also lead back
to itself; the bound on nested changes is one that no other change reaches.
-/

namespace CoreLowering.Graph

/-- A nested change of layout. -/
abbrev Converter := ValueId → Rep → LowerM ValueId

/-- A field of an array put in front of the fields after it. -/
def fieldOfArray (array : ValueId) (span : Span) (rest : ValueId) (i : Nat) :
    LowerM ValueId := do
  let k ← integerValue i span
  let field ← builtin .indexArray .data .constant span [array, k]
  builtin .mkCons dataListT .constant span [field, rest]

/-- Does the work of a conversion to the layout `goal`. -/
def Work.build (convert : Converter) (w : Work) (goal : Rep) (id : ValueId) (type : Ty)
    (span : Span) : LowerM ValueId := do
  match w with
  | call f => builtin f type goal span [id]
  | packString =>
    let bytes ← builtin .encodeUtf8 .byteString .constant span [id]
    builtin .bData type .packed span [bytes]
  | unpackString =>
    let bytes ← builtin .unBData .byteString .constant span [id]
    builtin .decodeUtf8 type .constant span [bytes]
  | packBool =>
    let yes ← constValue (.data (.ofBool true)) .data span
    let no ← constValue (.data (.ofBool false)) .data span
    builtin .ifThenElse type .packed span [id, yes, no]
  | unpackBool =>
    let taken ← builtin .unConstrData constrT .constant span [id]
    let tag ← builtin .fstPair .integer .constant span [taken]
    let one ← integerValue 1 span
    builtin .equalsInteger type .constant span [tag, one]
  | packUnit =>
    let unit ← constValue (.data (.ofBool false)) .data span
    if ← effortless id then reinterpret unit type .packed
    else builtin .chooseUnit type .packed span [id, unit]
  | unpackUnit =>
    let unit ← constValue .unit type span
    if ← effortless id then return unit
    else builtin .chooseData type .constant span [id, unit, unit, unit, unit, unit]
  | packPair =>
    let pair ← letVar "pair" id
    let fields ← pairToFields pair span
    let tag ← integerValue 0 span
    builtin .constrData type .packed span [tag, fields]
  | unpackPair =>
    let taken ← builtin .unConstrData constrT .constant span [id]
    let snd ← builtin .sndPair dataListT .constant span [taken]
    let fields ← letVar "fields" snd
    fieldsToPair fields type .constant span
  | packItems elem =>
    let helper ← packHelper convert elem
    let items ← apply helper id dataListT .constant span
    builtin .listData type .packed span [items]
  | unpackItems elem ct =>
    let items ← builtin .unListData dataListT .constant span [id]
    let helper ← unpackHelper convert elem ct
    apply helper items type .constant span
  | packComponents a b =>
    let pair ← letVar "pair" id
    let fst ← convert (← builtin .fstPair a .constant span [pair]) .packed
    let snd ← convert (← builtin .sndPair b .constant span [pair]) .packed
    let empty ← constValue emptyDataList dataListT span
    let tail ← builtin .mkCons dataListT .constant span [snd, empty]
    let fields ← builtin .mkCons dataListT .constant span [fst, tail]
    let tag ← integerValue 0 span
    builtin .constrData type .packed span [tag, fields]
  | helper h =>
    let helper ← pairHelper h
    apply helper id type goal span
  | takeFields =>
    let taken ← builtin .unConstrData constrT .constant span [id]
    builtin .sndPair type .prodList span [taken]
  | tagFields tag =>
    let k ← integerValue tag span
    builtin .constrData type .prodConstr span [k, id]
  | pairOfFields =>
    let fields ← letVar "fields" id
    fieldsToPair fields type .prodPair span
  | fieldsOfPair =>
    let pair ← letVar "pair" id
    let fields ← pairToFields pair span
    reinterpret fields type .prodList
  | fieldsOfArray n =>
    let array ← letVar "fields" id
    let empty ← constValue emptyDataList dataListT span
    let fields ← (List.range n).reverse.foldlM (fieldOfArray array span) empty
    reinterpret fields type .prodList

/-- Follows one edge; a known constant is converted right away. -/
def followEdge (convert : Converter) (type : Ty) (span : Span) (id : ValueId) (e : Edge) :
    LowerM ValueId := do
  match (← constantOf id).bind e.work.fold with
  | some c => constIn c type e.goal span
  | none =>
    let out ← e.work.build convert e.goal id type span
    let v ← value out
    if v.rep = e.goal then return out else reinterpret out type e.goal

/-- The failure of a change of layout. -/
def noConversion {α : Type} (v : Value) (goal : Rep) : LowerM α :=
  fail (.noConversion v.rep goal v.type) v.span [v.type] [v.rep, goal]

/-- Wraps a closure, so that its argument and its result get other
layouts. -/
def convertClosure (convert : Converter) (id : ValueId) (goal : Rep) : LowerM ValueId := do
  let v ← value id
  if !(v.rep.isClosure && goal.isClosure) then noConversion v goal
  let f ← if ← effortless id then pure id else letVar "f" id
  let input := v.type.input
  let output := v.type.output
  match v.rep, goal with
  | .delayed out, .delayed goalOut =>
    let body ← convert (← force f output out) goalOut
    lambda none body v.type goal false v.span
  | .delayed out, .closure goalIn goalOut =>
    let param ← newBinder "u" input goalIn v.span
    let body ← convert (← force f output out) goalOut
    lambda (some param) body v.type goal false v.span
  | .closure inp out, .delayed goalOut =>
    let arg ← convert (← constValue .unit .unit v.span) inp
    let body ← convert (← apply f arg output out v.span) goalOut
    lambda none body v.type goal false v.span
  | .closure inp out, .closure goalIn goalOut =>
    let param ← newBinder "x" input goalIn v.span
    let arg ← convert param inp
    let body ← convert (← apply f arg output out v.span) goalOut
    lambda (some param) body v.type goal false v.span
  | _, _ => noConversion v goal

/-- Changes the layout of a value where a view is not enough. -/
def convertValue (convert : Converter) (id : ValueId) (goal : Rep) : LowerM ValueId := do
  let v ← value id
  let ds ← decls
  if v.rep = .error || goal = .typeVar true then reinterpret id v.type goal
  else if goal = .typeVar false then
    let packed ← convert id (ds.packedRep v.type)
    reinterpret packed v.type goal
  else if v.rep.isTypeVar then
    let known := if v.rep = .typeVar true then ds.standardRep v.type else ds.packedRep v.type
    convert (← reinterpret id v.type known) goal
  else if v.rep.isClosure || goal.isClosure then convertClosure convert id goal
  else
    let source := ds.normalRep v.type v.rep
    let normal := ds.normalRep v.type goal
    if source = normal then reinterpret id v.type goal
    else
      match path? (edges ds (← target) v.type) source normal with
      | none => noConversion v goal
      | some way =>
        let out ← way.foldlM (followEdge convert v.type v.span) id
        reinterpret out v.type goal

def rootVar (id : ValueId) : LowerM (Option ValueId) := do
  let v ← value id
  match v.node with
  | .aliased _ origin _ => return some origin
  | .var _ _ => return some id
  | .reinterpret x =>
    let inner ← value x
    if inner.type.same v.type then
      match inner.node with
      | .aliased _ origin _ => return some origin
      | .var _ _ => return some x
      | _ => return none
    else return none
  | _ => return none

/-- A variable as the constant it is known to be, in another layout. -/
def foldedView (root : ValueId) (v : Value) (goal : Rep) : LowerM (Option Constant) := do
  let c ← constantOf root
  let ds ← decls
  let version ← target
  return c.bind (foldPath ds version v.type v.rep goal)

def rememberView (root : ValueId) (goal : Rep) (id : ValueId) : LowerM Unit :=
  modify fun s => { s with views := ((root, goal.key), id) :: s.views }

/-- The one alias of a variable in another layout. -/
def aliasOf (convert : Converter) (root : ValueId) (goal : Rep) : LowerM ValueId := do
  let v ← value root
  if v.rep = goal then return root
  if (← decls).compatible v.type v.rep goal then return ← reinterpret root v.type goal
  match (← get).views.lookup (root, goal.key) with
  | some id => return id
  | none =>
    match ← foldedView root v goal with
    | some c =>
      let id ← constIn c v.type goal v.span
      rememberView root goal id
      return id
    | none =>
      let converted ← convertValue convert root goal
      let name ← freshName (v.node.name ++ "_" ++ goal.suffix)
      let id ← allocVar (.aliased name root none) v.type goal v.span
      setRhs id converted
      rememberView root goal id
      modify fun s => { s with aliases := s.aliases + 1 }
      point "alias" (v.node.name ++ " as " ++ goal.text)
      return id

/-- One change of layout, given how nested ones are made. -/
def toRepStep (convert : Converter) (id : ValueId) (goal : Rep) : LowerM ValueId := do
  let v ← value id
  if v.rep = goal then return id
  if (← decls).compatible v.type v.rep goal then return ← reinterpret id v.type goal
  match ← rootVar id with
  | some root => aliasOf convert root goal
  | none => convertValue convert id goal

/-- A change of layout with at most `fuel` nested ones. -/
def toRepIn : (fuel : Nat) → Converter
  | 0, _, _ => failAt .endlessConversion .none
  | fuel + 1, id, goal => toRepStep (toRepIn fuel) id goal

/-- A bound on the nested changes that a change of layout leads to. -/
def conversionFuel (v : Value) (goal : Rep) : Nat :=
  8 * (v.type.size + v.rep.size + goal.size + 2) + unreachableDepth

def toRep (id : ValueId) (goal : Rep) : LowerM ValueId := do
  let v ← value id
  toRepIn (conversionFuel v goal) id goal

end CoreLowering.Graph
