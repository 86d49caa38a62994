import CoreLowering.Graph.Make

/-!
# Building cases

A case is started with its scrutinee, then variables are bound for its
branches, then the branches are built, which may refer to those variables,
and last the case is finished.  A version that takes builtin values apart by
itself gets a native case, whose branches are functions of the variables; for
any other version the variables are defined by builtins that take the
scrutinee apart.
-/

namespace CoreLowering.Graph

/-- Whether a version takes builtin values apart by itself. -/
def isNative (version : Version) : Bool := version.hasBuiltinCase

/-- The name of the way in which a version takes values apart. -/
def strategyName (native : Bool) : String :=
  if native then "native" else "emulated"

/-- A variable to bind in a branch. -/
structure Binder where
  name : String
  type : Ty
  rep : Rep

structure OpenCase where
  shape : Shape
  native : Bool
  scrutinee : ValueId
  owned : List ValueId
  binders : List (List ValueId)
  span : Span

/-- Starts a case on a value in the layout that the shape asks for. -/
def beginCase (shape : Shape) (scrutinee : ValueId) (span : Span) : LowerM OpenCase := do
  let native := isNative (← target)
  let start : OpenCase :=
    ⟨shape, native, scrutinee, [], List.replicate shape.branches [], span⟩
  let opened ←
    if native || shape = .bool || shape = .unit then pure start
    else do
      let v ← value scrutinee
      if v.node.isIdentifiable then pure start
      else do
        let x ← newVar "scrut" v.type v.rep scrutinee span
        pure { start with scrutinee := x, owned := [x] }
  point "case" (shape.name ++ " " ++ strategyName native)
  return opened

/-- The builtin that takes item number `i` out of the scrutinee of a shape
in branch number `branch`. -/
def extractor? (shape : Shape) (branch i : Nat) : Option Builtin :=
  match shape with
  | .list => some (if i = 0 then .headList else .tailList)
  | .pair => some (if i = 0 then .fstPair else .sndPair)
  | .data =>
    match branch with
    | 0 => some (if i = 0 then .fstPair else .sndPair)
    | 1 => some .unMapData
    | 2 => some .unListData
    | 3 => some .unIData
    | _ => some .unBData
  | _ => none

/-- Binds variables without definitions. -/
def bindNative (span : Span) (bs : List Binder) : LowerM (List ValueId) :=
  bs.mapM fun b => newBinder b.name b.type b.rep span

/-- Binds variables that take `source` apart. -/
def bindExtracted (c : OpenCase) (branch : Nat) (source : ValueId) (bs : List Binder) :
    LowerM (List ValueId) :=
  bs.zipIdx.mapM fun (b, i) => do
    match extractor? c.shape branch i with
    | some f =>
      let rhs ← builtin f b.type b.rep c.span [source]
      newVar b.name b.type b.rep rhs c.span
    | none => failAt (.noBinders c.shape) c.span

def OpenCase.bind (c : OpenCase) (branch : Nat) (bs : List Binder) :
    LowerM (OpenCase × List ValueId) := do
  if c.native then
    let ids ← bindNative c.span bs
    return ({ c with binders := c.binders.set branch ids }, ids)
  else if c.shape = .data ∧ branch = 0 then
    let taken ← builtin .unConstrData constrT .constant c.span [c.scrutinee]
    let source ← newVar "constr" constrT .constant taken c.span
    let ids ← bindExtracted c branch source bs
    return ({ c with owned := c.owned ++ [source], binders := c.binders.set branch ids }, ids)
  else
    let ids ← bindExtracted c branch c.scrutinee bs
    return ({ c with binders := c.binders.set branch ids }, ids)

/-- Puts a failure in the place of each branch that is left out. -/
def fillBranches (type : Ty) (span : Span) (branches : List (Option ValueId)) :
    LowerM (List ValueId) :=
  branches.mapM fun b =>
    match b with
    | some id => pure id
    | none => typeErrorValue "unreachable branch" type span

/-- Finishes a case.  Branches that are left out fail. -/
def OpenCase.finish (c : OpenCase) (branches : List (Option ValueId)) (type : Ty) (rep : Rep) :
    LowerM ValueId := do
  let branches ← fillBranches type c.span branches
  if c.native then
    newNode (.caseOf c.shape true c.scrutinee branches c.owned c.binders) type rep c.span
  else
    newNode (.caseOf c.shape false c.scrutinee branches (c.owned ++ c.binders.flatten) [])
      type rep c.span

def ifThenElse (cond yes no : ValueId) (type : Ty) (rep : Rep) (span : Span) :
    LowerM ValueId := do
  let c ← beginCase .bool cond span
  c.finish [some no, some yes] type rep

/-- Tests for the numbers of the branches from the last but one down to
zero, around what is done for the last. -/
def switchChain (tag : ValueId) (type : Ty) (rep : Rep) (span : Span) :
    List (ValueId × Nat) → ValueId → LowerM ValueId
  | [], out => return out
  | (branch, i) :: rest, out => do
    let k ← integerValue i span
    let cond ← builtin .equalsInteger .boolean .constant span [tag, k]
    let out ← ifThenElse cond branch out type rep span
    switchChain tag type rep span rest out

/-- A choice by an integer from zero up to the number of branches.  Where it
is made by tests, the last branch is taken for any other number too, and
there has to be one. -/
def switchInteger (tag : ValueId) (branches : List ValueId) (type : Ty) (rep : Rep)
    (span : Span) : LowerM ValueId := do
  match branches with
  | [only] => return only
  | _ =>
    if isNative (← target) then
      let c ← beginCase .integer tag span
      let c := { c with binders := branches.map fun _ => [] }
      c.finish (branches.map some) type rep
    else
      let tag ← letVar "tag" tag
      match branches.zipIdx.reverse with
      | (last, _) :: rest => switchChain tag type rep span rest last
      | [] => failAt (.outOfRange (-1) 0) .none

end CoreLowering.Graph
