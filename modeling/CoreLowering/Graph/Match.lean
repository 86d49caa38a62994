import CoreLowering.Graph.Build

/-!
# Lowering of matches

The arms of a match are assigned to the branches of a case.  A wildcard takes
all branches that no arm before it takes; it is lowered once and shared.  A
branch without an arm fails at run time.  A match on a declared type takes
the constructor apart once and then switches on its tag.
-/

namespace CoreLowering.Graph

/-- A match: its result type, its span and its arms. -/
structure Matching where
  result : Ty
  span : Span
  arms : List Arm

/-- The arms assigned to branches, and the value of the wildcard arm once it
has been lowered. -/
structure Slots where
  arms : List (Option Arm)
  shared : Option ValueId

def isWildcard (a : Arm) : Bool := a.constr = Arm.wildcard

/-- Assigns arms to the branches with the given names; `wild` is the first
wildcard so far. -/
def assignArms (names : List String) (wild : Option Arm) (slots : List (Option Arm)) :
    List Arm → LowerM (Option Arm × List (Option Arm))
  | [] => return (wild, slots)
  | a :: rest => do
    if isWildcard a then
      if wild.isSome then
        warn .unreachableArm a.span "wildcard arm is unreachable"
        assignArms names wild slots rest
      else assignArms names (some a) slots rest
    else
      match names.idxOf? a.constr with
      | none => failAt (.unknownArm a.constr) a.span
      | some i =>
        if wild.isSome || ((slots[i]?).getD none).isSome then
          warn .unreachableArm a.span ("arm " ++ a.constr ++ " is unreachable")
          assignArms names wild slots rest
        else assignArms names wild (slots.set i (some a)) rest

/-- Assigns the arms of a match to the branches with the given names. -/
def Matching.resolve (m : Matching) (names : List String) : LowerM Slots := do
  let (wild, slots) ← assignArms names none (names.map fun _ => none) m.arms
  let filled := slots.map fun s => s.or wild
  match wild with
  | some a =>
    if slots.all Option.isSome then
      warn .unreachableArm a.span "wildcard arm is unreachable"
  | none => pure ()
  (names.zip filled).forM fun (name, s) => do
    if s.isNone then
      warn .unreachableArm m.span
        ("no arm for " ++ name ++ "; the branch fails at runtime")
  return ⟨filled, none⟩

def Slots.arm (s : Slots) (i : Nat) : Option Arm :=
  (s.arms[i]?).getD none

/-- The name that an arm gives to a field, if it gives one. -/
def givenName (arm : Option Arm) (i : Nat) : Option String := do
  let a ← arm
  let name ← a.binders[i]?
  if name = "" || name = Arm.wildcard then none else some name

/-- The name that an arm gives to a field, or the given one. -/
def binderName (arm : Option Arm) (i : Nat) (standard : String) : String :=
  (givenName arm i).getD standard

def lowerArmBody (lower : Lowerer) (m : Matching) (a : Arm) (binders : List ValueId) :
    LowerM ValueId := do
  if a.binders.length > binders.length then
    failAt (.binderCount a.constr a.binders.length binders.length) a.span
  pushScope
  binders.zipIdx.forM fun (id, i) =>
    match givenName (some a) i with
    | some name => define name id
    | none => pure ()
  let x ← lower a.body
  let x ← upcast x m.result a.body.span
  popScope
  return x

def lowerArm (lower : Lowerer) (m : Matching) (s : Slots) (i : Nat)
    (binders : List ValueId) : LowerM (Option ValueId × Slots) := do
  match s.arm i with
  | none => return (none, s)
  | some a =>
    match isWildcard a, s.shared with
    | true, some id => return (some id, s)
    | true, none =>
      let id ← lowerArmBody lower m a binders
      return (some id, { s with shared := some id })
    | false, _ =>
      let id ← lowerArmBody lower m a binders
      return (some id, s)

/-- Lowers the arms of branches with the variables bound in each. -/
def lowerArms (lower : Lowerer) (m : Matching) (s : Slots) :
    List (List ValueId × Nat) → LowerM (List (Option ValueId))
  | [] => return []
  | (binders, i) :: rest => do
    let (x, s) ← lowerArm lower m s i binders
    return x :: (← lowerArms lower m s rest)

/-- Brings the values of branches into one layout.  A branch without a value
fails. -/
def meet (m : Matching) (branches : List (Option ValueId)) :
    LowerM (List ValueId × Rep) := do
  let rep ← commonRep (branches.filterMap fun b => b) m.result
  let out ← branches.mapM fun b =>
    match b with
    | some id => toRep id rep
    | none => typeErrorValue "non-exhaustive match" m.result m.span
  return (out, rep)

/-- Lowers the arms, brings them into one layout and finishes the case. -/
def finishMatch (lower : Lowerer) (m : Matching) (s : Slots) (opened : OpenCase)
    (binders : List (List ValueId)) : LowerM ValueId := do
  let branches ← lowerArms lower m s binders.zipIdx
  let (branches, rep) ← meet m branches
  opened.finish (branches.map some) m.result rep

def matchBool (lower : Lowerer) (m : Matching) (scrutinee : ValueId) : LowerM ValueId := do
  let s ← m.resolve ["False", "True"]
  let cond ← toRep scrutinee .constant
  let branches ← lowerArms lower m s [([], 0), ([], 1)]
  let (branches, rep) ← meet m branches
  match branches with
  | [no, yes] => ifThenElse cond yes no m.result rep m.span
  | _ => failAt (.noBinders .bool) m.span

def matchUnit (lower : Lowerer) (m : Matching) (scrutinee : ValueId) : LowerM ValueId := do
  let s ← m.resolve ["Unit"]
  let opened ← beginCase .unit (← toRep scrutinee .constant) m.span
  finishMatch lower m s opened [[]]

/-- Binds the variables of the five branches of a case on data. -/
def bindData (opened : OpenCase) (arm : Nat → Option Arm) :
    LowerM (OpenCase × List (List ValueId)) := do
  let (opened, onConstr) ← opened.bind 0 [⟨binderName (arm 0) 0 "tag", .integer, .constant⟩,
    ⟨binderName (arm 0) 1 "fields", dataListT, .constant⟩]
  let (opened, onMap) ←
    opened.bind 1 [⟨binderName (arm 1) 0 "entries", pairListT, .constant⟩]
  let (opened, onList) ←
    opened.bind 2 [⟨binderName (arm 2) 0 "items", dataListT, .constant⟩]
  let (opened, onInt) ← opened.bind 3 [⟨binderName (arm 3) 0 "n", .integer, .constant⟩]
  let (opened, onBytes) ←
    opened.bind 4 [⟨binderName (arm 4) 0 "bytes", .byteString, .constant⟩]
  return (opened, [onConstr, onMap, onList, onInt, onBytes])

def matchData (lower : Lowerer) (m : Matching) (scrutinee : ValueId) : LowerM ValueId := do
  let s ← m.resolve ["Constr", "Map", "List", "I", "B"]
  let x ← upcast scrutinee .data m.span
  let x ← toRep x .constant
  let opened ← beginCase .data x m.span
  let (opened, binders) ← bindData opened s.arm
  finishMatch lower m s opened binders

/-- Lowers a match on a builtin list in layout `listRep`. -/
def matchItems (lower : Lowerer) (m : Matching) (s : Slots) (list : ValueId)
    (listType elem : Ty) (elemRep listRep : Rep) : LowerM ValueId := do
  let opened ← beginCase .list list m.span
  let (opened, ids) ← opened.bind 0 [⟨binderName (s.arm 0) 0 "head", elem, elemRep⟩,
    ⟨binderName (s.arm 0) 1 "tail", listType, listRep⟩]
  finishMatch lower m s opened [ids, []]

def matchBuiltinList (lower : Lowerer) (m : Matching) (scrutinee : ValueId) (t : Ty) :
    LowerM ValueId := do
  let s ← m.resolve ["Cons", "Nil"]
  let list ← toRep scrutinee .constant
  matchItems lower m s list t t.elem .constant .constant

def matchList (lower : Lowerer) (m : Matching) (scrutinee : ValueId) (t : Ty) :
    LowerM ValueId := do
  let s ← m.resolve ["Cons", "Nil"]
  let ds ← decls
  let listType := Ty.sum "List" [t.elem]
  let own := (← value scrutinee).rep
  let rep := if own = .sumList || own = .sumPairList then own else ds.standardRep listType
  let list ← toRep scrutinee rep
  matchItems lower m s list listType t.elem (ds.elemRep rep t.elem) rep

def matchPair (lower : Lowerer) (m : Matching) (scrutinee : ValueId) (a b : Ty) :
    LowerM ValueId := do
  let s ← m.resolve ["Pair"]
  let pair ← toRep scrutinee .constant
  let opened ← beginCase .pair pair m.span
  let (opened, ids) ← opened.bind 0 [⟨binderName (s.arm 0) 0 "fst", a, .constant⟩,
    ⟨binderName (s.arm 0) 1 "snd", b, .constant⟩]
  finishMatch lower m s opened [ids]

/-- Binds variables to the fields of a constructor, read from a list.  Gives
the variables of the fields and all variables that were made. -/
def bindFields (arm : Option Arm) (span : Span) :
    List (Field × Ty) → (i : Nat) → ValueId → LowerM (List ValueId × List ValueId)
  | [], _, _ => return ([], [])
  | (f, t) :: fields, i, list => do
    let (list, before) ←
      if i = 0 then pure (list, [])
      else do
        let tail ← builtin .tailList dataListT .constant span [list]
        let rest ← newVar "rest" dataListT .constant tail span
        pure (rest, [rest])
    let rep ← fieldRep t span
    let head ← builtin .headList t rep span [list]
    let x ← newVar (binderName arm i f.name) t rep head span
    let (xs, owned) ← bindFields arm span fields (i + 1) list
    return (x :: xs, before ++ x :: owned)

def lowerConstrArms (lower : Lowerer) (m : Matching) (d : Decl) (args : List Ty)
    (fields : ValueId) (s : Slots) :
    List (Constructor × Nat) → LowerM (List (Option ValueId))
  | [] => return []
  | (c, i) :: rest => do
    match s.arm i with
    | none => return none :: (← lowerConstrArms lower m d args fields s rest)
    | some a =>
      let types := d.fieldTypes c args
      let (binders, owned) ← bindFields (some a) m.span (c.fields.zip types) 0 fields
      let (body, s) ← lowerArm lower m s i binders
      let body ←
        match body with
        | some id =>
          if owned.isEmpty || isWildcard a then pure (some id)
          else some <$> letIn owned none id a.span
        | none => pure none
      return body :: (← lowerConstrArms lower m d args fields s rest)

def constrArms (lower : Lowerer) (m : Matching) (s : Slots) (d : Decl) (args : List Ty)
    (tag fields : ValueId) : LowerM ValueId := do
  let branches ← lowerConstrArms lower m d args fields s d.constructors.zipIdx
  let (branches, rep) ← meet m branches
  switchInteger tag branches m.result rep m.span

/-- Lowers a match on a declared type.  The constructor is taken apart even
where no arm looks at it. -/
def matchConstr (lower : Lowerer) (m : Matching) (scrutinee : ValueId) (t : Ty) :
    LowerM ValueId := do
  let ds ← decls
  match ds.find? t.declName with
  | none => fail (.unknownDeclaration t.declName) m.span [t] []
  | some d =>
    let s ← m.resolve (d.constructors.map (·.name))
    let x ← toRep scrutinee (ds.packedRep t)
    if isNative (← target) then
      let opened ← beginCase .data x m.span
      let (opened, binders) ← bindData opened fun _ => none
      match binders with
      | [tag, fields] :: _ =>
        let inner ← constrArms lower m s d t.args tag fields
        let v ← value inner
        opened.finish [some inner, none, none, none, none] v.type v.rep
      | _ => failAt (.noBinders .data) m.span
    else
      let taken ← builtin .unConstrData constrT .constant m.span [x]
      let whole ← newVar "constr" constrT .constant taken m.span
      let fst ← builtin .fstPair .integer .constant m.span [whole]
      let tag ← newVar "tag" .integer .constant fst m.span
      let snd ← builtin .sndPair dataListT .constant m.span [whole]
      let fields ← newVar "fields" dataListT .constant snd m.span
      let inner ← constrArms lower m s d t.args tag fields
      letIn [whole, tag, fields] (some whole) inner m.span

def lowerMatch (lower : Lowerer) (type : Ty) (span : Span) (es : List Expr)
    (arms : List Arm) : LowerM ValueId := do
  checkOperands "Match" span 1 es
  if arms.isEmpty then failAt .noArms span
  match es with
  | [e] =>
    let result ← joinArms "Match" type span (arms.map (·.body))
    let m : Matching := ⟨result, span, arms⟩
    let x ← lower e
    let t := (← value x).type.unwrap
    let t := if (← family t) = .typeVar then e.type.unwrap else t
    match t with
    | .con .boolean _ => matchBool lower m x
    | .con .unit _ => matchUnit lower m x
    | .con .data _ => matchData lower m x
    | .con .builtinList _ => matchBuiltinList lower m x t
    | .con .builtinPair (a :: b :: _) => matchPair lower m x a b
    | .con (.sum _) _ => if t.isList then matchList lower m x t else matchConstr lower m x t
    | .con (.caseClass _ _) _ =>
      if t.isList then matchList lower m x t else matchConstr lower m x t
    | t => fail (.cannotMatch t) span [t] []
  | _ => failAt (.operands "Match" 1 es.length) span

end CoreLowering.Graph
