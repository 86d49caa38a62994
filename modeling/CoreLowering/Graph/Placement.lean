import CoreLowering.Graph.Fold

/-!
# Where variables are bound

A variable that several parts of a value need is bound at that value, if
evaluating the value evaluates the variable anyway or if the variable costs
nothing.  A function that is a barrier also binds outside its body what the
body needs of what does not depend on the parameter.

What is `certain` of a value are the variables that are evaluated whenever
the value is: nothing under a delay or in the body of a function that is not
called, and of a case only what all branches have in common.
-/

namespace CoreLowering.Graph

/-- The variables that the parts of a value need, as things stand now. -/
def freshUsed (v : Value) : LowerM VarSet :=
  return (← get).usedBy v.node

def common : List VarSet → VarSet
  | [] => .empty
  | s :: rest => rest.foldl VarSet.inter s

def unions (sets : List VarSet) : VarSet :=
  sets.foldl VarSet.union .empty

/-- What is certain of a value, given what is certain of other values. -/
def certainStep (certain : ValueId → LowerM VarSet) (id : ValueId) (v : Value) :
    LowerM VarSet := do
  match v.node with
  | .var _ rhs | .aliased _ _ rhs =>
    match rhs with
    | some rhs => return (VarSet.single id).union (← certain rhs)
    | none => return .single id
  | .delay _ => return .empty
  | .fix _ _ => return .empty
  | .lambda _ body barrier =>
    if barrier then
      let used ← freshUsed v
      return (← certain body).inter used
    else return .empty
  | .force inner =>
    match (← value inner).node with
    | .delay x => certain x
    | _ => certain inner
  | .caseOf _ _ scrutinee branches _ _ =>
    let first ← certain scrutinee
    let sets ← branches.mapM certain
    return first.union (common sets)
  | .letIn owned _ body =>
    let all ← certain body
    return (← get).outside owned all
  | n =>
    let sets ← n.subs.mapM certain
    return unions sets

/-- What is certain of a value, following at most `fuel` definitions and
parts.  A value is looked at once; a definition that leads back to itself
adds nothing. -/
def certainIn : (fuel : Nat) → ValueId → LowerM VarSet
  | 0, _ => return .empty
  | fuel + 1, id => do
    let v ← value id
    match v.certain with
    | some set => return set
    | none =>
      update id fun v => { v with certain := some .empty }
      let set ← certainStep (certainIn fuel) id v
      update id fun v => { v with certain := some set }
      return set

def certain (id : ValueId) : LowerM VarSet := do
  certainIn ((← get).size + 1) id

/-- Whether a variable is replaced by its definition at each use, however
often it is used. -/
def State.isInlined (s : State) (v : Value) : Bool :=
  match v.node.rhs? with
  | none => false
  | some rhs =>
    match s.underViews rhs with
    | some (.builtinRef _) => true
    | some (.error _) => true
    | some (.typeError _) => true
    | some (.var _ _) => true
    | some (.aliased _ _ _) => true
    | some (.const c) => c.isSmall
    | _ => false

/-- The definition of a variable that may be bound. -/
def State.bindable? (s : State) (id : ValueId) : Option ValueId :=
  match s.value? id with
  | some v => if s.isInlined v then none else v.node.rhs?
  | none => none

/-- The variables that at least two of the parts of a node need. -/
def State.sharedIn (s : State) (n : Node) : VarSet :=
  let sets := n.subs.map s.usedOf
  (unions sets).filter fun u => 2 ≤ sets.countP (·.has u)

/-- The variables that are shared by parts of a value and are bound at
it. -/
def sharedBinds (id : ValueId) (v : Value) : LowerM VarSet := do
  let s ← get
  let shared := (s.sharedIn v.node).filter fun u => 2 ≤ s.refsOf u && (s.bindable? u).isSome
  let cheap := fun u =>
    match s.bindable? u with
    | some rhs => s.isEffortless rhs
    | none => false
  if shared.ids.all cheap then return shared
  let sure ← certain id
  return shared.filter fun u => cheap u || sure.has u

/-- The variables that a barrier binds outside its body. -/
def barrierBinds (v : Value) (body : ValueId) : LowerM VarSet := do
  let used ← freshUsed v
  let sure ← certain body
  let s ← get
  return used.filter fun u =>
    match s.bindable? u with
    | some rhs => sure.has u && !(s.isEffortless rhs && s.refsOf u < 2)
    | none => false

/-- The first variable of a list that depends on no other one of `all`. -/
def State.firstReady (s : State) (all : List ValueId) : Option ValueId :=
  all.find? fun u => all.all fun w => w == u || !s.dependsFrom u w

/-- Orders variables so that each comes after those its definition depends
on; of several, the lowest number comes first. -/
def State.topoOrderIn (s : State) : (fuel : Nat) → List ValueId → List ValueId
  | 0, pending => pending
  | fuel + 1, pending =>
    match s.firstReady pending with
    | some u => u :: s.topoOrderIn fuel (pending.erase u)
    | none => pending

def State.topoOrder (s : State) (set : VarSet) : List ValueId :=
  s.topoOrderIn set.ids.length set.ids

def place (id : ValueId) (v : Value) : LowerM (List ValueId) := do
  if !v.node.isComposite then return []
  let shared ← sharedBinds id v
  let hoisted ←
    match v.node with
    | .lambda _ body true => barrierBinds v body
    | _ => pure .empty
  return (← get).topoOrder (shared.union hoisted)

/-- The variables to bind at a value, in the order in which they are
bound. -/
def dominating (id : ValueId) : LowerM (List ValueId) := do
  let v ← value id
  match v.placed with
  | some ids => return ids
  | none =>
    let ids ← place id v
    update id fun v => { v with placed := some ids }
    return ids

end CoreLowering.Graph
