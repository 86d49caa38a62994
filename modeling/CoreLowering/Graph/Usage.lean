import CoreLowering.Graph.State

/-!
# Which variables a value uses

When a node is added to the graph it is summed up from its parts: the
variables it needs, without those whose scope it is and those that depend on
them, and the variables it refers to directly.  A variable is summed up once
its definition is known.
-/

namespace CoreLowering.Graph

namespace State

def usedOf (s : State) (id : ValueId) : VarSet :=
  match s.value? id with
  | some v => v.used
  | none => .empty

/-- The variables that a value refers to directly. -/
def directOf (s : State) (id : ValueId) : Counts :=
  match s.value? id with
  | some v => if v.node.isIdentifiable then .single id else v.direct
  | none => .empty

/-- The number of places a variable is referred to from. -/
def refsOf (s : State) (id : ValueId) : Nat :=
  match s.value? id with
  | some v => v.refs
  | none => 0

/-- Whether the variable `u` depends on another variable `o`. -/
def dependsFrom (s : State) (u o : ValueId) : Bool :=
  u != o && (s.usedOf u).has o

/-- The variables of a set that neither are owned nor depend on an owned
one. -/
def outside (s : State) (owned : List ValueId) (all : VarSet) : VarSet :=
  all.filter fun u => !owned.any fun o => u == o || s.dependsFrom u o

/-- The variables that the parts of a node need, without those whose scope
the node is. -/
def usedBy (s : State) (n : Node) : VarSet :=
  s.outside n.scopeOf (n.subs.foldl (fun all id => all.union (s.usedOf id)) .empty)

/-- The variables that the parts of a node refer to directly. -/
def directBy (s : State) (n : Node) : Counts :=
  n.subs.foldl (fun all id => all.add (s.directOf id)) .empty

end State

/-- Counts one more reference to a variable, or `n` of them. -/
def addRefs (id : ValueId) (n : Nat) : LowerM Unit :=
  update id fun v => { v with refs := v.refs + n }

/-- Counts one more place that a value is part of.  A value that is no
variable is emitted anew at each place, so from the second place on what it
refers to counts again. -/
def noteSlot (id : ValueId) : LowerM Unit := do
  let v ← value id
  if v.node.isIdentifiable then addRefs id 1
  else
    update id fun v => { v with slots := v.slots + 1 }
    if 0 < v.slots then v.direct.entries.forM fun (r, n) => addRefs r n

/-- Adds a node that is no variable and sums it up. -/
def newNode (node : Node) (type : Ty) (rep : Rep) (span : Span) : LowerM ValueId := do
  let id ← alloc (.new node type rep span)
  node.subs.forM fun sub => do let _ ← value sub
  let s ← get
  let used := s.usedBy node
  let direct := s.directBy node
  node.subs.forM noteSlot
  update id fun v => { v with used := used, direct := direct }
  return id

/-- Sums up a variable whose definition is known. -/
def recordDeps (id rhs : ValueId) : LowerM Unit := do
  let v ← value rhs
  let deps :=
    if v.node.isIdentifiable then [rhs]
    else (VarSet.ofList (v.direct.entries.map (·.1))).ids.filter v.used.has
  update id fun x =>
    { x with used := (VarSet.single id).union v.used, dependsOn := deps }
  deps.forM fun d => update d fun x => { x with dependedBy := x.dependedBy ++ [id] }

def setRhs (id rhs : ValueId) : LowerM Unit := do
  let v ← value id
  if v.node.rhs?.isSome then failAt (.definedTwice v.node.name) v.span
  update id fun v => { v with node := v.node.withRhs rhs }
  noteSlot rhs
  recordDeps id rhs

/-- Adds an identifiable node, which uses itself. -/
def allocVar (node : Node) (type : Ty) (rep : Rep) (span : Span) : LowerM ValueId := do
  let id ← alloc (.new node type rep span)
  update id fun v => { v with used := .single id }
  return id

/-- Adds a variable without a definition. -/
def newBinder (name : String) (type : Ty) (rep : Rep) (span : Span) : LowerM ValueId := do
  let name ← freshName name
  allocVar (.var name none) type rep span

def newVar (name : String) (type : Ty) (rep : Rep) (rhs : ValueId) (span : Span) :
    LowerM ValueId := do
  let id ← newBinder name type rep span
  setRhs id rhs
  return id

/-- The value itself if it is a variable, else a variable defined by it. -/
def letVar (name : String) (id : ValueId) : LowerM ValueId := do
  let v ← value id
  if v.node.isIdentifiable then return id
  newVar name v.type v.rep id v.span

end CoreLowering.Graph
