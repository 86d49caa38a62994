import CoreLowering.Toml.Reader

/-!
# The document of a settings file

The statements of a file are carried out one after the other on a document, a
tree of tables.  A table that only lies on the way to another one is
implicit: it may be opened later, once.  Any other name is given only once.

There are two exceptions.  A key whose value is an array may be given again,
and the last value counts.  A dotted key adds to a table that was opened
before.
-/

namespace CoreLowering.Toml

inductive Node where
  | leaf (v : Value)
  | table (entries : List (String × Node))
  /-- The tables of an array, the newest first. -/
  | tables (items : List (List (String × Node)))

abbrev Table := List (String × Node)

/-- The document in the making. -/
structure Draft where
  root : Table := []
  implicits : List Key := []
  arrays : List Key := []
  written : List Key := []
  /-- The table that assignments go to. -/
  context : Key := []

def put (k : String) (n : Node) : Table → Table
  | [] => [(k, n)]
  | e :: es => if e.1 = k then (k, n) :: es else e :: put k n es

/-- Changes the table at a key, if there is one; of an array of tables it is
the newest. -/
def modifyAt (f : Table → Option Table) : Key → Table → Option Table
  | [], t => f t
  | k :: ks, t =>
    match t.lookup k with
    | some (.table es) => do return put k (.table (← modifyAt f ks es)) t
    | some (.tables (es :: more)) => do
      return put k (.tables ((← modifyAt f ks es) :: more)) t
    | _ => none

def tableAt : Key → Table → Option Table
  | [], t => some t
  | k :: ks, t =>
    match t.lookup k with
    | some (.table es) => tableAt ks es
    | some (.tables (es :: _)) => tableAt ks es
    | _ => none

namespace Draft

/-- Notes that a table only lies on the way. -/
def addImplicit (d : Draft) (key : Key) : Draft :=
  { d with implicits := key :: d.implicits }

/-- Notes that a table does not only lie on the way. -/
def removeImplicit (d : Draft) (key : Key) : Draft :=
  { d with implicits := d.implicits.filter (· ≠ key) }

/-- Notes whether the value of a name in the context is an array.  The empty
name stands for the context itself. -/
def setArray (d : Draft) (name : String) (isArray : Bool) : Draft :=
  let key := if name = "" then (if d.context = [] then [""] else d.context) else d.context ++ [name]
  let others := d.arrays.filter (· ≠ key)
  { d with arrays := if isArray then key :: others else others }

/-- Sets a node in the context.  A node that is there may only be replaced if
it is an array, and is left alone if it was implicit. -/
def setNode (d : Draft) (name : String) (n : Node) : Option Draft := do
  let key := d.context ++ [name]
  let t ← tableAt d.context d.root
  if (t.lookup name).isSome then
    if d.arrays.contains key then
      let root ← modifyAt (fun t => some (put name n t)) d.context d.root
      return { d with root }.removeImplicit key
    else if d.implicits.contains key then return d.removeImplicit key
    else none
  else
    let root ← modifyAt (fun t => some (put name n t)) d.context d.root
    return { d with root }

/-- Makes sure that there is a table at each name on the way, where `before`
was walked already. -/
def walk (d : Draft) (before : Key) : Key → Option Draft
  | [] => some d
  | k :: ks => do
    let t ← tableAt before d.root
    let here := before ++ [k]
    match t.lookup k with
    | none =>
      let root ← modifyAt (fun t => some (put k (.table []) t)) before d.root
      walk ({ d with root }.addImplicit here) here ks
    | some (.leaf _) => none
    | some _ => walk d here ks

def openTable (d : Draft) (key : Key) : Option Draft := do
  let way := key.dropLast
  let d ← d.walk [] way
  let d ← { d with context := way }.setNode (key.getLastD "") (.table [])
  return { d with context := key }

def openItem (d : Draft) (key : Key) : Option Draft := do
  let way := key.dropLast
  let name := key.getLastD ""
  let d ← d.walk [] way
  let t ← tableAt way d.root
  let items ← match t.lookup name with
    | none => some []
    | some (.tables items) => some items
    | some _ => none
  let root ← modifyAt (fun t => some (put name (.tables ([] :: items)) t)) way d.root
  return { d with root, context := key }

/-- Opens the tables that the names of a dotted key lead through. -/
def openDotted (d : Draft) : Key → Option Draft
  | [] => some d
  | k :: ks => do
    let key := d.context ++ [k]
    let d ← (d.addImplicit key).openTable key
    d.openDotted ks

mutual

/-- Carries out what comes before the value of a name is set: an array notes
that it is one, and the fields of a table are assigned inside it. -/
def prepare (d : Draft) (name : String) (inArray : Bool) : Value → Option Draft
  | .array items => prepareItems (d.setArray name true) name items
  | .table fields => do
    let outer := d.context
    let key := outer ++ [name]
    let d := d.addImplicit key
    let d ← if inArray then d.openItem key else d.openTable key
    let d ← assignAll d key fields
    return { d with context := outer }
  | _ => some d

/-- Carries out what comes before the items of an array are set. -/
def prepareItems (d : Draft) (name : String) : List Value → Option Draft
  | [] => some d
  | v :: vs => do prepareItems (← prepare d name true v) name vs

/-- Assigns fields inside the table at `key`. -/
def assignAll (d : Draft) (key : Key) : List (Key × Value) → Option Draft
  | [] => some d
  | (k, v) :: fs => do
    let d ← d.openDotted k.dropLast
    let name := k.getLastD ""
    let d := { d with written := (d.context ++ [name]) :: d.written }
    let d ← prepare d name false v
    let d ← setValue d name v
    assignAll { d with context := key } key fs

/-- Sets the value of a name in the context.  The fields of a table are in
its place already. -/
def setValue (d : Draft) (name : String) : Value → Option Draft
  | .table _ => do
    let key := d.context ++ [name]
    if d.arrays.contains key || d.implicits.contains key then
      return (d.removeImplicit key).setArray name false
    else none
  | .array items => do
    return (← d.setNode name (.leaf (.array items))).setArray name true
  | v => do return (← d.setNode name (.leaf v)).setArray name false

end

def run (d : Draft) : Statement → Option Draft
  | .openTable key => do
    let d ← d.openTable key
    return { d.setArray "" false with written := key :: d.written }
  | .openItem key => do
    let d ← d.openItem key
    return { d.setArray "" false with written := key :: d.written }
  | .assign key v => d.assignAll d.context [(key, v)]

end Draft

/-- The document of a file and the keys that are written in it, in order. -/
structure Document where
  root : Table
  keys : List Key

def Document.ofStatements? (ss : List Statement) : Option Document :=
  (ss.foldlM Draft.run {}).map fun d => ⟨d.root, d.written.reverse⟩

end CoreLowering.Toml
