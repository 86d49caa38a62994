import CoreLowering.Host.File

/-!
# A file tree in memory

A machine that consists of a file tree, two texts that were printed and a
directory to start from.  Time stands still on it, and it has no terminal.
-/

namespace CoreLowering

/-- A file, or a directory with its entries. -/
inductive FileTree where
  | file (content : Bytes)
  | directory (entries : List (String × FileTree))

namespace FileTree

def kind : FileTree → FileKind
  | file _ => .file
  | directory _ => .directory

/-- The node that names lead to from a node.  `trail` holds the nodes above
it, so that two dots lead back. -/
def walk (trail : List FileTree) : FileTree → List String → Except FileCause FileTree
  | node, [] => .ok node
  | file _, _ :: _ => .error .notDirectory
  | directory es, name :: rest =>
    if name = "." || name = "" then walk trail (directory es) rest
    else if name = ".." then
      match trail with
      | [] => walk [] (directory es) rest
      | above :: more => walk more above rest
    else
      match es.lookup name with
      | some node => walk (directory es :: trail) node rest
      | none => .error .notFound
termination_by _ names => names.length

/-- The names that lead to a node without dots, for names that lead
somewhere. -/
def plain : List String → List String :=
  fun names => (names.foldl step []).reverse
where
  step (before : List String) (name : String) : List String :=
    if name = "." || name = "" then before
    else if name = ".." then before.tail
    else name :: before

def putEntry (name : String) (node : FileTree) :
    List (String × FileTree) → List (String × FileTree)
  | [] => [(name, node)]
  | e :: es => if e.1 = name then (name, node) :: es else e :: putEntry name node es

/-- Puts a node at a place; the directories above it are there. -/
def put : FileTree → List String → FileTree → FileTree
  | _, [], node => node
  | directory es, name :: rest, node =>
    directory (putEntry name (((es.lookup name).getD (directory [])).put rest node) es)
  | file c, _ :: _, _ => file c
termination_by _ names _ => names.length

/-- The files in a tree with their paths below `before`, and at most `fuel`
levels deep. -/
def filesIn : (fuel : Nat) → (before : String) → FileTree → List (String × Bytes)
  | _, before, file content => [(before, content)]
  | 0, _, directory _ => []
  | fuel + 1, before, directory es =>
    es.flatMap fun (name, node) =>
      filesIn fuel (if before = "" then name else before ++ "/" ++ name) node

end FileTree

structure MemoryHost where
  root : FileTree
  here : String
  cacheHome : String
  printed : String := ""
  printedErrors : String := ""

namespace MemoryHost

def namesOf (s : MemoryHost) (path : String) : List String :=
  (if path.toList.head? = some '/' then path else s.here ++ "/" ++ path).splitOn "/"

/-- Whether a path asks for a directory by a slash at its end. -/
def asksDirectory (path : String) : Bool := path.toList.getLast? = some '/'

def find (s : MemoryHost) (path : String) : Except FileCause FileTree := do
  if path = "" then throw .notFound
  let node ← s.root.walk [] (s.namesOf path)
  if asksDirectory path && node.kind = .file then throw .notDirectory
  return node

/-- The names that lead to the place of a path that may be new; the
directory it lies in must be there. -/
def place (s : MemoryHost) (path : String) : Except FileCause (List String) := do
  if path = "" then throw .notFound
  let names := (s.namesOf path).reverse.dropWhile (· = "")
  let above := names.tail.reverse
  match ← s.root.walk [] above with
  | .file _ => throw .notDirectory
  | .directory _ => return FileTree.plain names.reverse

/-- A machine with files below the directory it starts in. -/
def withFiles (here cacheHome : String) (files : List (String × Bytes)) : MemoryHost :=
  let names (path : String) : List String := FileTree.plain (path.splitOn "/")
  let root := (FileTree.directory []).put (names cacheHome) (.directory [])
  let root := root.put (names here) (.directory [])
  { root := files.foldl (fun root (path, content) =>
      root.put (names (here ++ "/" ++ path)) (.file content)) root
    here
    cacheHome }

/-- The files below the directory a machine starts in, at most 64 levels
deep. -/
def files (s : MemoryHost) : List (String × Bytes) :=
  match s.find s.here with
  | .ok tree => tree.filesIn 64 ""
  | .error _ => []

def write (s : MemoryHost) (path : String) (content : Bytes) : Except FileCause MemoryHost := do
  let names ← s.place path
  match s.root.walk [] names with
  | .ok (.directory _) => throw .isDirectory
  | _ =>
    if asksDirectory path then throw .isDirectory
    return { s with root := s.root.put names (.file content) }

def makeDirectory (s : MemoryHost) (path : String) : Except FileCause MemoryHost := do
  let names ← s.place path
  match s.root.walk [] names with
  | .ok _ => throw .alreadyThere
  | .error _ => return { s with root := s.root.put names (.directory []) }

/-- The outcome of an operation on a path, with the cause of a failure made a
full account of it. -/
def outcome {α : Type} (operation path : String) : Except FileCause α → Except FileFault α
  | .ok a => .ok a
  | .error c => .error ⟨operation, path, c⟩

/-- Carries out a change, unless it fails. -/
def change (operation path : String) (f : MemoryHost → Except FileCause MemoryHost) :
    StateM MemoryHost (Except FileFault Unit) := do
  match f (← get) with
  | .ok s =>
    set s
    return .ok ()
  | .error c => return .error ⟨operation, path, c⟩

instance : Host (StateM MemoryHost) where
  here := do return (← get).here
  cacheHome := do return some (← get).cacheHome
  kindOf path := do return outcome "stat" path (((← get).find path).map FileTree.kind)
  readFile path := do
    match (← get).find path with
    | .ok (.file content) => return .ok content
    | .ok (.directory _) => return .error ⟨"read", path, .isDirectory⟩
    | .error c => return .error ⟨"open", path, c⟩
  writeFile path content := change "open" path (·.write path content)
  makeDirectory path := change "mkdir" path (·.makeDirectory path)
  entries path := do
    match (← get).find path with
    | .ok (.directory es) => return .ok (es.map fun (name, node) => (name, node.kind))
    | .ok (.file _) => return .error ⟨"readdirent", path, .notDirectory⟩
    | .error c => return .error ⟨"open", path, c⟩
  now := pure 0
  print text := modify fun s => { s with printed := s.printed ++ text }
  printError text := modify fun s => { s with printedErrors := s.printedErrors ++ text }
  terminalWidth := pure none

end MemoryHost

end CoreLowering
