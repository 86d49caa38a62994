import CoreLowering.Text.Hex

/-!
# The surroundings of a command

A command reads and writes files, prints, and asks for the time.  It runs over
any monad that offers these, so that it can be run on a real machine as well
as on a file tree in memory.  What goes wrong with a file is told by the
operation, the path and the cause.
-/

namespace CoreLowering

/-- Why an operation on a file fails. -/
inductive FileCause where
  | notFound
  | notDirectory
  | isDirectory
  | alreadyThere
  | denied
  | other (text : String)
  deriving DecidableEq

def FileCause.text : FileCause → String
  | notFound => "no such file or directory"
  | notDirectory => "not a directory"
  | isDirectory => "is a directory"
  | alreadyThere => "file exists"
  | denied => "permission denied"
  | other t => t

/-- An operation on a file that failed. -/
structure FileFault where
  operation : String
  path : String
  cause : FileCause

def FileFault.message (f : FileFault) : String :=
  f.operation ++ " " ++ f.path ++ ": " ++ f.cause.text

/-- What a path leads to. -/
inductive FileKind where
  | file
  | directory
  deriving DecidableEq

/-- What a command needs from its surroundings. -/
class Host (m : Type → Type) where
  /-- The directory that paths start from. -/
  here : m String
  /-- The directory for files that can be made again, if there is one. -/
  cacheHome : m (Option String)
  kindOf : String → m (Except FileFault FileKind)
  readFile : String → m (Except FileFault Bytes)
  writeFile : String → Bytes → m (Except FileFault Unit)
  makeDirectory : String → m (Except FileFault Unit)
  /-- The names in a directory and what they lead to. -/
  entries : String → m (Except FileFault (List (String × FileKind)))
  /-- Nanoseconds since the start of 1970. -/
  now : m Nat
  print : String → m Unit
  printError : String → m Unit
  terminalWidth : m (Option Nat)

section Directories

variable {m : Type → Type} [Monad m] [Host m]

/-- A path without its last part, up to the slash before it. -/
def parentWithSlash (path : String) : String :=
  String.ofList
    ((path.toList.reverse.dropWhile (· = '/')).dropWhile (· ≠ '/')).reverse

/-- Makes a directory and at most `fuel` directories above it, unless they
are there. -/
def makeDirectoriesIn : (fuel : Nat) → String → m (Except FileFault Unit)
  | 0, path => return .error ⟨"mkdir", path, .notFound⟩
  | fuel + 1, path => do
    match ← Host.kindOf path with
    | .ok .directory => return .ok ()
    | .ok .file => return .error ⟨"mkdir", path, .notDirectory⟩
    | .error _ =>
      let parent := parentWithSlash path
      let above ← if parent = "" then pure (.ok ()) else makeDirectoriesIn fuel parent
      match above with
      | .error f => return .error f
      | .ok _ =>
        match ← Host.makeDirectory path with
        | .ok _ => return .ok ()
        | .error f =>
          match ← Host.kindOf path with
          | .ok .directory => return .ok ()
          | _ => return .error f

/-- Makes a directory and those above it, unless they are there. -/
def makeDirectories (path : String) : m (Except FileFault Unit) :=
  makeDirectoriesIn (path.length + 1) path

end Directories

end CoreLowering
