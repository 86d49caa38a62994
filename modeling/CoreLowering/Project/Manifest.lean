import CoreLowering.Host.File
import CoreLowering.Project.Decode
import CoreLowering.Text.Path

/-!
# Finding the settings file of a project

The settings file lies in the root directory of a project.  It is looked for
in a directory and then in those above it.
-/

namespace CoreLowering.Project

def manifestName : String := "sirc.toml"

/-- A project: where it is and what it chooses. -/
structure Manifest where
  path : String
  root : String
  config : Config

namespace Manifest

def unitsDirectory (m : Manifest) : String :=
  let units := trim m.config.units
  if units = "" then m.root else Path.join m.root units

/-- The directory of kept results, if one is chosen. -/
def cacheDirectory (m : Manifest) : String :=
  let dir := trim m.config.cacheDirectory
  if dir = "" || Path.isRooted dir then dir else Path.join m.root dir

end Manifest

/-- Why a project cannot be loaded. -/
inductive LoadError where
  | unreachable (path : String) (f : FileFault)
  | unreadable (path : String) (f : FileFault)
  | undecodable (path : String) (e : DecodeError)

def LoadError.message : LoadError → String
  | unreachable path f => "failed to stat " ++ quote path ++ ": " ++ f.message
  | unreadable path f => path ++ ": failed to parse TOML: " ++ f.message
  | undecodable path e => path ++ ": " ++ e.message

/-- Why the settings file of a new project cannot be written. -/
inductive WriteError where
  | alreadyThere (path : String)
  | unreachable (path : String) (f : FileFault)
  | unwritable (path : String) (f : FileFault)

def WriteError.message : WriteError → String
  | alreadyThere path => path ++ " already exists"
  | unreachable path f => "failed to stat " ++ quote path ++ ": " ++ f.message
  | unwritable path f => "write " ++ path ++ ": " ++ f.message

/-- A rooted directory and those above it, the nearest first. -/
def upwards (dir : String) : List String :=
  let parts := Path.parts dir
  (List.range (parts.length + 1)).reverse.map fun n => Path.ofParts true (parts.take n)

section Files

variable {m : Type → Type} [Monad m] [Host m]

/-- Finds the settings file in the first directory that has one. -/
def findIn : List String → m (Except LoadError (Option String))
  | [] => return .ok none
  | dir :: dirs => do
    let path := Path.join dir manifestName
    match ← Host.kindOf path with
    | .ok _ => return .ok (some path)
    | .error f =>
      if f.cause = .notFound then findIn dirs else return .error (.unreachable path f)

/-- Loads the project that a directory belongs to, if it belongs to one. -/
def load (start : String) : m (Except LoadError (Option Manifest)) := do
  let dir := Path.absolute (← Host.here) start
  match ← findIn (upwards dir) with
  | .error e => return .error e
  | .ok none => return .ok none
  | .ok (some path) =>
    match ← Host.readFile path with
    | .error f => return .error (.unreadable path f)
    | .ok content =>
      match Config.decode content with
      | .error e => return .error (.undecodable path e)
      | .ok config => return .ok (some ⟨path, Path.dir path, config⟩)

/-- Writes the settings file of a new project and gives its path. -/
def write (dir : String) (config : Config) : m (Except WriteError String) := do
  let path := Path.join dir manifestName
  match ← Host.kindOf path with
  | .ok _ => return .error (.alreadyThere path)
  | .error f =>
    if f.cause ≠ .notFound then return .error (.unreachable path f)
    else
      match ← Host.writeFile path (Bytes.ofString config.toToml) with
      | .ok _ => return .ok path
      | .error f => return .error (.unwritable path f)

end Files

end CoreLowering.Project
