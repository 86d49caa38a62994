import CoreLowering.Command.Session
import CoreLowering.Diagnostic.Render

/-!
# The units of a command

A command works on the units it is told, or on those of the project.  They
are lowered one after the other, each by itself; only kept results are
shared.
-/

namespace CoreLowering.Command

open Compile (UnitResult)

def unitExtension : String := ".sir"

def isUnit (path : String) : Bool :=
  unitExtension.toList.reverse.isPrefixOf path.toList.reverse

/-- How deep directories are looked through. -/
def maxDepth : Nat := 4096

/-- What comes out of units, in their order. -/
structure Batch where
  units : List UnitResult

namespace Batch

/-- The number of units without a program. -/
def failed (b : Batch) : Nat := b.units.countP (!·.ok)

/-- How long the phases took for all units. -/
def timing (b : Batch) : Timing.Report :=
  b.units.foldl (fun r u => r.merge u.timing) .empty

end Batch

section Commands

variable {m : Type → Type} [Monad m] [Host m]

/-- The units in a directory, at most `fuel` levels down. -/
def unitsIn : (fuel : Nat) → String → CommandM m (List String)
  | 0, _ => return []
  | fuel + 1, dir => do
    let entries ← orFail .file (← (Host.entries dir : m _))
    let found ← entries.mapM fun (name, kind) => do
      let path := Path.join dir name
      match kind with
      | .directory => unitsIn fuel path
      | .file => return if isUnit path then [path] else []
    return found.flatten

/-- The units that words stand for: a file for itself, a directory for the
units in it, in order. -/
def expand : List String → CommandM m (List String)
  | [] => return []
  | word :: rest => do
    let units ← match ← orFail .file (← (Host.kindOf word : m _)) with
      | .file => pure [word]
      | .directory => do
        let units := (← unitsIn maxDepth word).mergeSort fun a b => decide (a ≤ b)
        if units.isEmpty then throw (.noUnitsIn word)
        pure units
    return units ++ (← expand rest)

def unitsFor (words : List String) : CommandM m (List String) := do
  if words.isEmpty then
    match (← get).settings.manifest with
    | none => throw .noUnits
    | some manifest => expand [manifest.unitsDirectory]
  else expand words

def entryPath (dir : String) (k : Bytes) : String :=
  let hex := Hex.encode k
  Path.join dir ("units/" ++ (hex.take 2).toString ++ "/" ++ hex ++ ".mp")

def directoryStore (dir : String) : Compile.Store m where
  load k := do
    match ← Host.readFile (entryPath dir k) with
    | .ok content => return .ok (some content)
    | .error f => return if f.cause = .notFound then .ok none else .error f.message
  keep k entry := do
    let path := entryPath dir k
    match ← makeDirectories (Path.dir path) with
    | .error f => return .error f.message
    | .ok _ =>
      match ← Host.writeFile path entry with
      | .ok _ => return .ok ()
      | .error f => return .error f.message

/-- The store that the settings choose; its directory is made. -/
def openStore : CommandM m (Option (Compile.Store m)) := do
  let s := (← get).settings
  if !s.cache then return none
  let dir ←
    if s.cacheDirectory ≠ "" then pure s.cacheDirectory
    else
      match ← (Host.cacheHome : m _) with
      | some home => pure (Path.join home programName)
      | none => throw .noCacheHome
  orFail .cache (← (makeDirectories dir : m _))
  return some (directoryStore dir)

def compileOptions (s : Settings) : Compile.Options :=
  ⟨s.target, s.debug, s.noLink, s.maxDiagnostics⟩

def readUnit (path : String) : m (Except String Bytes) := do
  match ← Host.readFile path with
  | .ok content => return .ok content
  | .error f => return .error f.message

/-- Lowers the unit in a file, inside the span `parent`. -/
def lowerFile (store : Option (Compile.Store m)) (options : Compile.Options) (parent : Nat)
    (path : String) : CommandM m UnitResult := do
  let s ← get
  let (result, recorder) ←
    (Compile.lowerFile ⟨Host.now, store⟩ readUnit path options parent s.recorder : m _)
  set { s with recorder }
  return result

def lowerAll (store : Option (Compile.Store m)) (paths : List String) : CommandM m Batch := do
  let s ← get
  let begun ← (Host.now : m Nat)
  let (recorder, span) := s.recorder.begin (begun / 1000 : Nat) .driver "lower-all" 0
  set { s with recorder }
  let span := span.withExtra "units" (toString paths.length)
  let units ← paths.mapM (lowerFile store (compileOptions s.settings) span.id)
  let ended ← (Host.now : m Nat)
  modify fun s => { s with recorder := (s.recorder.finish (ended / 1000 : Nat) span "").1 }
  showTrace
  return ⟨units⟩

def findings (here : String) (colour : Bool) (format : String) (u : UnitResult) :
    Except Failure String :=
  let paths : PathView := ⟨.relative, here, here⟩
  let o : Render.Options := { colour, context := 1, paths, width := 0, notes := true }
  -- The files of a unit have no content here, so no mark is placed and there is a text.
  match format with
  | "json" =>
    .ok (Render.listing u.files { positions := true, paths, limit := 0, notes := true } u.bag)
  | "pretty" => .ok ((Render.bag u.files o u.bag).getD "")
  | "" => .ok ((Render.bag u.files o u.bag).getD "")
  | _ => .error (.diagnosticFormat format)

def showFindings (show_ : String → m Unit) (format : String) (units : List UnitResult) :
    CommandM m Unit := do
  let here ← (Host.here : m String)
  let colour := (← get).settings.colour
  for u in units do
    unless u.bag.items.isEmpty do
      (show_ (← orFail id (findings here colour format u)) : m Unit)

/-- Shows how long it took, if that is wished for. -/
def showTimings (r : Timing.Report) : CommandM m Unit := do
  if (← get).settings.timings && !r.phases.isEmpty then
    (Host.printError r.summary : m Unit)

end Commands

end CoreLowering.Command
