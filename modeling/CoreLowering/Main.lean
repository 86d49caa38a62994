import CoreLowering.Command.Run
import Std.Time.DateTime.Timestamp

/-!
# The program

Runs a command line on the machine itself.
-/

namespace CoreLowering

/-- The cause that an error of the system stands for. -/
def FileCause.ofError : IO.Error → FileCause
  | .noFileOrDirectory _ _ _ => .notFound
  | .alreadyExists _ _ _ => .alreadyThere
  | .permissionDenied _ _ _ => .denied
  | .inappropriateType _ code details =>
    if code = 20 then .notDirectory else if code = 21 then .isDirectory else .other details
  | e => .other (toString e)

def outcomeOf {α : Type} (operation path : String) (act : IO α) : IO (Except FileFault α) := do
  match ← act.toBaseIO with
  | .ok a => return .ok a
  | .error e => return .error ⟨operation, path, .ofError e⟩

/-- The place of a path, read in the working directory. -/
def placeOf (path : String) := do
  let here ← IO.currentDir
  return here / path

def kindAt (path : String) : IO FileKind := do
  if (← (← placeOf path).metadata).type == .dir then return .directory else return .file

instance : Host IO where
  here := do return (← IO.currentDir).toString
  cacheHome := do
    match ← IO.getEnv "XDG_CACHE_HOME" with
    | some dir => if dir ≠ "" then return some dir else homeCache
    | none => homeCache
  kindOf path := outcomeOf "stat" path (kindAt path)
  readFile path := do
    match ← outcomeOf "open" path (kindAt path) with
    | .ok .directory => return .error ⟨"read", path, .isDirectory⟩
    | .error f => return .error f
    | .ok .file =>
      outcomeOf "open" path do return (← IO.FS.readBinFile (← placeOf path)).toList
  writeFile path content :=
    outcomeOf "open" path do IO.FS.writeBinFile (← placeOf path) ⟨content.toArray⟩
  makeDirectory path := outcomeOf "mkdir" path do IO.FS.createDir (← placeOf path)
  entries path := outcomeOf "open" path do
    let found ← (← placeOf path).readDir
    found.toList.mapM fun e => do
      let kind := if (← e.path.symlinkMetadata).type == .dir then .directory else .file
      return (e.fileName, kind)
  now := do return (← Std.Time.Timestamp.now).toNanosecondsSinceUnixEpoch.val.toNat
  print text := do
    (← IO.getStdout).putStr text
    (← IO.getStdout).flush
  printError text := do (← IO.getStderr).putStr text
  terminalWidth := do
    if ← (← IO.getStdout).isTty then
      return some (((← IO.getEnv "COLUMNS").bind String.toNat?).getD Command.standardWidth)
    else return none
where
  homeCache : IO (Option String) := do
    return (← IO.getEnv "HOME").map (Path.join · ".cache")

end CoreLowering

def main (args : List String) : IO UInt32 :=
  CoreLowering.Command.run args
