import CoreLowering.Command.Help
import CoreLowering.Command.Sample
import CoreLowering.Command.Units
import CoreLowering.Core.Machine
import CoreLowering.Core.Term.Layout

/-!
# Running commands

`run` carries out a command line.  What a command fails with is printed after
`Error:`, and the exit code tells whether it failed.
-/

namespace CoreLowering.Command

open Compile (UnitResult)

def programVersion : String := "0.1.0-dev"

def colouredVersion : String :=
  Style.boldYellow.apply true "0" ++ "." ++ Style.boldGreen.apply true "1" ++ "." ++
    Style.boldBlue.apply true "0" ++ "-dev"

/-- The columns of programs where there is no terminal. -/
def standardWidth : Nat := 100

def programText (width : Nat) (p : Program) : String :=
  "(program " ++ p.version.language ++ "\n" ++ p.term.layout width ++ "\n)\n"

inductive ProgramFormat where
  | pretty
  | compact
  | binary

/-- The file of a program: the end of its name, and its content. -/
def ProgramFormat.file (p : Program) : ProgramFormat → String × Bytes
  | pretty => (".uplc", Bytes.ofString (programText standardWidth p))
  | compact => (".uplc", Bytes.ofString (p.text ++ "\n"))
  | binary => (".uplc.mp", Interchange.encodeProgram p)

/-- The name of a unit's file without the end for units. -/
def unitBase (path : String) : String :=
  let base := Path.base path
  if isUnit base then (base.take (base.length - unitExtension.length)).toString else base

section Commands

variable {m : Type → Type} [Monad m] [Host m]

/-- Reads how programs are written; binary ones need a directory. -/
def programFormatFor (a : Arguments) : CommandM m ProgramFormat := do
  match a.text programFormatFlag with
  | "pretty" => return .pretty
  | "compact" => return .compact
  | "msgpack" =>
    if a.text outFlag = "" then throw .formatNeedsDirectory
    return .binary
  | t => throw (.programFormat t)

def checkProgressMode (text : String) : CommandM m Unit := do
  unless ["", "auto", "on", "off"].contains (trim (lower text)) do
    throw (.progressMode text)

/-- Writes the program of a unit into a directory. -/
def writeProgram (dir : String) (format : ProgramFormat) (path : String) (p : Program) :
    CommandM m Unit := do
  orFail .file (← (makeDirectories dir : m _))
  let (extension, content) := format.file p
  orFail .file
    (← (Host.writeFile (Path.join dir (unitBase path ++ extension)) content : m _))

def showProgram (width : Nat) (several : Bool) (format : ProgramFormat) (path : String)
    (p : Program) : CommandM m Unit := do
  if several then (Host.print ("-- " ++ path ++ "\n") : m Unit)
  match format with
  | .compact => (Host.print (p.text ++ "\n") : m Unit)
  | _ => (Host.print (programText width p) : m Unit)

def requireAll (b : Batch) : CommandM m Unit := do
  if 0 < b.failed then throw (.unitsFailed b.failed b.units.length)

/-- Lowers units and shows or writes their programs. -/
def runLower (a : Arguments) : CommandM m Unit := do
  let format ← programFormatFor a
  let units ← unitsFor a.words
  let store ← openStore
  checkProgressMode (a.text uiFlag)
  let batch ← lowerAll store units
  let width := (← (Host.terminalWidth : m _)).getD standardWidth
  let dir := a.text outFlag
  for u in batch.units do
    match u.ok, u.program with
    | true, some p =>
      if dir = "" then showProgram width (decide (1 < batch.units.length)) format u.path p
      else writeProgram dir format u.path p
    | _, _ => pure ()
  showFindings Host.printError (a.text diagFormatFlag) batch.units
  showTimings batch.timing
  requireAll batch

def runEval (a : Arguments) : CommandM m Unit := do
  let store ← openStore
  let settings := (← get).settings
  let options := { compileOptions settings with noLink := false }
  let u ← lowerFile store options 0 (a.words.headD "")
  showTrace
  showFindings Host.printError (a.text diagFormatFlag) [u]
  match u.ok, u.program with
  | true, some p =>
    let r := Machine.evaluate ⟨p.version, a.integer budgetFlag⟩ p.term
    (Host.print (String.join (r.logs.map fun line => "trace: " ++ line ++ "\n")) : m Unit)
    showTimings u.timing
    match r.result with
    | .error .budget => throw (.outOfBudget r.steps)
    | .error stop => throw (.evaluation stop)
    | .ok v =>
      (Host.print (v.text ++ "\n") : m Unit)
      unless settings.quiet do
        (Host.printError ("steps: " ++ toString r.steps ++ "\n") : m Unit)
  | _, _ => throw (.unitFailed u.path)

/-- Lowers units and shows findings only.  Kept results are not used. -/
def runCheck (a : Arguments) : CommandM m Unit := do
  let units ← unitsFor a.words
  discard openStore
  let batch ← lowerAll none units
  let format := a.text checkFormatFlag
  showFindings Host.print format batch.units
  showTimings batch.timing
  requireAll batch
  unless (← get).settings.quiet || format = "json" do
    (Host.printError ("ok: " ++ toString batch.units.length ++ " units\n") : m Unit)

def projectName (dir : String) : String :=
  let name := trim (Path.base dir)
  if name = "" || name = "." || name = "/" then "sirc-project" else name

def requireDirectory (dir : String) : CommandM m Unit := do
  match ← (Host.kindOf dir : m _) with
  | .ok .directory => pure ()
  | .ok .file => throw (.notDirectory dir)
  | .error f =>
    if f.cause = .notFound then orFail (.directory dir) (← (makeDirectories dir : m _))
    else throw (.file f)

/-- Writes the sample unit, unless there is a unit already; says whether it
did. -/
def writeSample (path : String) : CommandM m Bool := do
  match ← (Host.kindOf path : m _) with
  | .ok _ => return false
  | .error f =>
    if f.cause ≠ .notFound then return false
    orFail .file (← (Host.writeFile path Sample.unit.encode : m _))
    return true

def runInit (a : Arguments) : CommandM m Unit := do
  let here ← (Host.here : m String)
  let dir := match a.words with
    | word :: _ =>
      if word = "." then here
      else if Path.isRooted word then word
      else Path.join here word
    | [] => here
  requireDirectory dir
  let config := Project.Config.initial (projectName dir)
  let manifest ← orFail .alreadyStarted (← (Project.write dir config : m _))
  let unitsDirectory := Path.join dir config.units
  orFail (.unitsDirectory unitsDirectory) (← (makeDirectories unitsDirectory : m _))
  let unit := Path.join unitsDirectory ("main" ++ unitExtension)
  let created := manifest :: (if ← writeSample unit then [unit] else [])
  for path in created do
    (Host.print ("created " ++ (Path.relative here path).getD path ++ "\n") : m Unit)

/-- What the program says about itself. -/
def aboutJson : Json :=
  .obj [("tool", .str programName), ("version", .str programVersion),
    ("targets", .arr ([Version.v1, .v2, .v3, .v4].map fun v => .str v.name))]

def runVersion (a : Arguments) : CommandM m Unit := do
  let colour := (← get).settings.colour
  let plain := programName ++ " " ++ (if colour then colouredVersion else programVersion) ++ "\n"
  match lower (a.text versionFormatFlag) with
  | "pretty" => (Host.print plain : m Unit)
  | "" => (Host.print plain : m Unit)
  | "json" => (Host.print aboutJson.indented : m Unit)
  | _ => throw (.versionFormat (a.text versionFormatFlag))

def runHelp (a : Arguments) : CommandM m Unit := do
  match find a.words with
  | .ok (t, _) => (Host.print t.help : m Unit)
  | .error _ =>
    let topic := " ".intercalate (a.words.map fun w => "`" ++ w ++ "`")
    (Host.printError ("Unknown help topic [" ++ topic ++ "]\n" ++
      Target.usage ⟨[], rootSpec⟩) : m Unit)

def perform (a : Arguments) : Action → CommandM m Unit
  | .lower => runLower a
  | .eval => runEval a
  | .check => runCheck a
  | .init => runInit a
  | .version => runVersion a
  | .help => runHelp a

def runTarget (t : Target) (words : List String) : CommandM m Unit := do
  let a ← orFail .arguments (readArguments t.flags words)
  if a.bool (helpFlag "") then (Host.print t.help : m Unit)
  else if t.above.isEmpty && a.bool (versionFlag "") then
    (Host.print (programName ++ " version " ++ programVersion ++ "\n") : m Unit)
  else
    match t.spec.action with
    | none => (Host.print t.help : m Unit)
    | some action =>
      unless t.spec.arity.admits a.words.length do
        throw (.wordCount t.spec.arity t.path a.words)
      prepare a
      perform a action

/-- Carries out a command line and gives the exit code. -/
def run (words : List String) : m UInt32 := do
  match find words with
  | .error e =>
    Host.printError ("Error: " ++ e.message ++ "\nRun '" ++ programName ++
      " --help' for usage.\n")
    return 1
  | .ok (t, rest) =>
    let (result, session) ← (runTarget t rest).run.run {}
    let code ← match result with
      | .ok _ => pure 0
      | .error e => do
        Host.printError ("Error: " ++ e.message ++ "\n")
        pure 1
    conclude session
    return code

end Commands

end CoreLowering.Command
