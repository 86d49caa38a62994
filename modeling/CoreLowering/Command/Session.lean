import CoreLowering.Command.Failure
import CoreLowering.Compile.Unit

/-!
# Before and after a command

Before a command does its work, the choices of the project and of the command
line are put together, and the trace and the profiles are begun.  After it,
what was traced is written.
-/

namespace CoreLowering.Command

/-- What the project and the command line choose; the command line wins. -/
structure Settings where
  manifest : Option Project.Manifest := none
  target : Version := .standard
  debug : Bool := false
  noLink : Bool := false
  maxDiagnostics : Int := 0
  cache : Bool := false
  /-- The directory of kept results; the usual one if it is empty. -/
  cacheDirectory : String := ""
  colour : Bool := false
  quiet : Bool := false
  timings : Bool := false

/-- What is going on while a command runs. -/
structure Session where
  settings : Settings := {}
  recorder : Trace.Recorder := .nothing
  traceMode : Trace.Mode := .stream
  traceFile : Option String := none
  /-- Where the profile of the memory is written to. -/
  memProfile : String := ""

abbrev CommandM (m : Type → Type) := ExceptT Failure (StateT Session m)

def orFail {m : Type → Type} [Monad m] {ε α : Type} (make : ε → Failure) :
    Except ε α → CommandM m α
  | .ok a => pure a
  | .error e => throw (make e)

section Commands

variable {m : Type → Type} [Monad m] [Host m]

/-- The choices of the project that the command runs in. -/
def projectSettings : CommandM m Settings := do
  let here ← (Host.here : m String)
  match ← orFail .project (← (Project.load here : m _)) with
  | none => return {}
  | some manifest =>
    let c := manifest.config
    return {
      manifest := some manifest
      target := ← orFail .target c.version
      debug := c.debug
      noLink := c.noLink
      cache := c.cacheEnabled
      cacheDirectory := manifest.cacheDirectory }

/-- Whether a command line asks for colours; by itself a terminal does. -/
def coloursFor (text : String) : CommandM m Bool := do
  match lower text with
  | "on" => return true
  | "off" => return false
  | "auto" => return (← (Host.terminalWidth : m _)).isSome
  | "" => return (← (Host.terminalWidth : m _)).isSome
  | _ => throw (.colour text)

/-- The choices of the project and of the command line. -/
def settingsFor (a : Arguments) : CommandM m Settings := do
  let s ← projectSettings
  let target ←
    if a.has targetFlag then orFail .target (Version.parse (a.text targetFlag))
    else pure s.target
  return { s with
    target
    debug := if a.has debugFlag then a.bool debugFlag else s.debug
    noLink := if a.has noLinkFlag then a.bool noLinkFlag else s.noLink
    cache := if a.has cacheFlag then a.bool cacheFlag else s.cache
    maxDiagnostics := a.integer maxDiagnosticsFlag
    quiet := a.bool quietFlag
    timings := a.bool timingsFlag
    colour := ← coloursFor (a.text colourFlag) }

def firstText (a b : String) : String := if a = "" then b else a

def beginTrace (a : Arguments) : CommandM m Unit := do
  let c := ((← get).settings.manifest.map (·.config)).getD {}
  let output := firstText (a.text traceFlag) c.traceOutput
  let level ← orFail .traceLevel
    (Trace.Level.parse (firstText (a.text traceLevelFlag) c.traceLevel))
  if level = .off then return ()
  let mode ← orFail .traceMode
    (Trace.Mode.parse (firstText (a.text traceModeFlag) c.traceMode))
  let file := if mode = .ring || output = "" || output = "-" then none else some output
  match file with
  | some path => orFail .traceOutput (← (Host.writeFile path [] : m _))
  | none => pure ()
  modify fun s =>
    { s with
      recorder := .new level mode (.ofPath output) (a.integer traceRingSizeFlag)
      traceMode := mode
      traceFile := file }

/-- Begins the profiles.  Their files are made, and the profile of the memory
is written at the end. -/
def beginProfiles (a : Arguments) : CommandM m Unit := do
  let begin (kind : String) (f : Flag) : CommandM m Unit :=
    if a.text f = "" then pure ()
    else do orFail (.profile kind) (← (Host.writeFile (a.text f) [] : m _))
  begin "cpu profile" cpuProfileFlag
  begin "runtime trace" runtimeTraceFlag
  modify fun s => { s with memProfile := a.text memProfileFlag }

/-- Puts the choices together and begins the trace and the profiles. -/
def prepare (a : Arguments) : CommandM m Unit := do
  let settings ← settingsFor a
  modify fun s => { s with settings }
  beginTrace a
  beginProfiles a

/-- Shows what was traced so far, if it is not written to a file. -/
def showTrace : CommandM m Unit := do
  let s ← get
  if s.traceFile.isNone then (Host.printError s.recorder.written : m Unit)

/-- Writes what was traced and kept, and the profile of the memory. -/
def conclude (s : Session) : m Unit := do
  if s.traceMode = .ring then
    match s.recorder.ring? with
    | some (events, dropped) =>
      if 0 < dropped then
        Host.printError ("trace: " ++ toString dropped ++ " earlier events dropped\n")
      Host.printError (String.join (events.map (·.render .text)))
    | none => pure ()
  match s.traceFile with
  | some path => discard (Host.writeFile path (Bytes.ofString s.recorder.close.written))
  | none => pure ()
  if s.memProfile ≠ "" then
    match ← Host.writeFile s.memProfile [] with
    | .ok _ => pure ()
    | .error f =>
      Host.printError ("failed to write profiles: heap profile: " ++ f.message ++ "\n")

end Commands

end CoreLowering.Command
