import CoreLowering.Command.Find
import CoreLowering.Core.Machine.Failure
import CoreLowering.Project.Manifest

/-!
# Why a command fails
-/

namespace CoreLowering.Command

/-- Why a command fails. -/
inductive Failure where
  | arguments (e : FlagError)
  | wordCount (arity : Arity) (path : String) (words : List String)
  | project (e : Project.LoadError)
  | target (e : Version.ParseError)
  | colour (text : String)
  | traceLevel (e : Trace.ParseError)
  | traceMode (e : Trace.ParseError)
  | traceOutput (f : FileFault)
  | profile (kind : String) (f : FileFault)
  | programFormat (text : String)
  | formatNeedsDirectory
  | progressMode (text : String)
  | diagnosticFormat (text : String)
  | versionFormat (text : String)
  | noUnits
  | noUnitsIn (path : String)
  | file (f : FileFault)
  | cache (f : FileFault)
  | noCacheHome
  | unitsFailed (failed total : Nat)
  | unitFailed (path : String)
  | evaluation (stop : Machine.Stop)
  | outOfBudget (steps : Nat)
  | directory (path : String) (f : FileFault)
  | notDirectory (path : String)
  | alreadyStarted (e : Project.WriteError)
  | unitsDirectory (path : String) (f : FileFault)

def Arity.message (path : String) (words : List String) : Arity → String
  | .any => ""
  | .none => "unknown command " ++ quote (words.headD "") ++ " for " ++ quote path
  | .exactly n =>
    "accepts " ++ toString n ++ " arg(s), received " ++ toString words.length
  | .atMost n =>
    "accepts at most " ++ toString n ++ " arg(s), received " ++ toString words.length

/-- Whether a command takes so many words. -/
def Arity.admits (n : Nat) : Arity → Bool
  | .any => true
  | .none => n = 0
  | .exactly k => n = k
  | .atMost k => n ≤ k

def Failure.message : Failure → String
  | arguments e => e.message
  | wordCount arity path words => arity.message path words
  | project e => e.message
  | target e => e.message
  | colour t => "invalid --color value " ++ quote t ++ " (expected auto|on|off)"
  | traceLevel e => "invalid trace level: " ++ e.message
  | traceMode e => "invalid trace mode: " ++ e.message
  | traceOutput f => "failed to create tracer: failed to open trace output: " ++ f.message
  | profile kind f => kind ++ ": " ++ f.message
  | programFormat t =>
    "unsupported format " ++ quote t ++ " (must be pretty, compact or msgpack)"
  | formatNeedsDirectory => "--format=msgpack needs --out"
  | progressMode t => "invalid --ui value " ++ quote t ++ " (expected auto|on|off)"
  | diagnosticFormat t =>
    "unsupported diagnostics format " ++ quote t ++ " (must be pretty or json)"
  | versionFormat t => "unsupported format " ++ quote t ++ " (must be pretty or json)"
  | noUnits =>
    "no units given and no " ++ Project.manifestName ++ " found\n" ++
      "please name the units explicitly, e.g.:\n  sirc lower path/to/unit.sir"
  | noUnitsIn path => path ++ ": no .sir units"
  | file f => f.message
  | cache f => "open cache: " ++ f.message
  | noCacheHome => "open cache: $HOME is not defined"
  | unitsFailed failed total =>
    "lowering failed: " ++ toString failed ++ " of " ++ toString total ++ " units"
  | unitFailed path => "lowering failed: " ++ path
  | evaluation stop => stop.message
  | outOfBudget steps =>
    "evaluation stopped after " ++ toString steps ++ " steps: " ++
      Machine.Stop.message .budget
  | directory path f => "failed to create directory " ++ quote path ++ ": " ++ f.message
  | notDirectory path => quote path ++ " is not a directory"
  | alreadyStarted e => "project already initialized: " ++ e.message
  | unitsDirectory path f => "failed to create " ++ quote path ++ ": " ++ f.message

end CoreLowering.Command
