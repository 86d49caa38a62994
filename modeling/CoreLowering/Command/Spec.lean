import CoreLowering.Command.Flag

/-!
# The commands

Each command has a name, a page of help, flags and a rule for the words after
it.  Some flags belong to all commands.
-/

namespace CoreLowering.Command

/-- What a command does. -/
inductive Action where
  | lower
  | eval
  | check
  | init
  | version
  | help
  deriving DecidableEq

/-- How many words a command takes. -/
inductive Arity where
  | any
  | none
  | exactly (n : Nat)
  | atMost (n : Nat)

/-- A command and the commands below it. -/
structure Spec where
  name : String
  /-- The words that follow the name in the help. -/
  operands : String := ""
  short : String
  long : String := ""
  flags : List Flag := []
  arity : Arity := .any
  /-- What it does; without it, it only shows its help. -/
  action : Option Action := .none
  commands : List Spec := []
  deriving Inhabited

/-! ## Flags -/

def colourFlag : Flag :=
  { name := "color", initial := .text "auto", usage := "colorize output (auto|on|off)" }

def quietFlag : Flag :=
  { name := "quiet", initial := .bool false, usage := "suppress non-essential output" }

/-- Whether to print how long it took. -/
def timingsFlag : Flag :=
  { name := "timings", initial := .bool false, usage := "show timing information" }

/-- How many findings of a unit are kept. -/
def maxDiagnosticsFlag : Flag :=
  { name := "max-diagnostics", initial := .integer 100
    usage := "maximum number of diagnostics per unit" }

def traceFlag : Flag :=
  { name := "trace", initial := .text "", usage := "trace output file (- for stderr)" }

def traceLevelFlag : Flag :=
  { name := "trace-level", initial := .text ""
    usage := "trace level (off|error|phase|detail|debug)" }

def traceModeFlag : Flag :=
  { name := "trace-mode", initial := .text "", usage := "trace storage (stream|ring|both)" }

/-- How many events are kept. -/
def traceRingSizeFlag : Flag :=
  { name := "trace-ring-size", initial := .integer 4096
    usage := "ring buffer size for --trace-mode=ring" }

/-- How often the trace shows that the program is alive. -/
def traceHeartbeatFlag : Flag :=
  { name := "trace-heartbeat", initial := .duration 0
    usage := "emit a heartbeat event at this interval" }

/-- Where a profile of the time is written to. -/
def cpuProfileFlag : Flag :=
  { name := "cpu-profile", initial := .text "", usage := "write a CPU profile to file" }

/-- Where a profile of the memory is written to. -/
def memProfileFlag : Flag :=
  { name := "mem-profile", initial := .text ""
    usage := "write a heap profile to file on exit" }

/-- Where a trace of the runtime system is written to. -/
def runtimeTraceFlag : Flag :=
  { name := "runtime-trace", initial := .text "", usage := "write a Go runtime trace to file" }

def globalFlags : List Flag :=
  [colourFlag, quietFlag, timingsFlag, maxDiagnosticsFlag, traceFlag, traceLevelFlag,
    traceModeFlag, traceRingSizeFlag, traceHeartbeatFlag, cpuProfileFlag, memProfileFlag,
    runtimeTraceFlag]

def targetFlag : Flag :=
  { name := "target", initial := .text ""
    usage := "target version (v1|v2|v3|v4); default from sirc.toml or v3" }

/-- Whether the lowering is traced and failures keep their messages. -/
def debugFlag : Flag :=
  { name := "debug", initial := .bool false
    usage := "trace every engine decision and keep error messages in the program" }

/-- The same for a program that is run. -/
def evalDebugFlag : Flag :=
  { debugFlag with usage := "keep error messages in the program" }

/-- Whether the fixed-point combinator is left free. -/
def noLinkFlag : Flag :=
  { name := "no-link", initial := .bool false, usage := "do not bind the fixed-point combinator" }

def cacheFlag : Flag :=
  { name := "cache", initial := .bool false, usage := "use the on-disk cache of lowered units" }

/-- How many units are lowered at a time. -/
def jobsFlag : Flag :=
  { name := "jobs", initial := .integer 0, usage := "parallel units (0 = GOMAXPROCS)" }

def diagFormatFlag : Flag :=
  { name := "diag-format", initial := .text "pretty"
    usage := "diagnostics format (pretty|json)" }

def programFormatFlag : Flag :=
  { name := "format", initial := .text "pretty"
    usage := "program format (pretty|compact|msgpack)" }

/-- How findings are shown by a command that shows nothing else. -/
def checkFormatFlag : Flag :=
  { name := "format", initial := .text "pretty", usage := "diagnostics format (pretty|json)" }

def versionFormatFlag : Flag :=
  { name := "format", initial := .text "pretty", usage := "output format (pretty|json)" }

def outFlag : Flag :=
  { name := "out", letter := some 'o', initial := .text ""
    usage := "write one file per unit into this directory instead of stdout" }

def uiFlag : Flag :=
  { name := "ui", initial := .text "off", usage := "progress view (auto|on|off)" }

/-- How many steps a program may take. -/
def budgetFlag : Flag :=
  { name := "budget", initial := .integer 10000000
    usage := "maximum number of machine steps (0 = unlimited)" }

def helpFlag (command : String) : Flag :=
  { name := "help", letter := some 'h', initial := .bool false
    usage := "help for " ++ command }

def versionFlag (command : String) : Flag :=
  { name := "version", letter := some 'v', initial := .bool false
    usage := "version for " ++ command }

/-! ## Commands -/

def programName : String := "sirc"

def lowerSpec : Spec :=
  { name := "lower"
    operands := " [units|dirs...]"
    short := "Lower SIR units to UPLC programs"
    long := "Lower every given .sir unit (directories are scanned recursively) and\n" ++
      "print the resulting programs. Without arguments the units directory of\n" ++
      "sirc.toml is used."
    flags := [targetFlag, debugFlag, noLinkFlag, cacheFlag, jobsFlag, diagFormatFlag,
      programFormatFlag, outFlag, uiFlag]
    action := some .lower }

/-- Lowers a unit and runs the program. -/
def evalSpec : Spec :=
  { name := "eval"
    operands := " <unit.sir>"
    short := "Lower a unit and evaluate it on the reference machine"
    flags := [targetFlag, evalDebugFlag, budgetFlag, diagFormatFlag]
    arity := .exactly 1
    action := some .eval }

def checkSpec : Spec :=
  { name := "check"
    operands := " [units|dirs...]"
    short := "Validate and lower units, printing diagnostics only"
    flags := [targetFlag, jobsFlag, checkFormatFlag]
    action := some .check }

def initSpec : Spec :=
  { name := "init"
    operands := " [path|name]"
    short := "Initialize a new sirc project"
    long := "Initialize a new sirc project by creating a project manifest (sirc.toml)\n" ++
      "and a units directory holding a sample unit (sir/main.sir). If [path|name] is\n" ++
      "omitted, initializes the current directory."
    arity := .atMost 1
    action := some .init }

def versionSpec : Spec :=
  { name := "version"
    short := "Show sirc build information"
    flags := [versionFormatFlag]
    arity := .none
    action := some .version }

def helpSpec : Spec :=
  { name := "help"
    operands := " [command]"
    short := "Help about any command"
    long := "Help provides help for any command in the application.\n" ++
      "Simply type sirc help [path to command] for full details."
    action := some .help }

/-- Tells about scripts that complete command lines. -/
def completionSpec : Spec :=
  { name := "completion"
    short := "Generate the autocompletion script for the specified shell"
    long := "Generate the autocompletion script for sirc for the specified shell.\n" ++
      "See each sub-command's help for details on how to use the generated script."
    arity := .none
    commands := ["bash", "fish", "powershell", "zsh"].map fun shell =>
      { name := shell
        short := "Generate the autocompletion script for " ++ shell
        arity := .none } }

def rootSpec : Spec :=
  { name := programName
    short := "Lower typed SIR units to UPLC"
    long := "sirc lowers typed SIR compilation units to untyped UPLC programs,\n" ++
      "choosing a runtime representation for every value and emitting each\n" ++
      "shared computation once."
    commands := [lowerSpec, evalSpec, checkSpec, initSpec, versionSpec, helpSpec,
      completionSpec] }

namespace Spec

/-- Whether a command is offered; the one that shows the help is not. -/
def isOffered (s : Spec) : Bool := s.action ≠ some .help

end Spec

/-- A command that was found: the commands on the way to it, and it. -/
structure Target where
  above : List Spec
  spec : Spec

namespace Target

def path (t : Target) : String :=
  " ".intercalate ((t.above ++ [t.spec]).map (·.name))

/-- The flags of a command's own; all flags of the program belong to the
program itself. -/
def ownFlags (t : Target) : List Flag :=
  t.spec.flags ++ (if t.above.isEmpty then globalFlags else [])

/-- The flags that a command has from those above it. -/
def inheritedFlags (t : Target) : List Flag :=
  if t.above.isEmpty then [] else globalFlags

def standardFlags (t : Target) : List Flag :=
  helpFlag t.spec.name :: (if t.above.isEmpty then [versionFlag t.spec.name] else [])

def flags (t : Target) : List Flag :=
  t.ownFlags ++ t.inheritedFlags ++ t.standardFlags

end Target

end CoreLowering.Command
