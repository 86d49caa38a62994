import CoreLowering.Core.Version
import CoreLowering.Toml.Reader
import CoreLowering.Trace.Level

/-!
# Configuration of a project

A project has a name, and it may choose how its units are lowered, what is
traced, whether results are kept and how many units are lowered at a time.
The choices are kept as they are written; `Config.faults` says which of them
make no sense.
-/

namespace CoreLowering.Project

/-- The choices of a project. -/
structure Config where
  name : String := ""
  target : String := ""
  debug : Bool := false
  noLink : Bool := false
  units : String := ""
  traceLevel : String := ""
  traceMode : String := ""
  traceOutput : String := ""
  cacheEnabled : Bool := false
  cacheDirectory : String := ""
  jobs : Int := 0

/-- A choice that makes no sense. -/
inductive Fault where
  | noName
  | target (e : Version.ParseError)
  | level (e : Trace.ParseError)
  | mode (e : Trace.ParseError)
  | jobs (n : Int)

def Fault.message : Fault → String
  | noName => "missing [package].name"
  | target e => "[lower].target: " ++ e.message
  | level e => "[trace].level: " ++ e.message
  | mode e => "[trace].mode: " ++ e.message
  | jobs n => "[build].jobs must not be negative, got " ++ toString n

namespace Config

/-- The choices of a new project. -/
def initial (name : String) : Config :=
  { name
    target := Version.standard.name
    units := "sir"
    traceLevel := Trace.Level.off.name
    traceMode := Trace.Mode.stream.name
    cacheEnabled := true }

/-- The version to lower for; the standard one if none is chosen. -/
def version (c : Config) : Except Version.ParseError Version :=
  if trim c.target = "" then .ok .standard else Version.parse c.target

def faultOf {ε α : Type} (make : ε → Fault) : Except ε α → List Fault
  | .ok _ => []
  | .error e => [make e]

/-- All choices that make no sense. -/
def faults (c : Config) : List Fault :=
  (if trim c.name = "" then [.noName] else [])
    ++ faultOf .target c.version
    ++ (if c.traceLevel = "" then [] else faultOf .level (Trace.Level.parse c.traceLevel))
    ++ faultOf .mode (Trace.Mode.parse c.traceMode)
    ++ (if c.jobs < 0 then [.jobs c.jobs] else [])

def sectionText (name : String) (lines : List (String × String)) : String :=
  "[" ++ name ++ "]\n" ++ String.join (lines.map fun (k, v) => "  " ++ k ++ " = " ++ v ++ "\n")

def toToml (c : Config) : String :=
  "\n".intercalate
    [sectionText "package" [("name", Toml.quoted c.name)],
      sectionText "lower"
        [("target", Toml.quoted c.target), ("debug", toString c.debug),
          ("no_link", toString c.noLink), ("units", Toml.quoted c.units)],
      sectionText "trace"
        [("level", Toml.quoted c.traceLevel), ("mode", Toml.quoted c.traceMode),
          ("output", Toml.quoted c.traceOutput)],
      sectionText "cache"
        [("enabled", toString c.cacheEnabled), ("dir", Toml.quoted c.cacheDirectory)],
      sectionText "build" [("jobs", toString c.jobs)]]

end Config

end CoreLowering.Project
