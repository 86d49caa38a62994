import CoreLowering.Project.Config
import CoreLowering.Toml.Document

/-!
# Reading a configuration

The sections and keys of the settings file are found without regard to the
case of their letters.  A key that means nothing is an error, so that a slip
does not go unnoticed.
-/

namespace CoreLowering.Project

open Toml (Key Node Table Value)

/-- Why a settings file gives no configuration. -/
inductive DecodeError where
  /-- The text is no settings file, or a value has the wrong kind. -/
  | malformed
  | noPackage
  | unknownKeys (keys : List Key)
  | faulty (faults : List Fault)

def DecodeError.message : DecodeError → String
  | malformed => "failed to parse TOML: malformed text"
  | noPackage => "missing [package]"
  | unknownKeys keys => "unknown keys: " ++ ", ".intercalate (keys.map Toml.keyText)
  | faulty faults => "\n".intercalate (faults.map Fault.message)

/-- A letter without regard to its case, where it is one of the alphabet. -/
def foldChar (c : Char) : Char :=
  if c = '\u212a' then 'k' else if c = '\u017f' then 's' else c.toLower

/-- A name without regard to the case of its letters. -/
def foldName (s : String) : String := String.ofList (s.toList.map foldChar)

/-- How a setting is read into a configuration. -/
abbrev Setting := Node → Config → Option Config

def textSetting (set : String → Config → Config) : Setting
  | .leaf (.text s), c => some (set s c)
  | _, _ => none

def boolSetting (set : Bool → Config → Config) : Setting
  | .leaf (.bool b), c => some (set b c)
  | _, _ => none

def integerSetting (set : Int → Config → Config) : Setting
  | .leaf (.integer n), c => some (set n c)
  | _, _ => none

def settings? : String → Option (List (String × Setting))
  | "package" => some [("name", textSetting fun v c => { c with name := v })]
  | "lower" => some
      [("target", textSetting fun v c => { c with target := v }),
        ("debug", boolSetting fun v c => { c with debug := v }),
        ("no_link", boolSetting fun v c => { c with noLink := v }),
        ("units", textSetting fun v c => { c with units := v })]
  | "trace" => some
      [("level", textSetting fun v c => { c with traceLevel := v }),
        ("mode", textSetting fun v c => { c with traceMode := v }),
        ("output", textSetting fun v c => { c with traceOutput := v })]
  | "cache" => some
      [("enabled", boolSetting fun v c => { c with cacheEnabled := v }),
        ("dir", textSetting fun v c => { c with cacheDirectory := v })]
  | "build" => some [("jobs", integerSetting fun v c => { c with jobs := v })]
  | _ => none

def readSection (settings : List (String × Setting)) (c : Config) : Table → Option Config
  | [] => some c
  | (k, n) :: rest =>
    match settings.lookup (foldName k) with
    | some set => do readSection settings (← set n c) rest
    | none => readSection settings c rest

def readSections (c : Config) : Table → Option Config
  | [] => some c
  | (k, n) :: rest =>
    match settings? (foldName k), n with
    | some settings, .table t => do readSections (← readSection settings c t) rest
    | some _, _ => none
    | none, _ => readSections c rest

/-- Whether a key names a section or a setting. -/
def isKnown : Key → Bool
  | [s] => (settings? (foldName s)).isSome
  | [s, k] => (((settings? (foldName s)).getD []).lookup (foldName k)).isSome
  | _ => false

/-- Reads a configuration from the content of a settings file.  Results are
kept unless the file says otherwise. -/
def Config.decode (content : Bytes) : Except DecodeError Config := do
  let document ← orMalformed (do Toml.Document.ofStatements? (← Toml.read? content))
  let config ← orMalformed (readSections {} document.root)
  let some _ := document.root.lookup "package" | throw .noPackage
  let unknown := document.keys.filter (!isKnown ·)
  unless unknown.isEmpty do throw (.unknownKeys unknown)
  let saysEnabled := match document.root.lookup "cache" with
    | some (.table t) => (t.lookup "enabled").isSome
    | _ => false
  let config := if saysEnabled then config else { config with cacheEnabled := true }
  unless config.faults.isEmpty do throw (.faulty config.faults)
  return config
where
  orMalformed {α : Type} : Option α → Except DecodeError α
    | some a => .ok a
    | none => .error .malformed

end CoreLowering.Project
