import CoreLowering.Command.Spec

/-!
# Pages of help

The help of a command says what it does, how it is called, which commands
there are below it and which flags it has.
-/

namespace CoreLowering.Command

def FlagValue.word : FlagValue → String
  | .bool _ => ""
  | .integer _ => " int"
  | .text _ => " string"
  | .duration _ => " duration"

/-- The remark on the value of a flag when none is given, unless it is
empty. -/
def FlagValue.remark : FlagValue → String
  | .integer n => if n = 0 then "" else " (default " ++ toString n ++ ")"
  | .text s => if s = "" then "" else " (default " ++ quote s ++ ")"
  | .bool b => if b then " (default true)" else ""
  | .duration _ => ""

def Flag.heading (f : Flag) : String :=
  (match f.letter with
    | some c => "  -" ++ c.toString ++ ", --"
    | none => "      --") ++ f.name ++ f.initial.word

def flagLines (flags : List Flag) : String :=
  let sorted := flags.mergeSort fun f g => decide (f.name ≤ g.name)
  let width := (sorted.map (·.heading.length)).foldl max 0
  "\n".intercalate (sorted.map fun f =>
    padRight width f.heading ++ "   " ++ f.usage ++ f.initial.remark)

namespace Target

def useLine (t : Target) : String :=
  t.path ++ t.spec.operands ++ " [flags]"

/-- The part of the help on how a command is called. -/
def usage (t : Target) : String :=
  let s := t.spec
  let offered := s.commands.any (·.isOffered)
  let listed := (s.commands.filter fun c => c.isOffered || c.action = some .help).mergeSort
    fun c d => decide (c.name ≤ d.name)
  "Usage:" ++
    (if s.action.isSome then "\n  " ++ t.useLine else "") ++
    (if offered then "\n  " ++ t.path ++ " [command]" else "") ++
    (if offered then
      "\n\nAvailable Commands:" ++
        String.join (listed.map fun c => "\n  " ++ padRight 11 c.name ++ " " ++ c.short)
    else "") ++
    "\n\nFlags:\n" ++ flagLines (t.ownFlags ++ t.standardFlags) ++
    (if t.inheritedFlags.isEmpty then ""
    else "\n\nGlobal Flags:\n" ++ flagLines t.inheritedFlags) ++
    (if offered then
      "\n\nUse \"" ++ t.path ++ " [command] --help\" for more information about a command."
    else "") ++ "\n"

def help (t : Target) : String :=
  let s := t.spec
  (if s.long = "" then s.short else s.long) ++ "\n\n" ++
    (if s.action.isSome || !s.commands.isEmpty then t.usage else "")

end Target

end CoreLowering.Command
