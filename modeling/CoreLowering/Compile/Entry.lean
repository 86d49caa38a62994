import CoreLowering.Compile.Request
import CoreLowering.Graph.State
import CoreLowering.Interchange.Program

/-!
# Stored results

A lowered unit can be kept and used again.  The entry of a unit holds all
that a later request needs: the program, what is known about it and the
findings.  `Entry.decode` gives back what `Entry.encode` wrote.
-/

namespace CoreLowering.Compile

open Interchange

/-- What is kept of a lowered unit. -/
structure Entry where
  unit : String
  program : Program
  usesFix : Bool
  stats : Graph.Stats
  diagnostics : List Diagnostic

namespace Entry

/-- A number in as few bytes as it needs. -/
def compact (n : Nat) : Msg :=
  if n < 0x80 then .int .fixed n
  else if n ≤ 0xff then .int .u8 n
  else if n ≤ 0xffff then .int .u16 n
  else if n ≤ 0xffffffff then .int .u32 n
  else .int .u64 n

/-- A list as a message; the empty one is nil. -/
def listMsg {α : Type} (f : α → Msg) (xs : List α) : Msg :=
  if xs.isEmpty then .nil else .arr (xs.map f)

def noteMsg (n : Note) : Msg :=
  .fields [("Span", spanMsg n.span), ("Msg", .text n.text)]

def diagnosticMsg (d : Diagnostic) : Msg :=
  .fields
    [("Severity", .int .u8 d.severity.rank), ("Code", .int .u16 d.code.number.toNat),
      ("Message", .text d.message), ("Primary", spanMsg d.span),
      ("Notes", listMsg noteMsg d.notes)]

def statsMsg (s : Graph.Stats) : Msg :=
  .fields
    [("Values", compact s.values), ("Vars", compact s.vars), ("Aliases", compact s.aliases),
      ("Bindings", compact s.bindings), ("Inlined", compact s.inlined),
      ("Warnings", compact s.warnings)]

def toMsg (e : Entry) : Msg :=
  .fields
    [("Schema", .int .u16 schema), ("Module", .text e.unit),
      ("Program", (ProgramRecord.ofProgram e.program).toMsg), ("UsesFix", .bool e.usesFix),
      ("Stats", statsMsg e.stats), ("Warnings", listMsg diagnosticMsg e.diagnostics)]

def encode (e : Entry) : Bytes := e.toMsg.encode

def readText (m : Msg) : Read String := Utf8.lenientText <$> readBytes m

def readCount (m : Msg) : Read Nat := Int.toNat <$> readInt m

def readNote : Reader Note :=
  readRecord ["Span", "Msg"] ⟨.none, ""⟩ fun n name m =>
    match name with
    | "Span" => do return { n with span := ← readSpan n.span m }
    | "Msg" => do return { n with text := ← readText m }
    | _ => pure n

def readDiagnostic : Reader Diagnostic :=
  readRecord ["Severity", "Code", "Message", "Primary", "Notes"] ⟨.info, ⟨0⟩, .none, "", []⟩
    fun d name m =>
      match name with
      | "Severity" => do return { d with severity := .ofRank (← readByte m) }
      | "Code" => do return { d with code := ⟨UInt16.ofInt (← readInt m)⟩ }
      | "Message" => do return { d with message := ← readText m }
      | "Primary" => do return { d with span := ← readSpan d.span m }
      | "Notes" => do return { d with notes := ← readList readNote d.notes m }
      | _ => pure d

def readStats : Reader Graph.Stats :=
  readRecord ["Values", "Vars", "Aliases", "Bindings", "Inlined", "Warnings"]
    ⟨0, 0, 0, 0, 0, 0⟩ fun s name m =>
      match name with
      | "Values" => do return { s with values := ← readCount m }
      | "Vars" => do return { s with vars := ← readCount m }
      | "Aliases" => do return { s with aliases := ← readCount m }
      | "Bindings" => do return { s with bindings := ← readCount m }
      | "Inlined" => do return { s with inlined := ← readCount m }
      | "Warnings" => do return { s with warnings := ← readCount m }
      | _ => pure s

/-- An entry as it is read: its layout, and the program if there is one. -/
structure Found where
  layout : UInt16 := 0
  unit : String := ""
  program : Option Program := none
  usesFix : Bool := false
  stats : Graph.Stats := ⟨0, 0, 0, 0, 0, 0⟩
  diagnostics : List Diagnostic := []

/-- Reads an entry with a program of a depth of at most `fuel`. -/
def readFound (fuel : Nat) : Reader Found :=
  readRecord ["Schema", "Module", "Program", "UsesFix", "Stats", "Warnings"] {} fun e name m =>
    match name with
    | "Schema" => do return { e with layout := UInt16.ofInt (← readInt m) }
    | "Module" => do return { e with unit := ← readText m }
    | "Program" => do
      let p ← readOption (readProgramIn fuel) none m
      return { e with program := p.map ProgramRecord.toProgram }
    | "UsesFix" => do return { e with usesFix := ← readBool m }
    | "Stats" => do return { e with stats := ← readStats e.stats m }
    | "Warnings" => do return { e with diagnostics := ← readList readDiagnostic e.diagnostics m }
    | _ => pure e

/-- The entry, if its layout is the one in use and it has a program. -/
def Found.entry? (f : Found) : Option Entry :=
  if f.layout.toNat = schema then
    f.program.map fun p => ⟨f.unit, p, f.usesFix, f.stats, f.diagnostics⟩
  else none

def decode (bytes : Bytes) : Read (Option Entry) :=
  Found.entry? <$> readFound (bytes.length + 1) none (Msg.decode bytes)

end Entry

end CoreLowering.Compile
