import CoreLowering.Core.Term
import CoreLowering.Interchange.Meaning
import CoreLowering.Interchange.Read

/-!
# Programs in the interchange format

A program is written as its version and its term.  Terms are records like the
parts of a unit: every term has all fields and its kind says which of them it
uses.
-/

namespace CoreLowering.Interchange

/-- A term as it is sent: the kind tells which fields it uses. -/
structure TermRecord where
  kind : UInt8 := 0
  name : Bytes := []
  body : Option TermRecord := none
  fn : Option TermRecord := none
  arg : Option TermRecord := none
  const : Option ConstRecord := none
  builtin : UInt8 := 0
  tag : UInt64 := 0
  args : List (Option TermRecord) := []
  scrutinee : Option TermRecord := none

/-- A program as it is sent. -/
structure ProgramRecord where
  version : UInt8 := 0
  term : Option TermRecord := none

mutual

/-- The message of a term. -/
def TermRecord.toMsg : TermRecord → Msg
  | ⟨kind, name, body, fn, arg, const, builtin, tag, args, scrutinee⟩ =>
    .fields
      ([("k", .byte kind)]
        ++ Msg.optional (!name.isEmpty) "n" (.str name)
        ++ Msg.optional body.isSome "b" (termMsg body)
        ++ Msg.optional fn.isSome "f" (termMsg fn)
        ++ Msg.optional arg.isSome "a" (termMsg arg)
        ++ Msg.optional const.isSome "c" (orNil ConstRecord.toMsg const)
        ++ Msg.optional (builtin != 0) "u" (.byte builtin)
        ++ Msg.optional (tag != 0) "t" (.long tag)
        ++ Msg.optional (!args.isEmpty) "x" (.arr (termMsgs args))
        ++ Msg.optional scrutinee.isSome "s" (termMsg scrutinee))

def termMsg : Option TermRecord → Msg
  | none => .nil
  | some t => t.toMsg

def termMsgs : List (Option TermRecord) → List Msg
  | [] => []
  | t :: ts => termMsg t :: termMsgs ts

end

/-- The message of a program. -/
def ProgramRecord.toMsg (p : ProgramRecord) : Msg :=
  .fields [("v", .byte p.version), ("t", termMsg p.term)]

/-- Reads a term of a depth of at most `fuel`. -/
def readTermIn : (fuel : Nat) → Reader TermRecord
  | 0 => fun _ _ => throw .malformed
  | fuel + 1 =>
    readRecord ["k", "n", "b", "f", "a", "c", "u", "t", "x", "s"] {} fun t name m =>
      match name with
      | "k" => do return { t with kind := ← readByte m }
      | "n" => do return { t with name := ← readBytes m }
      | "b" => do return { t with body := ← readOption (readTermIn fuel) t.body m }
      | "f" => do return { t with fn := ← readOption (readTermIn fuel) t.fn m }
      | "a" => do return { t with arg := ← readOption (readTermIn fuel) t.arg m }
      | "c" => do return { t with const := ← readOption (anew (readConstIn fuel)) t.const m }
      | "u" => do return { t with builtin := ← readByte m }
      | "t" => do return { t with tag := ← readLong m }
      | "x" => do return { t with args := ← readOptions (readTermIn fuel) t.args m }
      | "s" => do return { t with scrutinee := ← readOption (readTermIn fuel) t.scrutinee m }
      | _ => pure t

/-- Reads a program with a term of a depth of at most `fuel`. -/
def readProgramIn (fuel : Nat) : Reader ProgramRecord :=
  readRecord ["v", "t"] {} fun p name m =>
    match name with
    | "v" => do return { p with version := ← readByte m }
    | "t" => do return { p with term := ← readOption (readTermIn fuel) p.term m }
    | _ => pure p

mutual

/-- The term that a record means. -/
def TermRecord.toTerm : TermRecord → Term
  | ⟨kind, name, body, fn, arg, const, builtin, tag, args, scrutinee⟩ =>
    match kind with
    | 0 => .var (textOf name)
    | 1 => .lam (textOf name) (toTerm? body)
    | 2 => .apply (toTerm? fn) (toTerm? arg)
    | 3 => .force (toTerm? body)
    | 4 => .delay (toTerm? body)
    | 5 =>
      match const with
      | some c => .con c.toConstant
      | none => .missing
    | 6 => .builtin (.ofCode builtin)
    | 7 => .error
    | 8 => .constr tag (toTerms args)
    | 9 => .case (toTerm? scrutinee) (toTerms args)
    | k => .unknown k

/-- A term that is left out is missing. -/
def toTerm? : Option TermRecord → Term
  | none => .missing
  | some t => t.toTerm

def toTerms : List (Option TermRecord) → List Term
  | [] => []
  | t :: ts => toTerm? t :: toTerms ts

end

mutual

/-- The record of a term, unless it is missing. -/
def ofTerm : Term → Option TermRecord
  | .var x => some { kind := 0, name := Bytes.ofString x }
  | .lam x b => some { kind := 1, name := Bytes.ofString x, body := ofTerm b }
  | .apply f a => some { kind := 2, fn := ofTerm f, arg := ofTerm a }
  | .force b => some { kind := 3, body := ofTerm b }
  | .delay b => some { kind := 4, body := ofTerm b }
  | .con c => some { kind := 5, const := some (.ofConstant c) }
  | .builtin f => some { kind := 6, builtin := f.code }
  | .error => some { kind := 7 }
  | .constr tag fs => some { kind := 8, tag, args := ofTerms fs }
  | .case s bs => some { kind := 9, scrutinee := ofTerm s, args := ofTerms bs }
  | .unknown kind => some { kind }
  | .missing => none

def ofTerms : List Term → List (Option TermRecord)
  | [] => []
  | t :: ts => ofTerm t :: ofTerms ts

end

/-- The program that a record means. -/
def ProgramRecord.toProgram (p : ProgramRecord) : Program :=
  ⟨.ofRank p.version.toNat, toTerm? p.term⟩

/-- The record of a program. -/
def ProgramRecord.ofProgram (p : Program) : ProgramRecord :=
  ⟨UInt8.ofNat p.version.rank, ofTerm p.term⟩

def encodeProgram (p : Program) : Bytes :=
  (ProgramRecord.ofProgram p).toMsg.encode

def decodeProgram (bytes : Bytes) : Read Program :=
  ProgramRecord.toProgram <$> readProgramIn (bytes.length + 1) none (Msg.decode bytes)

end CoreLowering.Interchange
