/-!
# Severities and codes of findings

A finding has a severity, worse ones higher, and a code: a number whose
thousands say which part of the program found it.
-/

namespace CoreLowering

/-- How bad a finding is. -/
inductive Severity where
  | info
  | warning
  | error
  /-- A number above the named severities. -/
  | other (rank : UInt8)
  deriving DecidableEq

namespace Severity

def ofRank (n : UInt8) : Severity :=
  if n = 0 then info else if n = 1 then warning else if n = 2 then error else other n

def rank : Severity → Nat
  | info => 0
  | warning => 1
  | error => 2
  | other n => n.toNat

def name : Severity → String
  | info => "INFO"
  | warning => "WARNING"
  | error => "ERROR"
  | other _ => "UNKNOWN"

def label : Severity → String
  | info => "info"
  | warning => "warning"
  | error => "error"
  | other _ => "unknown"

/-- Whether a finding of this severity fails its unit. -/
def fails (s : Severity) : Bool := 2 ≤ s.rank

end Severity

/-- What kind of finding it is. -/
structure Code where
  number : UInt16
  deriving DecidableEq

namespace Code

/-- A unit that cannot be read. -/
def decodeFailed : Code := ⟨1001⟩

/-- A unit that lacks parts. -/
def malformed : Code := ⟨1002⟩

def unknownDecl : Code := ⟨1003⟩

/-- A failure of the lowering itself. -/
def internal : Code := ⟨2001⟩

/-- Two representations without a way from one to the other. -/
def noConversion : Code := ⟨2002⟩

/-- Two types without a way up from one to the other. -/
def emptyUpcast : Code := ⟨2003⟩

def unboundVar : Code := ⟨2004⟩

/-- Arms of types that have nothing in common. -/
def armsNotUnifiable : Code := ⟨2005⟩

/-- A builtin that the target does not offer. -/
def unsupportedBuiltin : Code := ⟨2006⟩

def badUnit : Code := ⟨2007⟩

/-- A conversion through packed data where a direct one was wished for. -/
def genericCast : Code := ⟨2100⟩

def typeVarErasure : Code := ⟨2101⟩

def droppedBinding : Code := ⟨2102⟩

def unreachableArm : Code := ⟨2103⟩

/-- A failure to read or write a file. -/
def ioError : Code := ⟨3001⟩

/-- A stored result that cannot be read. -/
def cacheCorrupt : Code := ⟨3002⟩

def letters? (c : Code) : Option String :=
  match c.number.toNat / 1000 with
  | 1 => some "SIR"
  | 2 => some "LOW"
  | 3 => some "DRV"
  | _ => none

def id (c : Code) : String :=
  match c.letters? with
  | some letters => letters ++ toString c.number.toNat
  | none => "E0000"

/-- What a code says, for the codes that are in use. -/
def title (c : Code) : String :=
  match c.number.toNat with
  | 1000 => "IR information"
  | 1001 => "Cannot decode SIR unit"
  | 1002 => "Malformed SIR"
  | 1003 => "Unknown data declaration"
  | 2000 => "Lowering information"
  | 2001 => "Internal lowering error"
  | 2002 => "No conversion between representations"
  | 2003 => "Empty upcast chain"
  | 2004 => "Variable has no definition and no binding"
  | 2005 => "Case arms have unrelated types"
  | 2006 => "Builtin not available for target"
  | 2007 => "Ill-typed SIR reached lowering"
  | 2100 => "Generic cast used instead of a specific conversion"
  | 2101 => "Type variable representation erased"
  | 2102 => "Unused binding dropped"
  | 2103 => "Case arm is unreachable"
  | 3000 => "Driver information"
  | 3001 => "I/O error"
  | 3002 => "Cache entry is corrupt"
  | 3003 => "Invalid sirc.toml"
  | _ => "Unknown error"

def text (c : Code) : String :=
  "[" ++ c.id ++ "]: " ++ c.title

end Code

end CoreLowering
