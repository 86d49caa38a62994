import CoreLowering.Core.Machine.Value

/-!
# Why evaluation stops

Each cause of a failed evaluation is a case of its own; `Failure.message`
gives it its wording.
-/

namespace CoreLowering.Machine

/-- The shape of a constant that a builtin asks for. -/
inductive Wanted where
  | integer
  | byteString
  | string
  | unit
  | bool
  | data
  | list
  | pair
  | array
  deriving DecidableEq

/-- How a failure names the wanted shape.  A container is asked for without
the type of its items, and such a type has no text of its own: the place
where it would stand says so. -/
def Wanted.text : Wanted → String
  | integer => "integer"
  | byteString => "bytestring"
  | string => "string"
  | unit => "unit"
  | bool => "bool"
  | data => "data"
  | list | pair | array =>
    "%!s(PANIC=String method: runtime error: invalid memory address or nil pointer dereference)"

/-- Why a builtin refused its arguments. -/
inductive Refusal where
  | shape (wanted : Wanted) (got : Value)
  | noData
  | notDataList
  | notDataPairs
  | integerRange (n : Int)
  | byteRange (n : Int)
  | indexRange (n : Int)
  | tagRange (n : Int)
  | notUtf8
  | notConstant
  | elementType (elem list : ConstType)
  | emptyList
  | divisionByZero
  /-- A data value of another shape than `what` says. -/
  | not (what : String) (d : Data)
  /-- A constant that lacks a part its type promises. -/
  | malformed

def Refusal.message : Refusal → String
  | shape w v => "expected " ++ w.text ++ " argument, got " ++ v.text
  | noData => "nil data"
  | notDataList => "expected list of data"
  | notDataPairs => "expected list of data pairs"
  | integerRange n => "integer " ++ toString n ++ " out of range"
  | byteRange n => "byte " ++ toString n ++ " out of range"
  | indexRange n => "index " ++ toString n ++ " out of range"
  | tagRange n => "tag " ++ toString n ++ " out of range"
  | notUtf8 => "invalid utf-8"
  | notConstant => "expected constant element"
  | elementType e l => "element type " ++ e.text ++ " does not match " ++ l.text
  | emptyList => "empty list"
  | divisionByZero => "division by zero"
  | not what d => "not " ++ what ++ ": " ++ d.text
  | malformed => "malformed constant"

/-- Why an evaluation failed. -/
inductive Failure where
  | freeVariable (name : String)
  | noBuiltin (f : Builtin) (v : Version)
  | errorTerm
  | noConstr (v : Version)
  | noCase (v : Version)
  | unknownTerm (kind : UInt8)
  | missingTerm
  | notForced (f : Builtin)
  | forcedTooOften (f : Builtin)
  | cannotApply (v : Value)
  | cannotForce (v : Value)
  | noBranch (index : Nat) (count : Nat)
  | caseInteger (n : Int)
  | caseValue (s : Value) (v : Version)
  | caseConstant (c : Constant)
  | refused (f : Builtin) (why : Refusal)
  | notConstant (v : Value)

def Failure.message : Failure → String
  | freeVariable x => "free variable " ++ x
  | noBuiltin f v => "builtin " ++ f.name ++ " is not available in " ++ v.name
  | errorTerm => "error term evaluated"
  | noConstr v => "constr is not available in " ++ v.name
  | noCase v => "case is not available in " ++ v.name
  | unknownTerm k => "unknown term kind " ++ Term.unknownKindText k
  | missingTerm => "missing term"
  | notForced f => "builtin " ++ f.name ++ " applied before being forced"
  | forcedTooOften f => "builtin " ++ f.name ++ " forced too often"
  | cannotApply v => "cannot apply " ++ v.text
  | cannotForce v => "cannot force " ++ v.text
  | noBranch i n =>
    "case: no branch " ++ toString i ++ " (have " ++ toString n ++ ")"
  | caseInteger n => "case: integer " ++ toString n ++ " out of range"
  | caseValue s v => "case: cannot scrutinise " ++ s.text ++ " in " ++ v.name
  | caseConstant c => "case: cannot scrutinise " ++ c.text
  | refused f why => f.name ++ ": " ++ why.message
  | notConstant v => "result is not a constant: " ++ v.text

/-- Why a run gave no value. -/
inductive Stop where
  | budget
  | failure (why : Failure)

def Stop.message : Stop → String
  | budget => "uplc: step budget exhausted"
  | failure why => "uplc: evaluation failure: " ++ why.message

end CoreLowering.Machine
