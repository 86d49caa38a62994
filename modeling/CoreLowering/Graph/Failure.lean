import CoreLowering.Diagnostic.Bag
import CoreLowering.Graph.Value

/-!
# Why lowering fails

Lowering stops at the first thing it cannot do.  Each cause is a case of its
own, with a code and a wording; a failure adds the span and the types and
layouts that are involved.
-/

namespace CoreLowering.Graph

/-- What could not be done. -/
inductive Cause where
  | invalidValue (id : ValueId)
  | definedTwice (name : String)
  | noBinders (shape : Shape)
  | noEmulation (shape : Shape)
  /-- A change of layout that leads back to itself. -/
  | endlessConversion
  /-- A definition that leads back to itself. -/
  | endlessTerm
  | unsupportedBuiltin (f : Builtin) (target : Version)
  | noConversion (source goal : Rep) (type : Ty)
  | functionField (type : Ty)
  | emptyUpcast (source goal : Ty)
  | unboundVariable (name : String)
  | unboundAtTop (name : String)
  | unboundInTerm (name : String)
  | armsDiffer (kind : String) (a b : Ty)
  | armsMisfit (kind : String) (arms result : Ty)
  | missingExpression
  | untyped (kind : String)
  | constantWithoutValue
  | operands (kind : String) (want got : Nat)
  | unknownKind (kind : String)
  | recursiveCount (n : Nat)
  | recursiveValue (name : String)
  | cannotApply (type : Ty)
  | selectUnknown (field : String) (type : Ty)
  | selectSum (field : String) (type : Ty)
  | unknownConstructor (name : String)
  | noField (constr field : String)
  | unknownDeclaration (name : String)
  | noConstructor (decl name : String)
  | argumentCount (constr : String) (want got : Nat)
  | noArms
  | cannotMatch (type : Ty)
  | unknownArm (constr : String)
  | binderCount (constr : String) (binders fields : Nat)
  /-- A place was asked for that a list of `size` items does not have.  This
  is no finding about the unit: lowering breaks off. -/
  | outOfRange (place : Int) (size : Nat)

namespace Cause

/-- Whether lowering breaks off instead of failing. -/
def breaksOff : Cause → Bool
  | outOfRange _ _ => true
  | _ => false

def code : Cause → Code
  | invalidValue _ | definedTwice _ | noBinders _ | noEmulation _ => .internal
  | endlessConversion | endlessTerm | outOfRange _ _ => .internal
  | unsupportedBuiltin _ _ => .unsupportedBuiltin
  | noConversion _ _ _ | functionField _ => .noConversion
  | emptyUpcast _ _ => .emptyUpcast
  | unboundVariable _ | unboundAtTop _ | unboundInTerm _ => .unboundVar
  | armsDiffer _ _ _ | armsMisfit _ _ _ => .armsNotUnifiable
  | _ => .badUnit

def message : Cause → String
  | invalidValue id => "internal: invalid value id " ++ toString id
  | definedTwice x => "internal: variable " ++ x ++ " defined twice"
  | noBinders s => "internal: " ++ s.name ++ " case has no binders"
  | noEmulation s => "internal: no emulation for " ++ s.name ++ " case"
  | endlessConversion => "internal: conversion does not end"
  | endlessTerm => "internal: definition does not end"
  | unsupportedBuiltin f v =>
    "builtin " ++ f.name ++ " is not available in " ++ v.name ++ " (needs " ++
      f.since.name ++ ")"
  | noConversion a b t =>
    "no conversion from " ++ a.text ++ " to " ++ b.text ++ " for " ++ t.text
  | functionField t => "function-typed field " ++ t.text ++ " cannot be stored in Data"
  | emptyUpcast a b => "cannot upcast " ++ a.text ++ " to " ++ b.text
  | unboundVariable x => "unbound variable " ++ x
  | unboundAtTop x => "variable " ++ x ++ " is not bound at the top level"
  | unboundInTerm x =>
    "variable " ++ x ++ " has neither a binding in scope nor a definition"
  | armsDiffer k a b =>
    k ++ " arms have incompatible types " ++ a.text ++ " and " ++ b.text
  | armsMisfit k a r =>
    k ++ " arms of type " ++ a.text ++ " do not fit the result type " ++ r.text
  | missingExpression => "missing expression"
  | untyped k => k ++ " expression without a type"
  | constantWithoutValue => "constant without a value"
  | operands k want got =>
    k ++ " needs " ++ toString want ++ " operands, has " ++ toString got
  | unknownKind k => "unknown expression kind " ++ k
  | recursiveCount n =>
    "recursive let must bind exactly one function, binds " ++ toString n
  | recursiveValue x => "recursive binding " ++ x ++ " is not a function"
  | cannotApply t => "cannot apply a value of type " ++ t.text
  | selectUnknown f t => "select " ++ f ++ " on " ++ t.text ++ ": unknown declaration"
  | selectSum f t => "select " ++ f ++ " on sum " ++ t.text
  | unknownConstructor c => "unknown constructor " ++ c
  | noField c f => c ++ " has no field " ++ f
  | unknownDeclaration d => "unknown declaration " ++ d
  | noConstructor d c => d ++ " has no constructor " ++ c
  | argumentCount c want got =>
    c ++ " takes " ++ toString want ++ " arguments, got " ++ toString got
  | noArms => "match without arms"
  | cannotMatch t => "cannot match on a value of type " ++ t.text
  | unknownArm c => "unknown constructor " ++ c ++ " in match"
  | binderCount c n k =>
    "arm " ++ c ++ " binds " ++ toString n ++ " values, the constructor has " ++ toString k
  | outOfRange i n =>
    "runtime error: index out of range [" ++ toString i ++ "]" ++
      (if i < 0 then "" else " with length " ++ toString n)

end Cause

structure Failure where
  cause : Cause
  span : Span
  types : List Ty
  reps : List Rep

namespace Failure

def code (f : Failure) : Code := f.cause.code

/-- The wording of a failure, with its code, types and layouts. -/
def message (f : Failure) : String :=
  f.code.id ++ ": " ++ f.cause.message ++
    (if f.types.isEmpty then ""
      else " [types: " ++ ", ".intercalate (f.types.map Ty.text) ++ "]") ++
    (if f.reps.isEmpty then ""
      else " [reprs: " ++ ", ".intercalate (f.reps.map Rep.text) ++ "]")

def diagnostic (f : Failure) : Diagnostic :=
  { Diagnostic.error f.code f.span f.cause.message with
    notes := f.types.map (fun t => ⟨f.span, "type: " ++ t.text⟩) ++
      f.reps.map (fun r => ⟨f.span, "representation: " ++ r.text⟩) }

end Failure

end CoreLowering.Graph
