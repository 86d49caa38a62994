import CoreLowering.Core.Constant

/-!
# Types of the typed language

A type is a constructor applied to arguments, a variable, or a type that is
general in some variables.  Constructors cover the builtin scalars and
containers, declared sums and their cases, functions, the type of what never
returns and the type of which nothing is known.  A type can also be missing,
where a unit leaves it out.

A constructor does not fix the number of its arguments: arguments that are
left out constrain nothing.
-/

namespace CoreLowering

/-- What stands at the head of a type. -/
inductive TyCon where
  | integer
  | byteString
  | string
  | boolean
  | unit
  | data
  | builtinList
  | builtinPair
  | builtinArray
  | sum (decl : String)
  | caseClass (decl constr : String)
  | fn
  /-- The type of what never gives a value. -/
  | nothing
  | free
  /-- A kind number that names no type. -/
  | unknown (kind : UInt8)
  deriving DecidableEq

/-- A type variable.  A builtin one comes from the signature of a builtin
and leaves the shape of values alone; any other one asks for packed data. -/
structure TyVar where
  name : String
  id : UInt32
  builtin : Bool
  deriving DecidableEq

inductive Ty where
  | con (c : TyCon) (args : List Ty)
  | var (v : TyVar)
  | all (params : List TyVar) (body : Ty)
  | missing

namespace TyCon

def kindName : TyCon → String
  | integer => "Integer"
  | byteString => "ByteString"
  | string => "String"
  | boolean => "Boolean"
  | unit => "Unit"
  | data => "Data"
  | builtinList => "BuiltinList"
  | builtinPair => "BuiltinPair"
  | builtinArray => "BuiltinArray"
  | sum _ => "Sum"
  | caseClass _ _ => "CaseClass"
  | fn => "Fun"
  | nothing => "Nothing"
  | free => "Free"
  | unknown _ => "Invalid"

/-- What a constructor is called in the text of a type. -/
def head : TyCon → String
  | sum d => d
  | caseClass _ c => c
  | c => c.kindName

/-- Whether the text of a type shows the arguments of the constructor. -/
def showsArgs : TyCon → Bool
  | builtinList | builtinPair | builtinArray | sum _ | caseClass _ _ => true
  | _ => false

/-- Whether the values are builtin scalars. -/
def isPrimitive : TyCon → Bool
  | integer | byteString | string | boolean | unit => true
  | _ => false

/-- Whether the values are constants of the target language. -/
def isBuiltinFamily : TyCon → Bool
  | data | builtinList | builtinPair | builtinArray => true
  | c => c.isPrimitive

end TyCon

namespace Ty

def integer : Ty := .con .integer []

def byteString : Ty := .con .byteString []

def string : Ty := .con .string []

def boolean : Ty := .con .boolean []

def unit : Ty := .con .unit []

def data : Ty := .con .data []

/-- The type of what never gives a value. -/
def nothing : Ty := .con .nothing []

def free : Ty := .con .free []

def builtinList (elem : Ty) : Ty := .con .builtinList [elem]

def builtinPair (a b : Ty) : Ty := .con .builtinPair [a, b]

def builtinArray (elem : Ty) : Ty := .con .builtinArray [elem]

def arrow (input output : Ty) : Ty := .con .fn [input, output]

/-- The type of functions of several arguments, taken one after the other. -/
def function (inputs : List Ty) (output : Ty) : Ty :=
  inputs.foldr arrow output

def sum (decl : String) (args : List Ty) : Ty := .con (.sum decl) args

def caseClass (decl constr : String) (args : List Ty) : Ty :=
  .con (.caseClass decl constr) args

/-- The type that is general in `params`; without any it is the body. -/
def forAll (params : List TyVar) (body : Ty) : Ty :=
  match params with
  | [] => body
  | _ => .all params body

mutual

def same : Ty → Ty → Bool
  | con c xs, con d ys => c = d && sameAll xs ys
  | var v, var w => v = w
  | all ps b, all qs c => ps = qs && b.same c
  | missing, missing => true
  | _, _ => false

/-- Whether two lists of types are the same, place by place. -/
def sameAll : List Ty → List Ty → Bool
  | [], [] => true
  | x :: xs, y :: ys => x.same y && sameAll xs ys
  | _, _ => false

end

instance : BEq Ty := ⟨same⟩

mutual

def size : Ty → Nat
  | con _ args => sizeAll args + 1
  | all _ body => body.size + 1
  | _ => 1

def sizeAll : List Ty → Nat
  | [] => 0
  | t :: ts => t.size + sizeAll ts

end

/-- The type under all generality. -/
def unwrap : Ty → Ty
  | all _ body => body.unwrap
  | t => t

def input (t : Ty) : Ty :=
  match t.unwrap with
  | con .fn (a :: _) => a
  | _ => free

def output (t : Ty) : Ty :=
  match t.unwrap with
  | con .fn (_ :: b :: _) => b
  | _ => free

/-- The first argument of a type, which for a container is the type of its
items. -/
def elem : Ty → Ty
  | con _ (t :: _) => t
  | all _ body => body
  | _ => free

def args : Ty → List Ty
  | con _ ts => ts
  | all _ body => [body]
  | _ => []

/-- Whether the values are builtin scalars. -/
def isPrimitive : Ty → Bool
  | con c _ => c.isPrimitive
  | _ => false

/-- Whether the values are constants of the target language. -/
def isBuiltinFamily : Ty → Bool
  | con c _ => c.isBuiltinFamily
  | _ => false

def listName : String := "List"

/-- Whether the type is the declared list type or one of its cases. -/
def isList : Ty → Bool
  | con (.sum d) _ => d = listName
  | con (.caseClass d _) _ => d = listName
  | _ => false

/-- Whether the type is that of what never gives a value. -/
def isNothing : Ty → Bool
  | con .nothing _ => true
  | _ => false

mutual

/-- Whether a variable occurs in the type. -/
def hasVars : Ty → Bool
  | var _ => true
  | con _ args => hasVarsAny args
  | all _ body => body.hasVars
  | missing => false

/-- Whether a variable occurs in one of the types. -/
def hasVarsAny : List Ty → Bool
  | [] => false
  | t :: ts => t.hasVars || hasVarsAny ts

end

/-- Whether the type is written in parentheses to the left of an arrow. -/
def needsParens : Ty → Bool
  | con .fn _ => true
  | all _ _ => true
  | _ => false

mutual

def text : Ty → String
  | con .fn [a, b] =>
    (if a.needsParens then "(" ++ a.text ++ ")" else a.text) ++ " -> " ++ b.text
  | con c [] => c.head
  | con c (t :: ts) =>
    if c.showsArgs then c.head ++ "[" ++ t.text ++ textsAfter ts ++ "]" else c.head
  | var v => v.name
  | all ps body => "[" ++ ", ".intercalate (ps.map TyVar.name) ++ "] =>> " ++ body.text
  | missing => "<nil>"

def textsAfter : List Ty → String
  | [] => ""
  | t :: ts => ", " ++ t.text ++ textsAfter ts

end

def ofConst : ConstType → Ty
  | .integer => integer
  | .byteString => byteString
  | .string => string
  | .unit => unit
  | .bool => boolean
  | .data => data
  | .list e => builtinList (ofConst e)
  | .array e => builtinArray (ofConst e)
  | .pair a b => builtinPair (ofConst a) (ofConst b)
  | .unknown _ => free

/-- The constant type whose constants are the values of a type, if its
values are constants. -/
def constType? : Ty → Option ConstType
  | con .integer _ => some .integer
  | con .byteString _ => some .byteString
  | con .string _ => some .string
  | con .unit _ => some .unit
  | con .boolean _ => some .bool
  | con .data _ => some .data
  | con .builtinList (e :: _) => e.constType?.map .list
  | con .builtinArray (e :: _) => e.constType?.map .array
  | con .builtinPair (a :: b :: _) =>
    match a.constType?, b.constType? with
    | some x, some y => some (.pair x y)
    | _, _ => none
  | all _ body => body.constType?
  | _ => none

end Ty

end CoreLowering
