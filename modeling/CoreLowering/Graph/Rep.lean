import CoreLowering.Typed.Decl

/-!
# Representations

A value of a typed expression is laid out at run time in one of several
ways: as a constant, packed into data, as a list or a pair of packed fields,
as a closure.  `Decls.standardRep` is the layout that values of a type have
unless something better is known, `Decls.packedRep` the one they have inside
data.  `Decls.compatible` says when a layout can be used as another one
without any work.
-/

namespace CoreLowering

/-- How a value is laid out at run time. -/
inductive Rep where
  | invalid
  /-- A constant of the value's own type. -/
  | constant
  /-- Packed into data, whatever the type. -/
  | packed
  /-- A sum as a constructor with packed fields. -/
  | sumConstr
  | sumList
  | packedList
  | sumPairList
  | assocMap
  /-- A product as a constructor with packed fields. -/
  | prodConstr
  /-- A product as the builtin list of its packed fields. -/
  | prodList
  /-- A product of two fields as a builtin pair of data. -/
  | prodPair
  /-- A product as the builtin array of its packed fields. -/
  | prodArray
  /-- A closure with the layouts of its argument and its result. -/
  | closure (input output : Rep)
  /-- A closure whose argument does not matter, held back. -/
  | delayed (output : Rep)
  /-- The layout of a value whose type is a variable. -/
  | typeVar (builtin : Bool)
  /-- The layout of what never gives a value. -/
  | error
  deriving DecidableEq

namespace Rep

def text : Rep → String
  | invalid => "Invalid"
  | constant => "Constant"
  | packed => "PackedData"
  | sumConstr => "SumDataConstr"
  | sumList => "SumDataList"
  | packedList => "PackedSumDataList"
  | sumPairList => "SumDataPairList"
  | assocMap => "SumDataAssocMap"
  | prodConstr => "ProdDataConstr"
  | prodList => "ProdDataList"
  | prodPair => "ProdPair"
  | prodArray => "ProdDataArray"
  | closure i o => "Lambda(" ++ i.text ++ " -> " ++ o.text ++ ")"
  | delayed o => "Delayed(" ++ o.text ++ ")"
  | typeVar true => "TypeVar(builtin)"
  | typeVar false => "TypeVar(user)"
  | error => "Error"

/-- The text under which what is made for a layout is remembered. -/
def key : Rep → String
  | invalid => "0"
  | constant => "1"
  | packed => "2"
  | sumConstr => "3"
  | sumList => "4"
  | packedList => "5"
  | sumPairList => "6"
  | assocMap => "7"
  | prodConstr => "8"
  | prodList => "9"
  | prodPair => "10"
  | prodArray => "11"
  | closure i o => "12(" ++ i.key ++ ")\x7b" ++ o.key ++ "\x7d"
  | delayed o => "12d\x7b" ++ o.key ++ "\x7d"
  | typeVar false => "13"
  | typeVar true => "13b"
  | error => "14"

def size : Rep → Nat
  | closure i o => i.size + o.size + 1
  | delayed o => o.size + 1
  | _ => 1

/-- Whether the value is laid out as one piece of data. -/
def isPacked : Rep → Bool
  | packed | sumConstr | prodConstr | packedList | assocMap => true
  | _ => false

def isClosure : Rep → Bool
  | closure _ _ => true
  | delayed _ => true
  | _ => false

/-- Whether the layout is that of a type variable. -/
def isTypeVar : Rep → Bool
  | typeVar _ => true
  | _ => false

/-- What the name of a variable gets when the variable is seen in another
layout. -/
def suffix : Rep → String
  | constant => "c"
  | packed => "d"
  | closure _ _ => "fn"
  | delayed _ => "fn"
  | sumList => "l"
  | prodList => "l"
  | sumPairList => "p"
  | prodPair => "p"
  | _ => "r"

end Rep

/-- What kinds of types there are as far as layouts go. -/
inductive Family where
  | primitive
  | data
  /-- Builtin lists, pairs and arrays. -/
  | builtin
  | list
  | sum
  | product
  | function
  | typeVar
  | nothing
  | other
  deriving DecidableEq

namespace Ty

/-- The name under which the declaration of a type is looked up. -/
def declName : Ty → String
  | con (.sum d) _ => d
  | con (.caseClass d _) _ => d
  | var v => v.name
  | _ => ""

/-- The constructor that a case names, and nothing for any other type. -/
def constrName : Ty → String
  | con (.caseClass _ c) _ => c
  | _ => ""

def isData : Ty → Bool
  | con .data _ => true
  | _ => false

/-- Whether a list of this type is laid out as a list of pairs of data:
pairs and builtin pairs of data are. -/
def isPairElem (elem : Ty) : Bool :=
  match elem.unwrap with
  | con (.caseClass d _) _ => d = "Tuple2"
  | con (.sum d) _ => d = "Tuple2"
  | con .builtinPair (a :: b :: _) => a.isData && b.isData
  | _ => false

def isBuiltinPair (t : Ty) : Bool :=
  match t.unwrap with
  | con .builtinPair _ => true
  | _ => false

def isVar (t : Ty) : Bool :=
  match t.unwrap with
  | var _ => true
  | _ => false

end Ty

namespace Decls

def family (ds : Decls) (t : Ty) : Family :=
  match t.unwrap with
  | .missing => .other
  | .all _ _ => .other
  | .var _ => .typeVar
  | .con c args =>
    match c with
    | .integer | .byteString | .string | .boolean | .unit => .primitive
    | .data => .data
    | .builtinList | .builtinPair | .builtinArray => .builtin
    | .caseClass d _ => if d = Ty.listName then .list else .product
    | .sum d =>
      if d = Ty.listName then .list
      else if ds.isProduct (.con c args) then .product else .sum
    | .fn => .function
    | .free => .typeVar
    | .nothing => .nothing
    | .unknown _ => .other

/-- The layout that values of a type have unless something better is
known. -/
def standardRep (ds : Decls) : Ty → Rep
  | .all _ body => ds.standardRep body
  | .con .fn [a, b] => .closure (ds.standardRep a) (ds.standardRep b)
  | t =>
    match ds.family t with
    | .primitive | .data | .builtin => .constant
    | .list => if t.elem.isPairElem then .sumPairList else .sumList
    | .sum => .sumConstr
    | .product => .prodConstr
    | .typeVar =>
      match t with
      | .var v => .typeVar v.builtin
      | _ => .typeVar false
    | .nothing => .error
    | .function | .other => .packed

/-- The layout that values of a type have inside data. -/
def packedRep (ds : Decls) (t : Ty) : Rep :=
  match ds.family t with
  | .list => if t.unwrap.elem.isPairElem then .assocMap else .packedList
  | .sum => .sumConstr
  | .product => .prodConstr
  | .function => ds.standardRep t
  | .nothing => .error
  | _ => .packed

/-- The layout of the items of a list in layout `r`. -/
def elemRep (ds : Decls) (r : Rep) (elem : Ty) : Rep :=
  if r = .sumPairList then (if elem.isBuiltinPair then .constant else .prodPair)
  else ds.packedRep elem

/-- The layout that packed values of a type have in truth. -/
def normalRep (ds : Decls) (t : Ty) (r : Rep) : Rep :=
  if r = .packed then
    match ds.family t with
    | .list | .sum | .product => ds.packedRep t
    | _ => r
  else r

/-- Whether a layout is one of those that look the same at run time for the
types of a family. -/
def isShared (f : Family) (r : Rep) : Bool :=
  match f, r with
  | .data, .constant | .data, .packed => true
  | .sum, .sumConstr | .sum, .prodConstr | .sum, .packed => true
  | .product, .sumConstr | .product, .prodConstr | .product, .packed => true
  | _, _ => false

/-- The layout that a type variable's value has for a known type. -/
def knownRep (ds : Decls) (t : Ty) (r : Rep) : Rep :=
  if r.isTypeVar then ds.packedRep t else r

/-- Whether two layouts, none of which is a pair of closures, look the same
at run time for values of a type. -/
def looksSame (ds : Decls) (t : Ty) (a b : Rep) : Bool :=
  let a := ds.normalRep t (ds.knownRep t a)
  let b := ds.normalRep t (ds.knownRep t b)
  a = b || isShared (ds.family t) a && isShared (ds.family t) b

/-- Whether two layouts can stand for each other whatever they are. -/
def alwaysCompatible (ds : Decls) (t : Ty) (a b : Rep) : Bool :=
  a = b || a = .error || b = .error || ds.family t = .typeVar || ds.family t = .nothing ||
    a = .typeVar true || b = .typeVar true

/-- Whether a value of type `t` in layout `a` can be used as one in layout
`b` without any work. -/
def compatible (ds : Decls) (t : Ty) (a b : Rep) : Bool :=
  ds.alwaysCompatible t a b ||
    match a, b with
    | .closure i o, .closure j p =>
      ds.compatible t.input i j && ds.compatible t.output o p
    | .delayed o, .delayed p => ds.compatible t.output o p
    | .closure _ _, .delayed _ => false
    | .delayed _, .closure _ _ => false
    | a, b => ds.looksSame t a b

end Decls

end CoreLowering
