import CoreLowering.Core.Data
import CoreLowering.Text.Quoted

/-!
# Constants and their types

A constant of the target language is a scalar, a structured value, or a
list, a pair or an array of constants.  Containers carry the types of their
items, so that an empty list still has a type.  The interchange format can
carry more than makes sense: a data constant without its value, a pair with
a number of items other than two, a kind number that names no type.  These
are kept and shown; `Constant.WellFormed` singles out the constants that
programs are made of.
-/

namespace CoreLowering

inductive ConstType where
  | integer
  | byteString
  | string
  | unit
  | bool
  | data
  | list (elem : ConstType)
  | pair (fst snd : ConstType)
  | array (elem : ConstType)
  | unknown (kind : UInt8)
  deriving DecidableEq

namespace ConstType

def dataPair : ConstType := .pair .data .data

def valid : ConstType → Bool
  | list e => e.valid
  | array e => e.valid
  | pair a b => a.valid && b.valid
  | unknown _ => false
  | _ => true

def text : ConstType → String
  | integer => "integer"
  | byteString => "bytestring"
  | string => "string"
  | unit => "unit"
  | bool => "bool"
  | data => "data"
  | list e => "(list " ++ e.text ++ ")"
  | array e => "(array " ++ e.text ++ ")"
  | pair a b => "(pair " ++ a.text ++ " " ++ b.text ++ ")"
  | unknown _ => "?"

end ConstType

inductive Constant where
  | integer (n : Int)
  | byteString (b : Bytes)
  | string (s : String)
  | unit
  | bool (b : Bool)
  | data (d : Data)
  | noData
  | list (elem : ConstType) (items : List Constant)
  /-- A pair; two items unless it is malformed. -/
  | pair (fst snd : ConstType) (items : List Constant)
  | array (elem : ConstType) (items : List Constant)
  | unknown (kind : UInt8)

namespace Constant

def type : Constant → ConstType
  | integer _ => .integer
  | byteString _ => .byteString
  | string _ => .string
  | unit => .unit
  | bool _ => .bool
  | data _ => .data
  | noData => .data
  | list e _ => .list e
  | pair a b _ => .pair a b
  | array e _ => .array e
  | unknown k => .unknown k

def items : Constant → List Constant
  | list _ xs => xs
  | pair _ _ xs => xs
  | array _ xs => xs
  | _ => []

def data? : Constant → Option Data
  | data d => some d
  | _ => none

def pairOf (a b : Constant) : Constant :=
  .pair a.type b.type [a, b]

def dataList (items : List Data) : Constant :=
  .list .data (items.map .data)

def dataPairList (entries : List (Data × Data)) : Constant :=
  .list .dataPair (entries.map fun (k, v) => pairOf (.data k) (.data v))

mutual

/-- Whether two constants have the same type and content. -/
def same : Constant → Constant → Bool
  | integer n, integer m => n == m
  | byteString b, byteString c => b == c
  | string s, string t => s == t
  | unit, unit => true
  | bool b, bool c => b == c
  | data d, data e => d.same e
  | noData, noData => true
  | list e xs, list f ys => e = f && sameAll xs ys
  | pair a b xs, pair c d ys => a = c && b = d && sameAll xs ys
  | array e xs, array f ys => e = f && sameAll xs ys
  | _, _ => false

/-- Whether two lists of constants are the same, place by place. -/
def sameAll : List Constant → List Constant → Bool
  | [], [] => true
  | x :: xs, y :: ys => x.same y && sameAll xs ys
  | _, _ => false

end

mutual

def valueText : Constant → String
  | integer n => toString n
  | byteString b => "#" ++ Hex.encode b
  | string s => quote s
  | unit => "()"
  | bool true => "True"
  | bool false => "False"
  | data d => "(" ++ d.text ++ ")"
  | noData => "<nil>"
  | list _ xs => "[" ++ valueTexts xs ++ "]"
  | array _ xs => "[" ++ valueTexts xs ++ "]"
  | pair _ _ [a, b] => "(" ++ a.valueText ++ ", " ++ b.valueText ++ ")"
  | pair _ _ _ => "(?)"
  | unknown k => "<" ++ toString k.toNat ++ ">"

def valueTexts : List Constant → String
  | [] => ""
  | [x] => x.valueText
  | x :: xs => x.valueText ++ ", " ++ valueTexts xs

end

mutual

/-- Whether the value of a constant is there and matches its type at every
level. -/
def wellFormed : Constant → Bool
  | data d => d.valid
  | noData => false
  | list e xs => e.valid && wellFormedAll e xs
  | array e xs => e.valid && wellFormedAll e xs
  | pair a b [x, y] =>
    a.valid && b.valid && x.type = a && y.type = b && x.wellFormed && y.wellFormed
  | pair _ _ _ => false
  | unknown _ => false
  | _ => true

/-- Whether all items of a list are well formed and of type `e`. -/
def wellFormedAll (e : ConstType) : List Constant → Bool
  | [] => true
  | x :: xs => x.type = e && x.wellFormed && wellFormedAll e xs

end

def WellFormed (c : Constant) : Prop := c.wellFormed = true

def text (c : Constant) : String :=
  "(con " ++ c.type.text ++ " " ++ c.valueText ++ ")"

end Constant

end CoreLowering
