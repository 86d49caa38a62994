import CoreLowering.Graph.Make

/-!
# Packing constants

What a change of layout does to a constant that is known already.  A constant
whose content does not fit is left to run time.
-/

namespace CoreLowering

namespace Constant

/-- The integer of a constant, zero if it is none. -/
def integerPart : Constant → Int
  | integer n => n
  | _ => 0

/-- The bytes of a constant, none if it is no byte string. -/
def bytesPart : Constant → Bytes
  | byteString b => b
  | _ => []

/-- The text of a constant, empty if it is none. -/
def stringPart : Constant → String
  | string s => s
  | _ => ""

/-- The truth value of a constant, false if it is none. -/
def boolPart : Constant → Bool
  | bool b => b
  | _ => false

/-- The structured values that the items of a constant are. -/
def dataItems (c : Constant) : Option (List Data) :=
  c.items.mapM data?

def dataPair? : Constant → Option (Data × Data)
  | pair _ _ [.data a, .data b] => some (a, b)
  | _ => none

/-- Whether a constant is so small that it is written out at each use. -/
def isSmall : Constant → Bool
  | integer n => n.natAbs < UInt64.size
  | bool _ => true
  | unit => true
  | byteString b => b.length ≤ 8
  | string s => s.utf8ByteSize ≤ 8
  | list _ xs => xs.isEmpty
  | _ => false

end Constant

namespace Data

/-- A truth value packed. -/
def ofBool (b : Bool) : Data := .constr (if b then 1 else 0) []

def ofPair (p : Data × Data) : Data := .constr 0 [p.1, p.2]

/-- The two fields of a constructor, whatever its tag. -/
def twoFields? : Data → Option (Data × Data)
  | constr _ [a, b] => some (a, b)
  | _ => none

def pairConstant (p : Data × Data) : Constant :=
  .pairOf (.data p.1) (.data p.2)

end Data

namespace Graph.Fold

def packList (c : Constant) : Option Constant :=
  c.dataItems.map fun xs => .data (.list xs)

def unpackList (c : Constant) : Option Constant :=
  match c.data? with
  | some (.list xs) => some (.dataList xs)
  | _ => none

def packMap (c : Constant) : Option Constant :=
  (c.items.mapM Constant.dataPair?).map fun es => .data (.map es)

def unpackMap (c : Constant) : Option Constant :=
  match c.data? with
  | some (.map es) => some (.dataPairList es)
  | _ => none

/-- A constant of a builtin type packed into data. -/
def pack : Ty → Constant → Option Constant
  | .all _ body, c => pack body c
  | .con .data _, c => some c
  | .con .integer _, c => some (.data (.int c.integerPart))
  | .con .byteString _, c => some (.data (.bytes c.bytesPart))
  | .con .string _, c => some (.data (.bytes (Bytes.ofString c.stringPart)))
  | .con .boolean _, c => some (.data (.ofBool c.boolPart))
  | .con .unit _, _ => some (.data (.ofBool false))
  | .con .builtinList (e :: _), c =>
    if e.same dataPairT then packMap c
    else
      (c.items.mapM fun x => (pack e x).bind Constant.data?).map fun xs => .data (.list xs)
  | .con .builtinPair (a :: b :: _), .pair _ _ [x, y] =>
    match (pack a x).bind Constant.data?, (pack b y).bind Constant.data? with
    | some p, some q => some (.data (.ofPair (p, q)))
    | _, _ => none
  | _, _ => none

/-- A constant of a builtin type taken out of data. -/
def unpack : Ty → Constant → Option Constant
  | .all _ body, c => unpack body c
  | .con .data _, c => some c
  | .con .integer _, c =>
    match c.data? with
    | some (.int n) => some (.integer n)
    | _ => none
  | .con .byteString _, c =>
    match c.data? with
    | some (.bytes b) => some (.byteString b)
    | _ => none
  | .con .string _, c =>
    match c.data? with
    | some (.bytes b) => b.toString?.map .string
    | _ => none
  | .con .boolean _, c =>
    match c.data? with
    | some (.constr tag _) => some (.bool (tag == 1))
    | _ => none
  | .con .unit _, _ => some .unit
  | .con .builtinList (e :: _), c =>
    if e.same dataPairT then unpackMap c
    else
      match c.data?, e.constType? with
      | some (.list xs), some ct =>
        (xs.mapM fun x => unpack e (.data x)).map fun xs => .list ct xs
      | _, _ => none
  | .con .builtinPair _, c => (c.data?.bind Data.twoFields?).map Data.pairConstant
  | _, _ => none

end Graph.Fold

end CoreLowering
