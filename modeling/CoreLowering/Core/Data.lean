import CoreLowering.Text.Hex

/-!
# Data

The universal structured value of the target language: constructors with a
tag and fields, maps, lists, integers and byte strings.  Every user type can
be packed into it.  A kind number that names none of the five shapes is kept,
because the interchange format can carry it; such a value equals nothing, not
even itself, and prints as nothing.
-/

namespace CoreLowering

/-- A structured value. -/
inductive Data where
  | constr (tag : UInt64) (fields : List Data)
  | map (entries : List (Data × Data))
  | list (items : List Data)
  | int (n : Int)
  | bytes (b : Bytes)
  | unknown (kind : UInt8)

namespace Data

mutual

/-- Whether two values are the same in shape and content. -/
def same : Data → Data → Bool
  | constr t fs, constr u gs => t == u && sameAll fs gs
  | map es, map fs => sameEntries es fs
  | list xs, list ys => sameAll xs ys
  | int n, int m => n == m
  | bytes b, bytes c => b == c
  | _, _ => false

/-- Whether two lists of values are the same, place by place. -/
def sameAll : List Data → List Data → Bool
  | [], [] => true
  | x :: xs, y :: ys => x.same y && sameAll xs ys
  | _, _ => false

/-- Whether two lists of entries are the same, place by place. -/
def sameEntries : List (Data × Data) → List (Data × Data) → Bool
  | [], [] => true
  | (k, v) :: es, (l, w) :: fs => k.same l && v.same w && sameEntries es fs
  | _, _ => false

end

mutual

def text : Data → String
  | constr tag fields => "Constr " ++ toString tag.toNat ++ " [" ++ textAll fields ++ "]"
  | list items => "List [" ++ textAll items ++ "]"
  | map entries => "Map [" ++ textEntries entries ++ "]"
  | int n => "I " ++ toString n
  | bytes b => "B #" ++ Hex.encode b
  | unknown _ => ""

def textAll : List Data → String
  | [] => ""
  | [x] => x.text
  | x :: xs => x.text ++ ", " ++ textAll xs

/-- The texts of entries, each a pair in parentheses, separated by commas. -/
def textEntries : List (Data × Data) → String
  | [] => ""
  | [(k, v)] => "(" ++ k.text ++ ", " ++ v.text ++ ")"
  | (k, v) :: es => "(" ++ k.text ++ ", " ++ v.text ++ "), " ++ textEntries es

end

mutual

/-- Whether every kind in the value names one of the five shapes. -/
def valid : Data → Bool
  | constr _ fields => validAll fields
  | map entries => validEntries entries
  | list items => validAll items
  | int _ => true
  | bytes _ => true
  | unknown _ => false

def validAll : List Data → Bool
  | [] => true
  | x :: xs => x.valid && validAll xs

/-- Whether all keys and values of entries are valid. -/
def validEntries : List (Data × Data) → Bool
  | [] => true
  | (k, v) :: es => k.valid && v.valid && validEntries es

end

end Data

end CoreLowering
