import CoreLowering.Text.Letter
import CoreLowering.Text.Quoted

/-!
# Language versions

The target language has four versions, each with all that the one before it
has.  The second adds the serialisation of data, the third constructor and
case terms, the fourth case on builtin values and arrays.
-/

namespace CoreLowering

/-- A version of the target language, or none chosen. -/
inductive Version where
  | unknown
  | v1
  | v2
  | v3
  | v4
  deriving DecidableEq

namespace Version

def rank : Version → Nat
  | unknown => 0
  | v1 => 1
  | v2 => 2
  | v3 => 3
  | v4 => 4

/-- The version at a place; a place past the end is the last version. -/
def ofRank : Nat → Version
  | 0 => unknown
  | 1 => v1
  | 2 => v2
  | 3 => v3
  | _ => v4

def standard : Version := v3

def orStandard : Version → Version
  | unknown => standard
  | v => v

def name : Version → String
  | unknown => "unknown"
  | v1 => "v1"
  | v2 => "v2"
  | v3 => "v3"
  | v4 => "v4"

/-- Whether constructor and case terms exist. -/
def hasConstr (v : Version) : Bool := 3 ≤ v.rank

/-- Whether case takes builtin values apart. -/
def hasBuiltinCase (v : Version) : Bool := 4 ≤ v.rank

def language (v : Version) : String :=
  if v.hasConstr then "1.1.0" else "1.0.0"

/-- A text that names no version. -/
structure ParseError where
  text : String

def ParseError.message (e : ParseError) : String :=
  "invalid target version " ++ quote e.text ++ " (expected v1|v2|v3|v4)"

/-- Reads `v1` to `v4`; blanks around it, its case and the letter do not
matter. -/
def parse (text : String) : Except ParseError Version :=
  let cs := (lower (trim text)).toList
  let digits := match cs with
    | 'v' :: rest => rest
    | _ => cs
  match digits with
  | ['1'] => .ok v1
  | ['2'] => .ok v2
  | ['3'] => .ok v3
  | ['4'] => .ok v4
  | _ => .error ⟨text⟩

end Version

end CoreLowering
