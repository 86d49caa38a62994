import CoreLowering.Interchange.Write

/-!
# The sample unit

The unit that a new project starts with: a function that adds one, applied to
forty-one.
-/

namespace CoreLowering.Command

open Interchange

namespace Sample

def integer : TypeRecord := { kind := 1 }

def arrow (a b : TypeRecord) : TypeRecord := { kind := 12, args := [some a, some b] }

def number (n : Int) : ExprRecord :=
  { kind := 2, type := some integer, const := some { int := n } }

def apply (type : TypeRecord) (f a : ExprRecord) : ExprRecord :=
  { kind := 5, type := some type, fn := some f, arg := some a }

def x : ExprRecord := { kind := 1, type := some integer, name := Bytes.ofString "x" }

def add : ExprRecord :=
  { kind := 11, type := some (arrow integer (arrow integer integer)) }

def increment : ExprRecord :=
  { kind := 4, type := some (arrow integer integer), name := Bytes.ofString "x"
    paramType := some integer
    body := some (apply integer (apply (arrow integer integer) add x) (number 1)) }

def unit : ModuleRecord :=
  { name := Bytes.ofString "main", root := some (apply integer increment (number 41)) }

end Sample

end CoreLowering.Command
