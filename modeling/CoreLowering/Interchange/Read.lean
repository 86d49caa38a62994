import CoreLowering.Interchange.Write
import CoreLowering.MsgPack.Reader
import CoreLowering.Text.Quoted
import CoreLowering.Text.Utf8

/-!
# Reading records

Reading is lenient.  A record is a map from names, in which unknown names
are skipped, or an array with an item for every field, or nil.  Integers may
come in any width and are cut to the width of the field; texts and byte
strings stand for each other; nil is the empty value of any field.

A map may give a field more than once.  What comes later is then read over
what is there: of a record it changes the fields that it has, of a list the
items at its places, and of all else everything.

Parts are read in the order of the bytes, so of two faults the one that
comes first is reported.
-/

namespace CoreLowering.Interchange

/-- Why a record cannot be read. -/
inductive ReadFault where
  /-- The bytes end too early, or a part is not of the expected kind. -/
  | malformed
  /-- The integer of a constant is no decimal text. -/
  | badConstant (text : Bytes)
  /-- The integer of a structured value is no decimal text. -/
  | badData (text : Bytes)

def ReadFault.message : ReadFault → String
  | malformed => "msgpack: malformed bytes"
  | badConstant t => "constant: invalid integer " ++ quote (Utf8.lenientText t)
  | badData t => "data: invalid integer " ++ quote (Utf8.lenientText t)

abbrev Read := Except ReadFault

def digit? (b : UInt8) : Option Nat :=
  if 48 ≤ b ∧ b ≤ 57 then some (b.toNat - 48) else none

/-- The number that digits spell; there must be one at least. -/
def natural? : Bytes → Option Nat
  | [] => none
  | ds => ds.foldlM (fun n b => (digit? b).map (10 * n + ·)) 0

/-- The integer that a decimal text spells, with an optional sign. -/
def integer? : Bytes → Option Int
  | 45 :: ds => (natural? ds).map fun n => -(n : Int)
  | 43 :: ds => (natural? ds).map fun n => (n : Int)
  | ds => (natural? ds).map fun n => (n : Int)

def readInt : Msg → Read Int
  | .int _ n => pure n
  | .nil => pure 0
  | _ => throw .malformed

def readByte (m : Msg) : Read UInt8 := UInt8.ofInt <$> readInt m

def readWord (m : Msg) : Read UInt32 := UInt32.ofInt <$> readInt m

def readLong (m : Msg) : Read UInt64 := UInt64.ofInt <$> readInt m

def readBool : Msg → Read Bool
  | .bool b => pure b
  | .nil => pure false
  | _ => throw .malformed

def readBytes : Msg → Read Bytes
  | .str b => pure b
  | .bin b => pure b
  | .nil => pure []
  | _ => throw .malformed

/-- A way to read a part over the one that is at its place, if there is
one. -/
abbrev Reader (α : Type) := Option α → Msg → Read α

/-- Reads a part without regard to what is at its place. -/
def anew {α : Type} (read : Msg → Read α) : Reader α := fun _ => read

def readItems {α : Type} (read : Reader α) : List α → List Msg → Read (List α)
  | _, [] => pure []
  | olds, m :: ms => do
    let a ← read olds.head? m
    return a :: (← readItems read olds.tail ms)

def readList? {α : Type} (read : Reader α) (old : List α) : Msg → Read (Option (List α))
  | .arr items => some <$> readItems read old items
  | .nil => pure none
  | _ => throw .malformed

def readList {α : Type} (read : Reader α) (old : List α) (m : Msg) : Read (List α) :=
  (·.getD []) <$> readList? read old m

def readOption {α : Type} (read : Reader α) (old : Option α) : Msg → Read (Option α)
  | .nil => pure none
  | m => some <$> read old m

def readOptions {α : Type} (read : Reader α) : List (Option α) → Msg → Read (List (Option α)) :=
  readList fun old => readOption read old.join

/-- Reads a record that starts as `empty`, where `set` reads one field into
it. -/
def readRecord {α : Type} (names : List String) (empty : α) (set : α → String → Msg → Read α)
    (old : Option α) : Msg → Read α
  | .nil => pure empty
  | .map entries =>
    entries.foldlM
      (fun a (k, m) => do
        let name := Utf8.lenientText (← readBytes k)
        if names.contains name then set a name m
        else if m.isWhole then pure a
        else throw .malformed)
      (old.getD empty)
  | .arr [] => pure empty
  | .arr items =>
    if items.length = names.length then
      (names.zip items).foldlM (fun a (name, m) => set a name m) (old.getD empty)
    else throw .malformed
  | _ => throw .malformed

def readSpan : Reader Span :=
  readRecord ["File", "Start", "End"] .none fun s name m =>
    match name with
    | "File" => do return { s with file := ← readWord m }
    | "Start" => do return { s with start := ← readWord m }
    | "End" => do return { s with stop := ← readWord m }
    | _ => pure s

/-- Reads an entry of a map, given how its parts are read. -/
def readEntry (read : Msg → Read DataRecord) : Reader (DataRecord × DataRecord) :=
  readRecord ["Key", "Value"] ({}, {}) fun e name m =>
    match name with
    | "Key" => do return (← read m, e.2)
    | "Value" => do return (e.1, ← read m)
    | _ => pure e

/-- Reads a structured value, given how its parts are read. -/
def readDataWith (read : Msg → Read DataRecord) (m : Msg) : Read DataRecord := do
  let start : DataRecord × Bytes := ({}, [])
  let (d, digits) ← readRecord ["k", "t", "f", "m", "i", "b"] start (fun (d, digits) name m =>
    match name with
    | "k" => do return ({ d with kind := ← readByte m }, digits)
    | "t" => do return ({ d with tag := ← readLong m }, digits)
    | "f" => do return ({ d with fields := ← readList (anew read) d.fields m }, digits)
    | "m" => do
      return ({ d with entries := ← readList (readEntry read) d.entries m }, digits)
    | "i" => do return (d, ← readBytes m)
    | "b" => do return ({ d with bytes := ← readBytes m }, digits)
    | _ => pure (d, digits)) none m
  if d.kind = integerDataKind then
    match integer? digits with
    | some n => return { d with int := n }
    | none => throw (.badData digits)
  else return d

/-- Reads a structured value of a depth of at most `fuel`. -/
def readDataIn : (fuel : Nat) → Msg → Read DataRecord
  | 0, _ => throw .malformed
  | fuel + 1, m => readDataWith (readDataIn fuel) m

/-- Reads the type of a constant of a depth of at most `fuel`. -/
def readConstTypeIn : (fuel : Nat) → Reader ConstTypeRecord
  | 0 => fun _ _ => throw .malformed
  | fuel + 1 =>
    readRecord ["k", "e", "s"] {} fun t name m =>
      match name with
      | "k" => do return { t with kind := ← readByte m }
      | "e" => do return { t with elem := ← readOption (readConstTypeIn fuel) t.elem m }
      | "s" => do return { t with snd := ← readOption (readConstTypeIn fuel) t.snd m }
      | _ => pure t

/-- Reads a constant of a depth of at most `fuel`.  Nil stands for zero, but
a record that says nothing is faulty, because its integer has no digits. -/
def readConstIn : (fuel : Nat) → Msg → Read ConstRecord
  | 0, _ => throw .malformed
  | _ + 1, .nil => pure {}
  | fuel + 1, m => do
    let start : ConstRecord × Bytes := ({}, [])
    let (c, digits) ← readRecord ["t", "i", "b", "s", "o", "d", "l"] start
      (fun (c, digits) name m =>
        match name with
        | "t" => do return ({ c with type := ← readConstTypeIn fuel c.type m }, digits)
        | "i" => do return (c, ← readBytes m)
        | "b" => do return ({ c with bytes := ← readBytes m }, digits)
        | "s" => do return ({ c with text := ← readBytes m }, digits)
        | "o" => do return ({ c with bool := ← readBool m }, digits)
        | "d" => do
          return ({ c with data := ← readOption (anew (readDataIn fuel)) c.data m }, digits)
        | "l" => do
          return ({ c with items := ← readList (anew (readConstIn fuel)) c.items m }, digits)
        | _ => pure (c, digits)) none m
    if c.type.kind = integerConstKind then
      match integer? digits with
      | some n => return { c with int := n }
      | none => throw (.badConstant digits)
    else return c

/-- Reads a type of a depth of at most `fuel`. -/
def readTypeIn : (fuel : Nat) → Reader TypeRecord
  | 0 => fun _ _ => throw .malformed
  | fuel + 1 =>
    readRecord ["k", "n", "c", "a", "p", "i", "b"] {} fun t name m =>
      match name with
      | "k" => do return { t with kind := ← readByte m }
      | "n" => do return { t with name := ← readBytes m }
      | "c" => do return { t with constr := ← readBytes m }
      | "a" => do return { t with args := ← readOptions (readTypeIn fuel) t.args m }
      | "p" => do return { t with params := ← readOptions (readTypeIn fuel) t.params m }
      | "i" => do return { t with id := ← readWord m }
      | "b" => do return { t with builtin := ← readBool m }
      | _ => pure t

def readField (fuel : Nat) : Reader FieldRecord :=
  readRecord ["name", "type"] {} fun f name m =>
    match name with
    | "name" => do return { f with name := ← readBytes m }
    | "type" => do return { f with type := ← readOption (readTypeIn fuel) f.type m }
    | _ => pure f

def readConstructor (fuel : Nat) : Reader ConstructorRecord :=
  readRecord ["name", "params"] {} fun c name m =>
    match name with
    | "name" => do return { c with name := ← readBytes m }
    | "params" => do return { c with fields := ← readList (readField fuel) c.fields m }
    | _ => pure c

def readDecl (fuel : Nat) : Reader DeclRecord :=
  readRecord ["name", "tparams", "constrs"] {} fun d name m =>
    match name with
    | "name" => do return { d with name := ← readBytes m }
    | "tparams" => do return { d with params := ← readOptions (readTypeIn fuel) d.params m }
    | "constrs" => do
      let old := d.constructors.getD []
      return { d with constructors := ← readList? (readConstructor fuel) old m }
    | _ => pure d

def readBinding (fuel : Nat) (read : Reader ExprRecord) : Reader BindingRecord :=
  readRecord ["n", "t", "v", "sp"] {} fun b name m =>
    match name with
    | "n" => do return { b with name := ← readBytes m }
    | "t" => do return { b with type := ← readOption (readTypeIn fuel) b.type m }
    | "v" => do return { b with value := ← readOption read b.value m }
    | "sp" => do return { b with span := ← readSpan b.span m }
    | _ => pure b

def readArm (read : Reader ExprRecord) : Reader ArmRecord :=
  readRecord ["c", "b", "e", "sp"] {} fun a name m =>
    match name with
    | "c" => do return { a with constr := ← readBytes m }
    | "b" => do
      return { a with binders := (← readList? (anew readBytes) [] m).getD a.binders }
    | "e" => do return { a with body := ← readOption read a.body m }
    | "sp" => do return { a with span := ← readSpan a.span m }
    | _ => pure a

def exprFields : List String :=
  ["k", "t", "sp", "n", "c", "bi", "d", "rec", "bs", "pt", "b", "f", "a", "o", "cs"]

/-- Reads one field of an expression, given how expressions are read. -/
def setExpr (fuel : Nat) (read : Reader ExprRecord) (e : ExprRecord) (name : String)
    (m : Msg) : Read ExprRecord :=
  match name with
  | "k" => do return { e with kind := ← readByte m }
  | "t" => do return { e with type := ← readOption (readTypeIn fuel) e.type m }
  | "sp" => do return { e with span := ← readSpan e.span m }
  | "n" => do return { e with name := ← readBytes m }
  | "c" => do return { e with const := ← readOption (anew (readConstIn fuel)) e.const m }
  | "bi" => do return { e with builtin := ← readByte m }
  | "d" => do return { e with decl := ← readBytes m }
  | "rec" => do return { e with recursive := ← readBool m }
  | "bs" => do return { e with bindings := ← readList (readBinding fuel read) e.bindings m }
  | "pt" => do return { e with paramType := ← readOption (readTypeIn fuel) e.paramType m }
  | "b" => do return { e with body := ← readOption read e.body m }
  | "f" => do return { e with fn := ← readOption read e.fn m }
  | "a" => do return { e with arg := ← readOption read e.arg m }
  | "o" => do return { e with operands := ← readOptions read e.operands m }
  | "cs" => do return { e with arms := ← readList (readArm read) e.arms m }
  | _ => pure e

/-- Reads an expression of a depth of at most `fuel`. -/
def readExprIn : (fuel : Nat) → Reader ExprRecord
  | 0 => fun _ _ => throw .malformed
  | fuel + 1 => readRecord exprFields {} (setExpr fuel (readExprIn fuel))

/-- Reads a unit with parts of a depth of at most `fuel`. -/
def readModuleIn (fuel : Nat) : Reader ModuleRecord :=
  readRecord ["name", "decls", "root"] {} fun u name m =>
    match name with
    | "name" => do return { u with name := ← readBytes m }
    | "decls" => do return { u with decls := ← readOptions (readDecl fuel) u.decls m }
    | "root" => do return { u with root := ← readOption (readExprIn fuel) u.root m }
    | _ => pure u

/-- Why bytes are no unit. -/
inductive DecodeError where
  | fault (f : ReadFault)
  | noRoot (name : Bytes)

def DecodeError.message : DecodeError → String
  | fault f => "decode module: " ++ f.message
  | noRoot name => "decode module " ++ Utf8.lenientText name ++ ": missing root expression"

/-- The unit at the start of some bytes.  No part is deeper than the bytes
are many. -/
def ModuleRecord.decode (bytes : Bytes) : Except DecodeError ModuleRecord :=
  match readModuleIn (bytes.length + 1) none (Msg.decode bytes) with
  | .error f => .error (.fault f)
  | .ok u => if u.root.isNone then .error (.noRoot u.name) else .ok u

end CoreLowering.Interchange
