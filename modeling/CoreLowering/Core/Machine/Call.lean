import CoreLowering.Core.Data.Cbor
import CoreLowering.Core.Machine.Failure
import CoreLowering.Digest.Blake2b
import CoreLowering.Digest.Sha256
import CoreLowering.Digest.Sha3

/-!
# What the builtins compute

`call` gives the result of a builtin on as many values as it takes, or says
why it refuses them.  Arguments are looked at from left to right, so the
first one that does not fit decides the refusal.  Division rounds down,
quotient rounds towards zero, and each has its own remainder.
-/

namespace CoreLowering.Machine

namespace Value

/-- What a constant has that is wanted; any other value is refused. -/
def ask {α : Type} (wanted : Wanted) (read : Constant → Option α) : Value → Except Refusal α
  | con c =>
    match read c with
    | some a => .ok a
    | none => .error (.shape wanted (con c))
  | v => .error (.shape wanted v)

def asInteger : Value → Except Refusal Int :=
  ask .integer fun
    | .integer n => some n
    | _ => none

def asBytes : Value → Except Refusal Bytes :=
  ask .byteString fun
    | .byteString b => some b
    | _ => none

def asString : Value → Except Refusal String :=
  ask .string fun
    | .string s => some s
    | _ => none

def asUnit : Value → Except Refusal Unit :=
  ask .unit fun
    | .unit => some ()
    | _ => none

def asBool : Value → Except Refusal Bool :=
  ask .bool fun
    | .bool b => some b
    | _ => none

def asData (v : Value) : Except Refusal Data := do
  let found ← v.ask .data fun
    | .data d => some (some d)
    | .noData => some none
    | _ => none
  match found with
  | some d => return d
  | none => throw .noData

/-- The element type and the items of the list a value is. -/
def asList : Value → Except Refusal (ConstType × List Constant) :=
  ask .list fun
    | .list e xs => some (e, xs)
    | _ => none

def asPair : Value → Except Refusal (List Constant) :=
  ask .pair fun
    | .pair _ _ xs => some xs
    | _ => none

def asArray : Value → Except Refusal (List Constant) :=
  ask .array fun
    | .array _ xs => some xs
    | _ => none

def asDataList (v : Value) : Except Refusal (List Data) := do
  let (_, xs) ← v.asList
  xs.mapM fun x =>
    match x with
    | .data d => .ok d
    | _ => .error .notDataList

def asDataPairs (v : Value) : Except Refusal (List (Data × Data)) := do
  let (_, xs) ← v.asList
  xs.mapM fun x =>
    match x with
    | .pair _ _ (.data k :: .data w :: _) => .ok (k, w)
    | .pair _ _ (_ :: _ :: _) => .error .notDataPairs
    | .pair _ _ _ => .error .malformed
    | _ => .error .notDataPairs

end Value

def integer (n : Int) : Value := .con (.integer n)

def byteString (b : Bytes) : Value := .con (.byteString b)

def bool (b : Bool) : Value := .con (.bool b)

def data (d : Data) : Value := .con (.data d)

/-- Whether an integer fits into 64 bits with a sign. -/
def isSmall (n : Int) : Bool :=
  -0x8000000000000000 ≤ n && n < 0x8000000000000000

def itemAt {α : Type} (xs : List α) (i : Int) : Except Refusal α :=
  match i with
  | .ofNat n =>
    match xs[n]? with
    | some x => .ok x
    | none => .error (.indexRange i)
  | .negSucc _ => .error (.indexRange i)

/-- The number `n` moved into the range from zero to `size`. -/
def clamp (size : Nat) (n : Int) : Nat :=
  min n.toNat size

/-- The bytes from place `start` on, `n` of them, as far as there are any. -/
def slice (b : Bytes) (start n : Int) : Bytes :=
  let lo := clamp b.length start
  let hi := clamp b.length (start + n)
  (b.drop lo).take (hi - lo)

/-- A division, unless the divisor is zero. -/
def divide (op : Int → Int → Int) (a b : Value) : Except Refusal Value := do
  let n ← a.asInteger
  let m ← b.asInteger
  if m = 0 then .error .divisionByZero else return integer (op n m)

/-- The branch of a choice that belongs to the shape of a structured value. -/
def chooseData (d : Data) (onConstr onMap onList onInt onBytes : Value) :
    Except Refusal Value :=
  match d with
  | .constr _ _ => .ok onConstr
  | .map _ => .ok onMap
  | .list _ => .ok onList
  | .int _ => .ok onInt
  | .bytes _ => .ok onBytes
  | .unknown _ => .error .malformed

/-- The result of a builtin on a full list of arguments. -/
def call (f : Builtin) (args : List Value) : Except Refusal Value :=
  match f, args with
  | .addInteger, [a, b] => do return integer ((← a.asInteger) + (← b.asInteger))
  | .subtractInteger, [a, b] => do return integer ((← a.asInteger) - (← b.asInteger))
  | .multiplyInteger, [a, b] => do return integer ((← a.asInteger) * (← b.asInteger))
  | .divideInteger, [a, b] => divide Int.fdiv a b
  | .quotientInteger, [a, b] => divide Int.tdiv a b
  | .remainderInteger, [a, b] => divide Int.tmod a b
  | .modInteger, [a, b] => divide Int.fmod a b
  | .equalsInteger, [a, b] => do return bool ((← a.asInteger) == (← b.asInteger))
  | .lessThanInteger, [a, b] => do
    return bool (decide ((← a.asInteger) < (← b.asInteger)))
  | .lessThanEqualsInteger, [a, b] => do
    return bool (decide ((← a.asInteger) ≤ (← b.asInteger)))
  | .appendByteString, [a, b] => do return byteString ((← a.asBytes) ++ (← b.asBytes))
  | .consByteString, [a, b] => do
    let n ← a.asInteger
    if !isSmall n then throw (.integerRange n)
    if n < 0 ∨ n > 255 then throw (.byteRange n)
    return byteString (UInt8.ofNat n.toNat :: (← b.asBytes))
  | .sliceByteString, [a, b, c] => do
    let start ← a.asInteger
    let n ← b.asInteger
    return byteString (slice (← c.asBytes) start n)
  | .lengthOfByteString, [a] => do return integer (← a.asBytes).length
  | .indexByteString, [a, b] => do
    let bytes ← a.asBytes
    let byte ← itemAt bytes (← b.asInteger)
    return integer byte.toNat
  | .equalsByteString, [a, b] => do return bool ((← a.asBytes) == (← b.asBytes))
  | .lessThanByteString, [a, b] => do
    return bool (decide ((← a.asBytes) < (← b.asBytes)))
  | .lessThanEqualsByteString, [a, b] => do
    return bool (decide ((← a.asBytes) ≤ (← b.asBytes)))
  | .sha2_256, [a] => do return byteString (Digest.sha256 (← a.asBytes))
  | .sha3_256, [a] => do return byteString (Digest.sha3 (← a.asBytes))
  | .blake2b_256, [a] => do return byteString (Digest.blake2b (← a.asBytes))
  | .appendString, [a, b] => do return .con (.string ((← a.asString) ++ (← b.asString)))
  | .equalsString, [a, b] => do return bool ((← a.asString) == (← b.asString))
  | .encodeUtf8, [a] => do return byteString (Bytes.ofString (← a.asString))
  | .decodeUtf8, [a] => do
    match (← a.asBytes).toString? with
    | some s => return .con (.string s)
    | none => throw .notUtf8
  | .ifThenElse, [a, b, c] => do if ← a.asBool then return b else return c
  | .chooseUnit, [a, b] => do
    a.asUnit
    return b
  | .trace, [a, b] => do
    let _ ← a.asString
    return b
  | .fstPair, [a] => do
    match ← a.asPair with
    | x :: _ => return .con x
    | _ => throw .malformed
  | .sndPair, [a] => do
    match ← a.asPair with
    | _ :: y :: _ => return .con y
    | _ => throw .malformed
  | .chooseList, [a, b, c] => do
    match (← a.asList).2 with
    | [] => return b
    | _ :: _ => return c
  | .mkCons, [a, b] => do
    match a with
    | .con x =>
      let (e, xs) ← b.asList
      if e = x.type then return .con (.list e (x :: xs))
      else throw (.elementType x.type (.list e))
    | _ => throw .notConstant
  | .headList, [a] => do
    match (← a.asList).2 with
    | x :: _ => return .con x
    | [] => throw .emptyList
  | .tailList, [a] => do
    match ← a.asList with
    | (e, _ :: xs) => return .con (.list e xs)
    | (_, []) => throw .emptyList
  | .nullList, [a] => do return bool (← a.asList).2.isEmpty
  | .chooseData, [a, b, c, d, e, f] => do chooseData (← a.asData) b c d e f
  | .constrData, [a, b] => do
    let tag ← a.asInteger
    if tag < 0 ∨ tag ≥ 0x10000000000000000 then throw (.tagRange tag)
    return data (.constr (UInt64.ofNat tag.toNat) (← b.asDataList))
  | .mapData, [a] => do return data (.map (← a.asDataPairs))
  | .listData, [a] => do return data (.list (← a.asDataList))
  | .iData, [a] => do return data (.int (← a.asInteger))
  | .bData, [a] => do return data (.bytes (← a.asBytes))
  | .unConstrData, [a] => do
    match ← a.asData with
    | .constr tag fields =>
      return .con (.pairOf (.integer tag.toNat) (.dataList fields))
    | d => throw (.not "a constr" d)
  | .unMapData, [a] => do
    match ← a.asData with
    | .map entries => return .con (.dataPairList entries)
    | d => throw (.not "a map" d)
  | .unListData, [a] => do
    match ← a.asData with
    | .list items => return .con (.dataList items)
    | d => throw (.not "a list" d)
  | .unIData, [a] => do
    match ← a.asData with
    | .int n => return integer n
    | d => throw (.not "an integer" d)
  | .unBData, [a] => do
    match ← a.asData with
    | .bytes b => return byteString b
    | d => throw (.not "a bytestring" d)
  | .equalsData, [a, b] => do return bool ((← a.asData).same (← b.asData))
  | .mkPairData, [a, b] => do
    return .con (.pairOf (.data (← a.asData)) (.data (← b.asData)))
  | .mkNilData, [a] => do
    a.asUnit
    return .con (.dataList [])
  | .mkNilPairData, [a] => do
    a.asUnit
    return .con (.dataPairList [])
  | .serialiseData, [a] => do return byteString (Data.Cbor.encode (← a.asData))
  | .lengthOfArray, [a] => do return integer (← a.asArray).length
  | .listToArray, [a] => do
    let (e, xs) ← a.asList
    return .con (.array e xs)
  | .indexArray, [a, b] => do
    let xs ← a.asArray
    return .con (← itemAt xs (← b.asInteger))
  | _, _ => .error .malformed

/-- The message a call adds to the log. -/
def logOf (f : Builtin) (args : List Value) : List String :=
  match f, args with
  | .trace, .con (.string s) :: _ => [s]
  | _, _ => []

end CoreLowering.Machine
