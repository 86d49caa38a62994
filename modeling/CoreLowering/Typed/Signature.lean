import CoreLowering.Core.Builtin
import CoreLowering.Typed.Ty

/-!
# Signatures of the builtins

Each builtin has a type, general in builtin variables where the builtin is.
-/

namespace CoreLowering.Signature

/-- The first variable of general signatures. -/
def varA : TyVar := ⟨"a", 0xFFFE0001, true⟩

/-- The second variable of general signatures. -/
def varB : TyVar := ⟨"b", 0xFFFE0002, true⟩

def a : Ty := .var varA

def b : Ty := .var varB

def dataList : Ty := .builtinList .data

/-- The type of association lists of structured values. -/
def dataMap : Ty := .builtinList (.builtinPair .data .data)

def of : Builtin → Ty
  | .addInteger | .subtractInteger | .multiplyInteger | .divideInteger
  | .quotientInteger | .remainderInteger | .modInteger =>
    .function [.integer, .integer] .integer
  | .equalsInteger | .lessThanInteger | .lessThanEqualsInteger =>
    .function [.integer, .integer] .boolean
  | .appendByteString => .function [.byteString, .byteString] .byteString
  | .consByteString => .function [.integer, .byteString] .byteString
  | .sliceByteString => .function [.integer, .integer, .byteString] .byteString
  | .lengthOfByteString => .function [.byteString] .integer
  | .indexByteString => .function [.byteString, .integer] .integer
  | .equalsByteString | .lessThanByteString | .lessThanEqualsByteString =>
    .function [.byteString, .byteString] .boolean
  | .sha2_256 | .sha3_256 | .blake2b_256 => .function [.byteString] .byteString
  | .appendString => .function [.string, .string] .string
  | .equalsString => .function [.string, .string] .boolean
  | .encodeUtf8 => .function [.string] .byteString
  | .decodeUtf8 => .function [.byteString] .string
  | .ifThenElse => .forAll [varA] (.function [.boolean, a, a] a)
  | .chooseUnit => .forAll [varA] (.function [.unit, a] a)
  | .trace => .forAll [varA] (.function [.string, a] a)
  | .fstPair => .forAll [varA, varB] (.function [.builtinPair a b] a)
  | .sndPair => .forAll [varA, varB] (.function [.builtinPair a b] b)
  | .chooseList => .forAll [varA, varB] (.function [.builtinList a, b, b] b)
  | .mkCons => .forAll [varA] (.function [a, .builtinList a] (.builtinList a))
  | .headList => .forAll [varA] (.function [.builtinList a] a)
  | .tailList => .forAll [varA] (.function [.builtinList a] (.builtinList a))
  | .nullList => .forAll [varA] (.function [.builtinList a] .boolean)
  | .chooseData => .forAll [varA] (.function [.data, a, a, a, a, a] a)
  | .constrData => .function [.integer, dataList] .data
  | .mapData => .function [dataMap] .data
  | .listData => .function [dataList] .data
  | .iData => .function [.integer] .data
  | .bData => .function [.byteString] .data
  | .unConstrData => .function [.data] (.builtinPair .integer dataList)
  | .unMapData => .function [.data] dataMap
  | .unListData => .function [.data] dataList
  | .unIData => .function [.data] .integer
  | .unBData => .function [.data] .byteString
  | .equalsData => .function [.data, .data] .boolean
  | .mkPairData => .function [.data, .data] (.builtinPair .data .data)
  | .mkNilData => .function [.unit] dataList
  | .mkNilPairData => .function [.unit] dataMap
  | .serialiseData => .function [.data] .byteString
  | .lengthOfArray => .forAll [varA] (.function [.builtinArray a] .integer)
  | .listToArray => .forAll [varA] (.function [.builtinList a] (.builtinArray a))
  | .indexArray => .forAll [varA] (.function [.builtinArray a, .integer] a)
  | .unknown _ => .free

/-- The argument types of a function type and what it gives in the end. -/
def split : Ty → List Ty × Ty
  | .con .fn [x, y] => let (xs, z) := split y; (x :: xs, z)
  | t => ([], t)

/-- The argument types and the result type of a builtin. -/
def parts (f : Builtin) : List Ty × Ty :=
  split (of f).unwrap

end CoreLowering.Signature
