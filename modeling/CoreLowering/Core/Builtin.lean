import CoreLowering.Core.Version

/-!
# Builtin functions

The functions the target language offers ready-made.  Each has a name, the
number of its arguments, the number of times it has to be forced before it
takes them (one a type it is generic in), and the first language version that
has it.  The number of a builtin in the interchange format is its place in
the list; a number past the end is kept as an unknown builtin, which no
version offers.
-/

namespace CoreLowering

inductive Builtin where
  | addInteger
  | subtractInteger
  | multiplyInteger
  | divideInteger
  | quotientInteger
  | remainderInteger
  | modInteger
  | equalsInteger
  | lessThanInteger
  | lessThanEqualsInteger
  | appendByteString
  | consByteString
  | sliceByteString
  | lengthOfByteString
  | indexByteString
  | equalsByteString
  | lessThanByteString
  | lessThanEqualsByteString
  | sha2_256
  | sha3_256
  | blake2b_256
  | appendString
  | equalsString
  | encodeUtf8
  | decodeUtf8
  | ifThenElse
  | chooseUnit
  | trace
  | fstPair
  | sndPair
  | chooseList
  | mkCons
  | headList
  | tailList
  | nullList
  | chooseData
  | constrData
  | mapData
  | listData
  | iData
  | bData
  | unConstrData
  | unMapData
  | unListData
  | unIData
  | unBData
  | equalsData
  | mkPairData
  | mkNilData
  | mkNilPairData
  | serialiseData
  | lengthOfArray
  | listToArray
  | indexArray
  /-- A number that names no builtin. -/
  | unknown (code : UInt8)
  deriving DecidableEq

namespace Builtin

/-- The known builtins in the order of their numbers. -/
def all : List Builtin := [
  .addInteger, .subtractInteger, .multiplyInteger, .divideInteger, .quotientInteger,
  .remainderInteger, .modInteger, .equalsInteger, .lessThanInteger,
  .lessThanEqualsInteger, .appendByteString, .consByteString, .sliceByteString,
  .lengthOfByteString, .indexByteString, .equalsByteString, .lessThanByteString,
  .lessThanEqualsByteString, .sha2_256, .sha3_256, .blake2b_256, .appendString,
  .equalsString, .encodeUtf8, .decodeUtf8, .ifThenElse, .chooseUnit, .trace, .fstPair,
  .sndPair, .chooseList, .mkCons, .headList, .tailList, .nullList, .chooseData,
  .constrData, .mapData, .listData, .iData, .bData, .unConstrData, .unMapData,
  .unListData, .unIData, .unBData, .equalsData, .mkPairData, .mkNilData, .mkNilPairData,
  .serialiseData, .lengthOfArray, .listToArray, .indexArray]

def ofCode (code : UInt8) : Builtin :=
  (all[code.toNat]?).getD (.unknown code)

/-- What is known of a builtin. -/
structure Info where
  name : String
  arity : Nat
  forces : Nat
  since : Version

def info : Builtin → Info
  | .addInteger => ⟨"addInteger", 2, 0, .v1⟩
  | .subtractInteger => ⟨"subtractInteger", 2, 0, .v1⟩
  | .multiplyInteger => ⟨"multiplyInteger", 2, 0, .v1⟩
  | .divideInteger => ⟨"divideInteger", 2, 0, .v1⟩
  | .quotientInteger => ⟨"quotientInteger", 2, 0, .v1⟩
  | .remainderInteger => ⟨"remainderInteger", 2, 0, .v1⟩
  | .modInteger => ⟨"modInteger", 2, 0, .v1⟩
  | .equalsInteger => ⟨"equalsInteger", 2, 0, .v1⟩
  | .lessThanInteger => ⟨"lessThanInteger", 2, 0, .v1⟩
  | .lessThanEqualsInteger => ⟨"lessThanEqualsInteger", 2, 0, .v1⟩
  | .appendByteString => ⟨"appendByteString", 2, 0, .v1⟩
  | .consByteString => ⟨"consByteString", 2, 0, .v1⟩
  | .sliceByteString => ⟨"sliceByteString", 3, 0, .v1⟩
  | .lengthOfByteString => ⟨"lengthOfByteString", 1, 0, .v1⟩
  | .indexByteString => ⟨"indexByteString", 2, 0, .v1⟩
  | .equalsByteString => ⟨"equalsByteString", 2, 0, .v1⟩
  | .lessThanByteString => ⟨"lessThanByteString", 2, 0, .v1⟩
  | .lessThanEqualsByteString => ⟨"lessThanEqualsByteString", 2, 0, .v1⟩
  | .sha2_256 => ⟨"sha2_256", 1, 0, .v1⟩
  | .sha3_256 => ⟨"sha3_256", 1, 0, .v1⟩
  | .blake2b_256 => ⟨"blake2b_256", 1, 0, .v1⟩
  | .appendString => ⟨"appendString", 2, 0, .v1⟩
  | .equalsString => ⟨"equalsString", 2, 0, .v1⟩
  | .encodeUtf8 => ⟨"encodeUtf8", 1, 0, .v1⟩
  | .decodeUtf8 => ⟨"decodeUtf8", 1, 0, .v1⟩
  | .ifThenElse => ⟨"ifThenElse", 3, 1, .v1⟩
  | .chooseUnit => ⟨"chooseUnit", 2, 1, .v1⟩
  | .trace => ⟨"trace", 2, 1, .v1⟩
  | .fstPair => ⟨"fstPair", 1, 2, .v1⟩
  | .sndPair => ⟨"sndPair", 1, 2, .v1⟩
  | .chooseList => ⟨"chooseList", 3, 2, .v1⟩
  | .mkCons => ⟨"mkCons", 2, 1, .v1⟩
  | .headList => ⟨"headList", 1, 1, .v1⟩
  | .tailList => ⟨"tailList", 1, 1, .v1⟩
  | .nullList => ⟨"nullList", 1, 1, .v1⟩
  | .chooseData => ⟨"chooseData", 6, 1, .v1⟩
  | .constrData => ⟨"constrData", 2, 0, .v1⟩
  | .mapData => ⟨"mapData", 1, 0, .v1⟩
  | .listData => ⟨"listData", 1, 0, .v1⟩
  | .iData => ⟨"iData", 1, 0, .v1⟩
  | .bData => ⟨"bData", 1, 0, .v1⟩
  | .unConstrData => ⟨"unConstrData", 1, 0, .v1⟩
  | .unMapData => ⟨"unMapData", 1, 0, .v1⟩
  | .unListData => ⟨"unListData", 1, 0, .v1⟩
  | .unIData => ⟨"unIData", 1, 0, .v1⟩
  | .unBData => ⟨"unBData", 1, 0, .v1⟩
  | .equalsData => ⟨"equalsData", 2, 0, .v1⟩
  | .mkPairData => ⟨"mkPairData", 2, 0, .v1⟩
  | .mkNilData => ⟨"mkNilData", 1, 0, .v1⟩
  | .mkNilPairData => ⟨"mkNilPairData", 1, 0, .v1⟩
  | .serialiseData => ⟨"serialiseData", 1, 0, .v2⟩
  | .lengthOfArray => ⟨"lengthOfArray", 1, 1, .v4⟩
  | .listToArray => ⟨"listToArray", 1, 1, .v4⟩
  | .indexArray => ⟨"indexArray", 2, 1, .v4⟩
  | .unknown code => ⟨"builtin(" ++ toString code.toNat ++ ")", 0, 0, .unknown⟩

/-- The name under which programs mention the builtin. -/
def name (f : Builtin) : String := f.info.name

def arity (f : Builtin) : Nat := f.info.arity

/-- How often the builtin is forced before it takes arguments. -/
def forces (f : Builtin) : Nat := f.info.forces

def since (f : Builtin) : Version := f.info.since

def isKnown : Builtin → Bool
  | .unknown _ => false
  | _ => true

/-- Whether a program for version `v` may use the builtin. -/
def availableIn (f : Builtin) (v : Version) : Bool :=
  f.isKnown && f.since.rank ≤ v.rank

def code : Builtin → UInt8
  | .unknown code => code
  | f => UInt8.ofNat (all.idxOf f)

def ofName? (name : String) : Option Builtin :=
  all.find? (·.name == name)

end Builtin

end CoreLowering
