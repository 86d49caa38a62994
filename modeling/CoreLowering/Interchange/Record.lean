import CoreLowering.Source.Span
import CoreLowering.Text.Hex

/-!
# Records of the interchange format

A unit comes as records in which every part has all fields, whether its kind
uses them or not.  The records keep what was read, so that a unit can be
written again as it was.  Texts are byte strings here, because nothing
promises that they are valid.
-/

namespace CoreLowering.Interchange

/-- A structured value as it is sent. -/
structure DataRecord where
  kind : UInt8 := 0
  tag : UInt64 := 0
  fields : List DataRecord := []
  entries : List (DataRecord × DataRecord) := []
  int : Int := 0
  bytes : Bytes := []

/-- The type of a constant as it is sent. -/
structure ConstTypeRecord where
  kind : UInt8 := 0
  elem : Option ConstTypeRecord := none
  snd : Option ConstTypeRecord := none

/-- A constant as it is sent. -/
structure ConstRecord where
  type : ConstTypeRecord := {}
  int : Int := 0
  bytes : Bytes := []
  text : Bytes := []
  bool : Bool := false
  data : Option DataRecord := none
  items : List ConstRecord := []

/-- A type as it is sent. -/
structure TypeRecord where
  kind : UInt8 := 0
  name : Bytes := []
  constr : Bytes := []
  args : List (Option TypeRecord) := []
  params : List (Option TypeRecord) := []
  id : UInt32 := 0
  builtin : Bool := false

structure FieldRecord where
  name : Bytes := []
  type : Option TypeRecord := none

structure ConstructorRecord where
  name : Bytes := []
  fields : List FieldRecord := []

/-- A declared type; the list of its constructors may be left out. -/
structure DeclRecord where
  name : Bytes := []
  params : List (Option TypeRecord) := []
  constructors : Option (List ConstructorRecord) := none

mutual

/-- An expression as it is sent. -/
structure ExprRecord where
  kind : UInt8 := 0
  type : Option TypeRecord := none
  span : Span := .none
  name : Bytes := []
  const : Option ConstRecord := none
  builtin : UInt8 := 0
  decl : Bytes := []
  recursive : Bool := false
  bindings : List BindingRecord := []
  paramType : Option TypeRecord := none
  body : Option ExprRecord := none
  fn : Option ExprRecord := none
  arg : Option ExprRecord := none
  operands : List (Option ExprRecord) := []
  arms : List ArmRecord := []

structure BindingRecord where
  name : Bytes := []
  type : Option TypeRecord := none
  value : Option ExprRecord := none
  span : Span := .none

structure ArmRecord where
  constr : Bytes := []
  binders : List Bytes := []
  body : Option ExprRecord := none
  span : Span := .none

end

/-- A unit; a declaration may be left out from the list. -/
structure ModuleRecord where
  name : Bytes := []
  decls : List (Option DeclRecord) := []
  root : Option ExprRecord := none

end CoreLowering.Interchange
