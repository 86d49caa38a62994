import CoreLowering.Interchange.Record
import CoreLowering.Text.Utf8
import CoreLowering.Typed.Expr

/-!
# What records mean

A record names its kind by a number and has every field; what it means has
only the parts that its kind uses.  A part that the kind needs and the record
lacks is missing in the meaning too.
-/

namespace CoreLowering.Interchange

/-- The text of bytes, with a mark in place of what is not valid. -/
def textOf (b : Bytes) : String := Utf8.lenientText b

mutual

/-- The structured value that a record means. -/
def DataRecord.toData : DataRecord → Data
  | ⟨kind, tag, fields, entries, int, bytes⟩ =>
    match kind with
    | 0 => .constr tag (toDataAll fields)
    | 1 => .map (toDataEntries entries)
    | 2 => .list (toDataAll fields)
    | 3 => .int int
    | 4 => .bytes bytes
    | k => .unknown k

/-- The values of records, one after the other. -/
def toDataAll : List DataRecord → List Data
  | [] => []
  | d :: ds => d.toData :: toDataAll ds

/-- The keys and values of a map. -/
def toDataEntries : List (DataRecord × DataRecord) → List (Data × Data)
  | [] => []
  | (k, v) :: es => (k.toData, v.toData) :: toDataEntries es

end

mutual

/-- The type of a constant. -/
def ConstTypeRecord.toConstType : ConstTypeRecord → ConstType
  | ⟨kind, elem, snd⟩ =>
    match kind with
    | 0 => .integer
    | 1 => .byteString
    | 2 => .string
    | 3 => .unit
    | 4 => .bool
    | 5 => .data
    | 6 => .list (toConstType? elem)
    | 7 => .pair (toConstType? elem) (toConstType? snd)
    | 8 => .array (toConstType? elem)
    | k => .unknown k

/-- The type of a constant; one that is left out is not known. -/
def toConstType? : Option ConstTypeRecord → ConstType
  | none => .unknown 255
  | some t => t.toConstType

end

mutual

/-- The constant of a record, which looks at the fields that its type uses. -/
def ConstRecord.toConstant : ConstRecord → Constant
  | ⟨type, int, bytes, text, bool, data, items⟩ =>
    match type.toConstType with
    | .integer => .integer int
    | .byteString => .byteString bytes
    | .string => .string (textOf text)
    | .unit => .unit
    | .bool => .bool bool
    | .data =>
      match data with
      | some d => .data d.toData
      | none => .noData
    | .list e => .list e (toConstants items)
    | .pair a b => .pair a b (toConstants items)
    | .array e => .array e (toConstants items)
    | .unknown k => .unknown k

def toConstants : List ConstRecord → List Constant
  | [] => []
  | c :: cs => c.toConstant :: toConstants cs

end

/-- The type variable of a record, whatever its kind. -/
def TypeRecord.toVar (t : TypeRecord) : TyVar :=
  ⟨textOf t.name, t.id, t.builtin⟩

/-- Type variables, without those that are left out. -/
def toVars (ts : List (Option TypeRecord)) : List TyVar :=
  ts.filterMap fun t => t.map TypeRecord.toVar

mutual

/-- The type that a record means. -/
def TypeRecord.toTy : TypeRecord → Ty
  | ⟨kind, name, constr, args, params, id, builtin⟩ =>
    match kind with
    | 1 => .con .integer (toTys args)
    | 2 => .con .byteString (toTys args)
    | 3 => .con .string (toTys args)
    | 4 => .con .boolean (toTys args)
    | 5 => .con .unit (toTys args)
    | 6 => .con .data (toTys args)
    | 7 => .con .builtinList (toTys args)
    | 8 => .con .builtinPair (toTys args)
    | 9 => .con .builtinArray (toTys args)
    | 10 => .con (.sum (textOf name)) (toTys args)
    | 11 => .con (.caseClass (textOf name) (textOf constr)) (toTys args)
    | 12 => .con .fn (toTys args)
    | 13 => .var ⟨textOf name, id, builtin⟩
    | 14 => .all (toVars params) ((toTys args).headD .missing)
    | 15 => .con .nothing (toTys args)
    | 16 => .con .free (toTys args)
    | k => .con (.unknown k) (toTys args)

def toTys : List (Option TypeRecord) → List Ty
  | [] => []
  | none :: ts => .missing :: toTys ts
  | some t :: ts => t.toTy :: toTys ts

end

/-- A type that is left out is missing. -/
def toTy? : Option TypeRecord → Ty
  | none => .missing
  | some t => t.toTy

/-- The declaration of a type with its constructors and their fields. -/
def DeclRecord.toDecl (d : DeclRecord) : Decl :=
  { name := textOf d.name
    params := toVars d.params
    constructors := (d.constructors.getD []).map fun c =>
      ⟨textOf c.name, c.fields.map fun f => ⟨textOf f.name, toTy? f.type⟩⟩ }

mutual

/-- The expression that a record means. -/
def ExprRecord.toExpr : ExprRecord → Expr
  | ⟨kind, type, span, name, const, builtin, decl, recursive, bindings, paramType, body, fn, arg,
      operands, arms⟩ =>
    .node (toTy? type) span
      (match kind with
      | 1 => .var (textOf name)
      | 2 => .const (const.map ConstRecord.toConstant)
      | 3 => .letIn recursive (toBindings bindings) (toExpr? body)
      | 4 => .lam (textOf name) (toTy? paramType) (toExpr? body)
      | 5 => .apply (toExpr? fn) (toExpr? arg)
      | 6 => .select (textOf name) (toExprs operands)
      | 7 => .operator .and (toExprs operands)
      | 8 => .operator .or (toExprs operands)
      | 9 => .operator .not (toExprs operands)
      | 10 => .operator .ifThenElse (toExprs operands)
      | 11 => .builtin (.ofCode builtin)
      | 12 => .error (textOf name)
      | 13 => .constr (textOf decl) (textOf name) (toExprs operands)
      | 14 => .matchOn (toExprs operands) (toArms arms)
      | 15 => .operator .cast (toExprs operands)
      | k => .unknown k)

/-- An expression that is left out is missing. -/
def toExpr? : Option ExprRecord → Expr
  | none => .missing
  | some e => e.toExpr

def toExprs : List (Option ExprRecord) → List Expr
  | [] => []
  | e :: es => toExpr? e :: toExprs es

/-- The bindings of a block. -/
def toBindings : List BindingRecord → List Binding
  | [] => []
  | ⟨name, type, value, span⟩ :: bs =>
    ⟨textOf name, toTy? type, toExpr? value, span⟩ :: toBindings bs

/-- The arms of a match. -/
def toArms : List ArmRecord → List Arm
  | [] => []
  | ⟨constr, binders, body, span⟩ :: as =>
    ⟨textOf constr, binders.map textOf, toExpr? body, span⟩ :: toArms as

end

/-- The unit that a record means, without declarations that are left out. -/
def ModuleRecord.toModule (m : ModuleRecord) : Module :=
  { name := textOf m.name
    decls := m.decls.filterMap fun d => d.map DeclRecord.toDecl
    root := toExpr? m.root }

mutual

/-- The record of a structured value, with zeros in the fields of other kinds.
-/
def DataRecord.ofData : Data → DataRecord
  | .constr tag fields => { kind := 0, tag, fields := ofDataAll fields }
  | .map entries => { kind := 1, entries := ofDataEntries entries }
  | .list items => { kind := 2, fields := ofDataAll items }
  | .int n => { kind := 3, int := n }
  | .bytes bytes => { kind := 4, bytes }
  | .unknown kind => { kind }

def ofDataAll : List Data → List DataRecord
  | [] => []
  | d :: ds => DataRecord.ofData d :: ofDataAll ds

def ofDataEntries : List (Data × Data) → List (DataRecord × DataRecord)
  | [] => []
  | (k, v) :: es => (DataRecord.ofData k, DataRecord.ofData v) :: ofDataEntries es

end

/-- The record of the type of a constant. -/
def ConstTypeRecord.ofConstType : ConstType → ConstTypeRecord
  | .integer => { kind := 0 }
  | .byteString => { kind := 1 }
  | .string => { kind := 2 }
  | .unit => { kind := 3 }
  | .bool => { kind := 4 }
  | .data => { kind := 5 }
  | .list e => { kind := 6, elem := some (ofConstType e) }
  | .pair a b => { kind := 7, elem := some (ofConstType a), snd := some (ofConstType b) }
  | .array e => { kind := 8, elem := some (ofConstType e) }
  | .unknown kind => { kind }

mutual

/-- The record of a constant. -/
def ConstRecord.ofConstant : Constant → ConstRecord
  | .integer int => { type := .ofConstType .integer, int }
  | .byteString bytes => { type := .ofConstType .byteString, bytes }
  | .string s => { type := .ofConstType .string, text := Bytes.ofString s }
  | .unit => { type := .ofConstType .unit }
  | .bool bool => { type := .ofConstType .bool, bool }
  | .data d => { type := .ofConstType .data, data := some (.ofData d) }
  | .noData => { type := .ofConstType .data }
  | .list e xs => { type := .ofConstType (.list e), items := ofConstants xs }
  | .pair a b xs => { type := .ofConstType (.pair a b), items := ofConstants xs }
  | .array e xs => { type := .ofConstType (.array e), items := ofConstants xs }
  | .unknown k => { type := .ofConstType (.unknown k) }

def ofConstants : List Constant → List ConstRecord
  | [] => []
  | c :: cs => ConstRecord.ofConstant c :: ofConstants cs

end

end CoreLowering.Interchange
