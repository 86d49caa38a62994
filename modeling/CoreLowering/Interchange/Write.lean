import CoreLowering.Interchange.Record
import CoreLowering.MsgPack.Msg

/-!
# Writing records

A record is written as a map from short names, in a fixed order.  Fields that
hold nothing are left out, except those that every record of its kind has.
The integer of a value travels as its decimal text, and only where the kind
asks for one.
-/

namespace CoreLowering.Interchange

/-- The kind of structured values that are integers. -/
def integerDataKind : UInt8 := 3

/-- The kind of constant types that are integers. -/
def integerConstKind : UInt8 := 0

def decimal (n : Int) : Msg := .text (toString n)

def orNil {α : Type} (write : α → Msg) : Option α → Msg
  | none => .nil
  | some a => write a

def spanMsg (s : Span) : Msg :=
  .fields [("File", .word s.file), ("Start", .word s.start), ("End", .word s.stop)]

/-- The fields of a structured value, given its parts. -/
def dataFields (kind : UInt8) (tag : UInt64) (fields entries : List Msg) (int : Int)
    (bytes : Bytes) : Msg :=
  .fields
    ([("k", .byte kind)]
      ++ Msg.optional (tag != 0) "t" (.long tag)
      ++ Msg.optional (!fields.isEmpty) "f" (.arr fields)
      ++ Msg.optional (!entries.isEmpty) "m" (.arr entries)
      ++ Msg.optional (kind = integerDataKind) "i" (decimal int)
      ++ Msg.optional (!bytes.isEmpty) "b" (.bin bytes))

mutual

/-- A structured value as a message. -/
def DataRecord.toMsg : DataRecord → Msg
  | ⟨kind, tag, fields, entries, int, bytes⟩ =>
    dataFields kind tag (dataMsgs fields) (entryMsgs entries) int bytes

/-- Structured values as messages. -/
def dataMsgs : List DataRecord → List Msg
  | [] => []
  | d :: ds => d.toMsg :: dataMsgs ds

def entryMsgs : List (DataRecord × DataRecord) → List Msg
  | [] => []
  | (k, v) :: es => .fields [("Key", k.toMsg), ("Value", v.toMsg)] :: entryMsgs es

end

def ConstTypeRecord.toMsg : ConstTypeRecord → Msg
  | ⟨kind, none, none⟩ => .fields [("k", .byte kind)]
  | ⟨kind, some e, none⟩ => .fields [("k", .byte kind), ("e", e.toMsg)]
  | ⟨kind, none, some s⟩ => .fields [("k", .byte kind), ("s", s.toMsg)]
  | ⟨kind, some e, some s⟩ => .fields [("k", .byte kind), ("e", e.toMsg), ("s", s.toMsg)]

mutual

def ConstRecord.toMsg : ConstRecord → Msg
  | ⟨type, int, bytes, text, bool, data, items⟩ =>
    .fields
      ([("t", type.toMsg)]
        ++ Msg.optional (type.kind = integerConstKind) "i" (decimal int)
        ++ Msg.optional (!bytes.isEmpty) "b" (.bin bytes)
        ++ Msg.optional (!text.isEmpty) "s" (.str text)
        ++ Msg.optional bool "o" (.bool true)
        ++ Msg.optional data.isSome "d" (orNil DataRecord.toMsg data)
        ++ Msg.optional (!items.isEmpty) "l" (.arr (constMsgs items)))

def constMsgs : List ConstRecord → List Msg
  | [] => []
  | c :: cs => c.toMsg :: constMsgs cs

end

mutual

def TypeRecord.toMsg : TypeRecord → Msg
  | ⟨kind, name, constr, args, params, id, builtin⟩ =>
    .fields
      ([("k", .byte kind)]
        ++ Msg.optional (!name.isEmpty) "n" (.str name)
        ++ Msg.optional (!constr.isEmpty) "c" (.str constr)
        ++ Msg.optional (!args.isEmpty) "a" (.arr (typeMsgs args))
        ++ Msg.optional (!params.isEmpty) "p" (.arr (typeMsgs params))
        ++ Msg.optional (id != 0) "i" (.word id)
        ++ Msg.optional builtin "b" (.bool true))

def typeMsgs : List (Option TypeRecord) → List Msg
  | [] => []
  | none :: ts => .nil :: typeMsgs ts
  | some t :: ts => t.toMsg :: typeMsgs ts

end

def typeMsg (t : Option TypeRecord) : Msg :=
  orNil TypeRecord.toMsg t

def FieldRecord.toMsg (f : FieldRecord) : Msg :=
  .fields [("name", .str f.name), ("type", typeMsg f.type)]

def ConstructorRecord.toMsg (c : ConstructorRecord) : Msg :=
  .fields
    ([("name", .str c.name)]
      ++ Msg.optional (!c.fields.isEmpty) "params" (.arr (c.fields.map FieldRecord.toMsg)))

/-- A declared type as a message. -/
def DeclRecord.toMsg (d : DeclRecord) : Msg :=
  .fields
    ([("name", .str d.name)]
      ++ Msg.optional (!d.params.isEmpty) "tparams" (.arr (typeMsgs d.params))
      ++ [("constrs", orNil (fun cs => .arr (cs.map ConstructorRecord.toMsg)) d.constructors)])

mutual

def ExprRecord.toMsg : ExprRecord → Msg
  | ⟨kind, type, span, name, const, builtin, decl, recursive, bindings, paramType, body, fn, arg,
      operands, arms⟩ =>
    .fields
      ([("k", .byte kind), ("t", typeMsg type), ("sp", spanMsg span)]
        ++ Msg.optional (!name.isEmpty) "n" (.str name)
        ++ Msg.optional const.isSome "c" (orNil ConstRecord.toMsg const)
        ++ Msg.optional (builtin != 0) "bi" (.byte builtin)
        ++ Msg.optional (!decl.isEmpty) "d" (.str decl)
        ++ Msg.optional recursive "rec" (.bool true)
        ++ Msg.optional (!bindings.isEmpty) "bs" (.arr (bindingMsgs bindings))
        ++ Msg.optional paramType.isSome "pt" (typeMsg paramType)
        ++ Msg.optional body.isSome "b" (exprMsg body)
        ++ Msg.optional fn.isSome "f" (exprMsg fn)
        ++ Msg.optional arg.isSome "a" (exprMsg arg)
        ++ Msg.optional (!operands.isEmpty) "o" (.arr (exprMsgs operands))
        ++ Msg.optional (!arms.isEmpty) "cs" (.arr (armMsgs arms)))

def exprMsg : Option ExprRecord → Msg
  | none => .nil
  | some e => e.toMsg

def exprMsgs : List (Option ExprRecord) → List Msg
  | [] => []
  | e :: es => exprMsg e :: exprMsgs es

def BindingRecord.toMsg : BindingRecord → Msg
  | ⟨name, type, value, span⟩ =>
    .fields [("n", .str name), ("t", typeMsg type), ("v", exprMsg value), ("sp", spanMsg span)]

def bindingMsgs : List BindingRecord → List Msg
  | [] => []
  | b :: bs => b.toMsg :: bindingMsgs bs

def ArmRecord.toMsg : ArmRecord → Msg
  | ⟨constr, binders, body, span⟩ =>
    .fields
      ([("c", .str constr)]
        ++ Msg.optional (!binders.isEmpty) "b" (.arr (binders.map .str))
        ++ [("e", exprMsg body), ("sp", spanMsg span)])

def armMsgs : List ArmRecord → List Msg
  | [] => []
  | a :: as => a.toMsg :: armMsgs as

end

def ModuleRecord.toMsg (m : ModuleRecord) : Msg :=
  .fields
    ([("name", .str m.name)]
      ++ Msg.optional (!m.decls.isEmpty) "decls" (.arr (m.decls.map (orNil DeclRecord.toMsg)))
      ++ [("root", exprMsg m.root)])

def ModuleRecord.encode (m : ModuleRecord) : Bytes :=
  m.toMsg.encode

end CoreLowering.Interchange
