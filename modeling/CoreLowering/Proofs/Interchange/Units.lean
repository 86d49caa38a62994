import CoreLowering.Interchange.Program
import CoreLowering.Proofs.Interchange.Records

/-!
# Units and programs come back

The integer of a constant or of a structured value is written only where the
kind asks for one.  `carried` is the record with zero for the integers that
are not written; everything else of a record is written, or holds nothing.
-/

namespace CoreLowering.Interchange

/-! ## What is carried over -/

mutual

/-- A structured value as it comes back. -/
def DataRecord.carried : DataRecord → DataRecord
  | ⟨kind, tag, fields, entries, int, bytes⟩ =>
    ⟨kind, tag, carriedData fields, carriedEntries entries,
      if kind = integerDataKind then int else 0, bytes⟩

/-- Structured values as they come back. -/
def carriedData : List DataRecord → List DataRecord
  | [] => []
  | d :: ds => d.carried :: carriedData ds

/-- Entries as they come back. -/
def carriedEntries : List (DataRecord × DataRecord) → List (DataRecord × DataRecord)
  | [] => []
  | (k, v) :: es => (k.carried, v.carried) :: carriedEntries es

end

mutual

/-- A constant as it comes back. -/
def ConstRecord.carried : ConstRecord → ConstRecord
  | ⟨type, int, bytes, text, bool, data, items⟩ =>
    ⟨type, if type.kind = integerConstKind then int else 0, bytes, text, bool,
      data.map DataRecord.carried, carriedConsts items⟩

/-- Constants as they come back. -/
def carriedConsts : List ConstRecord → List ConstRecord
  | [] => []
  | c :: cs => c.carried :: carriedConsts cs

end

mutual

/-- An expression as it comes back. -/
def ExprRecord.carried : ExprRecord → ExprRecord
  | ⟨kind, type, span, name, const, builtin, decl, recursive, bindings, paramType, body, fn, arg,
      operands, arms⟩ =>
    ⟨kind, type, span, name, const.map ConstRecord.carried, builtin, decl, recursive,
      carriedBindings bindings, paramType, carriedExpr body, carriedExpr fn, carriedExpr arg,
      carriedExprs operands, carriedArms arms⟩

/-- An expression that may be missing, as it comes back. -/
def carriedExpr : Option ExprRecord → Option ExprRecord
  | none => none
  | some e => some e.carried

/-- Expressions as they come back. -/
def carriedExprs : List (Option ExprRecord) → List (Option ExprRecord)
  | [] => []
  | e :: es => carriedExpr e :: carriedExprs es

/-- A binding as it comes back. -/
def BindingRecord.carried : BindingRecord → BindingRecord
  | ⟨name, type, value, span⟩ => ⟨name, type, carriedExpr value, span⟩

/-- Bindings as they come back. -/
def carriedBindings : List BindingRecord → List BindingRecord
  | [] => []
  | b :: bs => b.carried :: carriedBindings bs

/-- An arm as it comes back. -/
def ArmRecord.carried : ArmRecord → ArmRecord
  | ⟨constr, binders, body, span⟩ => ⟨constr, binders, carriedExpr body, span⟩

/-- Arms as they come back. -/
def carriedArms : List ArmRecord → List ArmRecord
  | [] => []
  | a :: as => a.carried :: carriedArms as

end

/-- A unit as it comes back. -/
def ModuleRecord.carried (m : ModuleRecord) : ModuleRecord :=
  { m with root := m.root.map ExprRecord.carried }

mutual

/-- A term as it comes back. -/
def TermRecord.carried : TermRecord → TermRecord
  | ⟨kind, name, body, fn, arg, const, builtin, tag, args, scrutinee⟩ =>
    ⟨kind, name, carriedTerm body, carriedTerm fn, carriedTerm arg,
      const.map ConstRecord.carried, builtin, tag, carriedTerms args, carriedTerm scrutinee⟩

/-- A term that may be missing, as it comes back. -/
def carriedTerm : Option TermRecord → Option TermRecord
  | none => none
  | some t => some t.carried

/-- Terms as they come back. -/
def carriedTerms : List (Option TermRecord) → List (Option TermRecord)
  | [] => []
  | t :: ts => carriedTerm t :: carriedTerms ts

end

/-- A program as it comes back. -/
def ProgramRecord.carried (p : ProgramRecord) : ProgramRecord :=
  { p with term := p.term.map TermRecord.carried }

/-! ## Spans and types -/

theorem readSpan_spanMsg (bound : Nat) : Reads bound readSpan spanMsg id := by
  intro s hbound
  refine Fills.readRecord ?_ (Nat.le_succ_of_le hbound)
  refine .field rfl rfl (fun _ => readWord_word _) ?_
  refine .field rfl rfl (fun _ => readWord_word _) ?_
  refine .field rfl rfl (fun _ => readWord_word _) ?_
  exact .nil

theorem readSpan_over {bound : Nat} (s : Span) (h : (spanMsg s).encode.length ≤ bound) :
    readSpan (some .none) (spanMsg s) = .ok s :=
  (readRecord_some_empty _).trans (readSpan_spanMsg bound s h)

theorem typeMsgs_eq (ts : List (Option TypeRecord)) :
    typeMsgs ts = ts.map (orNil TypeRecord.toMsg) := by
  induction ts with
  | nil => rfl
  | cons t ts ih => cases t <;> exact congrArg (_ :: ·) ih

theorem TypeRecord.isRecord (t : TypeRecord) : IsRecord t.toMsg := by
  cases t
  exact ⟨_, rfl⟩

theorem readTypeIn_toMsg (fuel : Nat) : Reads fuel (readTypeIn fuel) TypeRecord.toMsg id := by
  induction fuel with
  | zero => exact .zero TypeRecord.isRecord
  | succ fuel ih =>
    intro t hbound
    obtain ⟨kind, name, constr, args, params, id, builtin⟩ := t
    rw [TypeRecord.toMsg, typeMsgs_eq, typeMsgs_eq] at *
    refine Fills.readRecord ?_ hbound
    simp only [List.append_assoc, List.cons_append, List.nil_append]
    refine .field rfl rfl (fun _ => readByte_byte _) ?_
    refine .bytes rfl rfl rfl rfl ?_
    refine .bytes rfl rfl rfl rfl ?_
    refine .options rfl rfl rfl ih TypeRecord.isRecord ?_
    refine .options rfl rfl rfl ih TypeRecord.isRecord ?_
    refine .optional rfl rfl rfl (fun _ _ => readWord_word _) (by simp) ?_
    refine .flag rfl rfl rfl ?_
    exact .done (by simp)

/-! ## Structured values -/

/-- An entry as a message. -/
def entryMsg (e : DataRecord × DataRecord) : Msg :=
  .fields [("Key", e.1.toMsg), ("Value", e.2.toMsg)]

theorem dataMsgs_eq (ds : List DataRecord) : dataMsgs ds = ds.map DataRecord.toMsg := by
  induction ds with
  | nil => rfl
  | cons d ds ih => exact congrArg (_ :: ·) ih

theorem entryMsgs_eq (es : List (DataRecord × DataRecord)) : entryMsgs es = es.map entryMsg := by
  induction es with
  | nil => rfl
  | cons e es ih => exact congrArg (_ :: ·) ih

theorem carriedData_eq (ds : List DataRecord) : carriedData ds = ds.map DataRecord.carried := by
  induction ds with
  | nil => rfl
  | cons d ds ih => exact congrArg (_ :: ·) ih

theorem carriedEntries_eq (es : List (DataRecord × DataRecord)) :
    carriedEntries es = es.map fun e => (e.1.carried, e.2.carried) := by
  induction es with
  | nil => rfl
  | cons e es ih => exact congrArg (_ :: ·) ih

theorem DataRecord.isRecord (d : DataRecord) : IsRecord d.toMsg := by
  cases d
  exact ⟨_, rfl⟩

theorem readEntry_entryMsg {bound : Nat} {read : Msg → Read DataRecord}
    (hread : Reads bound (anew read) DataRecord.toMsg DataRecord.carried) :
    Reads bound (readEntry read) entryMsg fun e => (e.1.carried, e.2.carried) := by
  intro e hbound
  refine Fills.readRecord ?_ (Nat.le_succ_of_le hbound)
  refine .field rfl rfl (hread e.1) ?_
  refine .field rfl rfl (hread e.2) ?_
  exact .nil

theorem readDataIn_toMsg (fuel : Nat) :
    Reads fuel (anew (readDataIn fuel)) DataRecord.toMsg DataRecord.carried := by
  induction fuel with
  | zero => exact .zero DataRecord.isRecord
  | succ fuel ih =>
    intro d hbound
    obtain ⟨kind, tag, fields, entries, int, bytes⟩ := d
    rw [DataRecord.toMsg, dataFields, dataMsgs_eq, entryMsgs_eq, List.isEmpty_map,
      List.isEmpty_map] at *
    rw [DataRecord.carried, carriedData_eq, carriedEntries_eq]
    let d : DataRecord := ⟨kind, tag, fields.map DataRecord.carried,
      entries.map fun e => (e.1.carried, e.2.carried), 0, bytes⟩
    -- The digits stand beside the record until all fields are there.
    rw [anew, readDataIn, readDataWith,
      Fills.readRecord (b := (d, digits (kind = integerDataKind) int)) ?_ hbound]
    · change (if kind = integerDataKind then _ else _) = _
      by_cases hkind : kind = integerDataKind
      · have hdigits : digits (kind = integerDataKind) int = Bytes.ofString (toString int) :=
          if_pos (decide_eq_true hkind)
        rw [if_pos hkind, if_pos hkind, hdigits, integer?_decimal]
        rfl
      · rw [if_neg hkind, if_neg hkind]
        rfl
    · simp only [List.append_assoc, List.cons_append, List.nil_append]
      refine .field rfl rfl (fun _ => readByte_byte _) ?_
      refine .optional rfl rfl rfl (fun _ _ => readLong_long _) (by simp) ?_
      refine .list rfl rfl rfl ih ?_
      refine .list rfl rfl rfl (readEntry_entryMsg ih) ?_
      refine .digits rfl rfl rfl ?_
      refine .bytes rfl rfl rfl rfl ?_
      exact .nil

/-! ## Constants -/

/-- The parts of the type of a constant are left out where they are none. -/
theorem ConstTypeRecord.toMsg_eq (t : ConstTypeRecord) :
    t.toMsg = .fields ([("k", .byte t.kind)] ++ Msg.optional t.elem.isSome "e" (orNil toMsg t.elem)
      ++ Msg.optional t.snd.isSome "s" (orNil toMsg t.snd)) := by
  obtain ⟨kind, elem, snd⟩ := t
  cases elem <;> cases snd <;> rw [toMsg] <;> rfl

theorem ConstTypeRecord.isRecord (t : ConstTypeRecord) : IsRecord t.toMsg :=
  ⟨_, t.toMsg_eq⟩

theorem readConstTypeIn_toMsg (fuel : Nat) :
    Reads fuel (readConstTypeIn fuel) ConstTypeRecord.toMsg id := by
  induction fuel with
  | zero => exact .zero ConstTypeRecord.isRecord
  | succ fuel ih =>
    intro t hbound
    obtain ⟨kind, elem, snd⟩ := t
    rw [ConstTypeRecord.toMsg_eq] at *
    refine Fills.readRecord ?_ hbound
    simp only [List.append_assoc, List.cons_append, List.nil_append]
    refine .field rfl rfl (fun _ => readByte_byte _) ?_
    refine .option rfl rfl rfl ih ConstTypeRecord.isRecord ?_
    refine .option rfl rfl rfl ih ConstTypeRecord.isRecord ?_
    exact .done (by simp)

theorem readConstTypeIn_some_empty (fuel : Nat) (m : Msg) :
    readConstTypeIn fuel (some {}) m = readConstTypeIn fuel none m := by
  cases fuel with
  | zero => rfl
  | succ fuel => exact readRecord_some_empty m

theorem constMsgs_eq (cs : List ConstRecord) : constMsgs cs = cs.map ConstRecord.toMsg := by
  induction cs with
  | nil => rfl
  | cons c cs ih => exact congrArg (_ :: ·) ih

theorem carriedConsts_eq (cs : List ConstRecord) :
    carriedConsts cs = cs.map ConstRecord.carried := by
  induction cs with
  | nil => rfl
  | cons c cs ih => exact congrArg (_ :: ·) ih

theorem ConstRecord.isRecord (c : ConstRecord) : IsRecord c.toMsg := by
  cases c
  exact ⟨_, rfl⟩

theorem readConstIn_toMsg (fuel : Nat) :
    Reads fuel (anew (readConstIn fuel)) ConstRecord.toMsg ConstRecord.carried := by
  induction fuel with
  | zero => exact .zero ConstRecord.isRecord
  | succ fuel ih =>
    intro c hbound
    obtain ⟨type, int, bytes, text, bool, data, items⟩ := c
    rw [ConstRecord.toMsg, constMsgs_eq] at *
    rw [ConstRecord.carried, carriedConsts_eq]
    let c : ConstRecord := ⟨type, 0, bytes, text, bool, data.map DataRecord.carried,
      items.map ConstRecord.carried⟩
    rw [anew, readConstIn,
      Fills.readRecord (b := (c, digits (type.kind = integerConstKind) int)) ?_ hbound]
    · change (if type.kind = integerConstKind then _ else _) = _
      by_cases hkind : type.kind = integerConstKind
      · have hdigits : digits (type.kind = integerConstKind) int =
            Bytes.ofString (toString int) := if_pos (decide_eq_true hkind)
        rw [if_pos hkind, if_pos hkind, hdigits, integer?_decimal]
        rfl
      · rw [if_neg hkind, if_neg hkind]
        rfl
    · simp only [List.append_assoc, List.cons_append, List.nil_append]
      refine .field rfl rfl (fun hm => (readConstTypeIn_some_empty fuel _).trans
        (readConstTypeIn_toMsg fuel type hm)) ?_
      refine .digits rfl rfl rfl ?_
      refine .bytes rfl rfl rfl rfl ?_
      refine .bytes rfl rfl rfl rfl ?_
      refine .flag rfl rfl rfl ?_
      refine .option rfl rfl rfl (readDataIn_toMsg fuel) DataRecord.isRecord ?_
      refine .list rfl rfl rfl ih ?_
      exact .nil
    · exact IsRecord.ne_nil ⟨_, rfl⟩

/-! ## Declarations -/

theorem readField_toMsg (fuel : Nat) : Reads fuel (readField fuel) FieldRecord.toMsg id := by
  intro f hbound
  refine Fills.readRecord ?_ (Nat.le_succ_of_le hbound)
  refine .field rfl rfl (fun _ => rfl) ?_
  refine .field rfl rfl ((readTypeIn_toMsg fuel).option TypeRecord.isRecord f.type) ?_
  exact .done (by simp)

theorem readConstructor_toMsg (fuel : Nat) :
    Reads fuel (readConstructor fuel) ConstructorRecord.toMsg id := by
  intro c hbound
  refine Fills.readRecord ?_ (Nat.le_succ_of_le hbound)
  simp only [List.cons_append, List.nil_append]
  refine .field rfl rfl (fun _ => rfl) ?_
  refine .list rfl rfl rfl (readField_toMsg fuel) ?_
  exact .done (by simp)

theorem DeclRecord.isRecord (d : DeclRecord) : IsRecord d.toMsg :=
  ⟨_, rfl⟩

theorem readDecl_toMsg (fuel : Nat) : Reads fuel (readDecl fuel) DeclRecord.toMsg id := by
  intro d hbound
  obtain ⟨name, params, constructors⟩ := d
  rw [DeclRecord.toMsg, typeMsgs_eq] at *
  refine Fills.readRecord ?_ (Nat.le_succ_of_le hbound)
  simp only [List.append_assoc, List.cons_append, List.nil_append]
  refine .field rfl rfl (fun _ => rfl) ?_
  refine .options rfl rfl rfl (readTypeIn_toMsg fuel) TypeRecord.isRecord ?_
  refine .field (v := constructors) rfl rfl (fun hm => ?_) ?_
  · cases constructors with
    | none => rfl
    | some cs =>
      have hread := (readConstructor_toMsg fuel).list? hm
      rwa [List.map_id] at hread
  · exact .done (by simp)

/-! ## Expressions -/

theorem exprMsg_eq (e : Option ExprRecord) : exprMsg e = orNil ExprRecord.toMsg e := by
  cases e <;> rfl

theorem exprMsgs_eq (es : List (Option ExprRecord)) :
    exprMsgs es = es.map (orNil ExprRecord.toMsg) := by
  induction es with
  | nil => rfl
  | cons e es ih => cases e <;> exact congrArg (_ :: ·) ih

theorem bindingMsgs_eq (bs : List BindingRecord) : bindingMsgs bs = bs.map BindingRecord.toMsg := by
  induction bs with
  | nil => rfl
  | cons b bs ih => exact congrArg (_ :: ·) ih

theorem armMsgs_eq (as : List ArmRecord) : armMsgs as = as.map ArmRecord.toMsg := by
  induction as with
  | nil => rfl
  | cons a as ih => exact congrArg (_ :: ·) ih

theorem carriedExpr_eq (e : Option ExprRecord) : carriedExpr e = e.map ExprRecord.carried := by
  cases e <;> rfl

theorem carriedExprs_eq (es : List (Option ExprRecord)) :
    carriedExprs es = es.map (Option.map ExprRecord.carried) := by
  induction es with
  | nil => rfl
  | cons e es ih => cases e <;> exact congrArg (_ :: ·) ih

theorem carriedBindings_eq (bs : List BindingRecord) :
    carriedBindings bs = bs.map BindingRecord.carried := by
  induction bs with
  | nil => rfl
  | cons b bs ih => exact congrArg (_ :: ·) ih

theorem carriedArms_eq (as : List ArmRecord) : carriedArms as = as.map ArmRecord.carried := by
  induction as with
  | nil => rfl
  | cons a as ih => exact congrArg (_ :: ·) ih

theorem ExprRecord.isRecord (e : ExprRecord) : IsRecord e.toMsg := by
  cases e
  exact ⟨_, rfl⟩

section Parts

variable {fuel : Nat} {read : Reader ExprRecord}
  (hread : Reads fuel read ExprRecord.toMsg ExprRecord.carried)

include hread

theorem readBinding_toMsg :
    Reads fuel (readBinding fuel read) BindingRecord.toMsg BindingRecord.carried := by
  intro b hbound
  obtain ⟨name, type, value, span⟩ := b
  rw [BindingRecord.toMsg, exprMsg_eq] at *
  rw [BindingRecord.carried, carriedExpr_eq]
  refine Fills.readRecord ?_ (Nat.le_succ_of_le hbound)
  refine .field rfl rfl (fun _ => rfl) ?_
  refine .field rfl rfl ((readTypeIn_toMsg fuel).option TypeRecord.isRecord type) ?_
  refine .field rfl rfl (hread.option ExprRecord.isRecord value) ?_
  refine .field rfl rfl (readSpan_over span) ?_
  exact .done (by simp)

theorem readArm_toMsg : Reads fuel (readArm read) ArmRecord.toMsg ArmRecord.carried := by
  intro a hbound
  obtain ⟨constr, binders, body, span⟩ := a
  rw [ArmRecord.toMsg, exprMsg_eq] at *
  rw [ArmRecord.carried, carriedExpr_eq]
  refine Fills.readRecord ?_ (Nat.le_succ_of_le hbound)
  simp only [List.append_assoc, List.cons_append, List.nil_append]
  refine .field rfl rfl (fun _ => rfl) ?_
  have hbinder : Reads fuel (anew readBytes) Msg.str id := fun _ _ => rfl
  refine .optional (z := some []) rfl rfl rfl (fun _ hm => hbinder.list? hm) (by simp) ?_
  refine .field rfl rfl (hread.option ExprRecord.isRecord body) ?_
  refine .field rfl rfl (readSpan_over span) ?_
  exact .done (by simp)

end Parts

theorem readExprIn_toMsg (fuel : Nat) :
    Reads fuel (readExprIn fuel) ExprRecord.toMsg ExprRecord.carried := by
  induction fuel with
  | zero => exact .zero ExprRecord.isRecord
  | succ fuel ih =>
    intro e hbound
    obtain ⟨kind, type, span, name, const, builtin, decl, recursive, bindings, paramType, body,
      fn, arg, operands, arms⟩ := e
    rw [ExprRecord.toMsg, bindingMsgs_eq, exprMsg_eq, exprMsg_eq, exprMsg_eq, exprMsgs_eq,
      armMsgs_eq] at *
    rw [ExprRecord.carried, carriedBindings_eq, carriedExpr_eq, carriedExpr_eq, carriedExpr_eq,
      carriedExprs_eq, carriedArms_eq]
    refine Fills.readRecord ?_ hbound
    simp only [List.append_assoc, List.cons_append, List.nil_append]
    refine .field rfl rfl (fun _ => readByte_byte _) ?_
    refine .field rfl rfl ((readTypeIn_toMsg fuel).option TypeRecord.isRecord type) ?_
    refine .field rfl rfl (readSpan_over span) ?_
    refine .bytes rfl rfl rfl rfl ?_
    refine .option rfl rfl rfl (readConstIn_toMsg fuel) ConstRecord.isRecord ?_
    refine .optional rfl rfl rfl (fun _ _ => readByte_byte _) (by simp) ?_
    refine .bytes rfl rfl rfl rfl ?_
    refine .flag rfl rfl rfl ?_
    refine .list rfl rfl rfl (readBinding_toMsg ih) ?_
    refine .option rfl rfl rfl (readTypeIn_toMsg fuel) TypeRecord.isRecord ?_
    refine .option rfl rfl rfl ih ExprRecord.isRecord ?_
    refine .option rfl rfl rfl ih ExprRecord.isRecord ?_
    refine .option rfl rfl rfl ih ExprRecord.isRecord ?_
    refine .options rfl rfl rfl ih ExprRecord.isRecord ?_
    refine .list rfl rfl rfl (readArm_toMsg ih) ?_
    exact .done (by simp)

/-! ## Units -/

theorem readModuleIn_toMsg (fuel : Nat) :
    Reads fuel (readModuleIn fuel) ModuleRecord.toMsg ModuleRecord.carried := by
  intro m hbound
  obtain ⟨name, decls, root⟩ := m
  rw [ModuleRecord.toMsg, exprMsg_eq] at *
  refine Fills.readRecord ?_ (Nat.le_succ_of_le hbound)
  simp only [List.append_assoc, List.cons_append, List.nil_append]
  refine .field rfl rfl (fun _ => rfl) ?_
  refine .options rfl rfl rfl (readDecl_toMsg fuel) DeclRecord.isRecord ?_
  refine .field rfl rfl ((readExprIn_toMsg fuel).option ExprRecord.isRecord root) ?_
  exact .done (by simp [ModuleRecord.carried])

theorem ModuleRecord.decode_encode {m : ModuleRecord} (hroot : m.root.isSome = true)
    (h : Msg.Faithful m.toMsg) : ModuleRecord.decode m.encode = .ok m.carried := by
  have hread := readModuleIn_toMsg (m.encode.length + 1) m (Nat.le_succ _)
  have hcarried : m.carried.root.isNone = false := by
    rw [carried]
    simpa using hroot
  rw [decode, encode, h, ← encode, hread]
  simp only [hcarried, Bool.false_eq_true, if_false]

/-! ## Programs -/

theorem termMsg_eq (t : Option TermRecord) : termMsg t = orNil TermRecord.toMsg t := by
  cases t <;> rfl

theorem termMsgs_eq (ts : List (Option TermRecord)) :
    termMsgs ts = ts.map (orNil TermRecord.toMsg) := by
  induction ts with
  | nil => rfl
  | cons t ts ih => cases t <;> exact congrArg (_ :: ·) ih

theorem carriedTerm_eq (t : Option TermRecord) : carriedTerm t = t.map TermRecord.carried := by
  cases t <;> rfl

theorem carriedTerms_eq (ts : List (Option TermRecord)) :
    carriedTerms ts = ts.map (Option.map TermRecord.carried) := by
  induction ts with
  | nil => rfl
  | cons t ts ih => cases t <;> exact congrArg (_ :: ·) ih

theorem TermRecord.isRecord (t : TermRecord) : IsRecord t.toMsg := by
  cases t
  exact ⟨_, rfl⟩

theorem readTermIn_toMsg (fuel : Nat) :
    Reads fuel (readTermIn fuel) TermRecord.toMsg TermRecord.carried := by
  induction fuel with
  | zero => exact .zero TermRecord.isRecord
  | succ fuel ih =>
    intro t hbound
    obtain ⟨kind, name, body, fn, arg, const, builtin, tag, args, scrutinee⟩ := t
    rw [TermRecord.toMsg, termMsgs_eq, termMsg_eq, termMsg_eq, termMsg_eq, termMsg_eq] at *
    rw [TermRecord.carried, carriedTerms_eq, carriedTerm_eq, carriedTerm_eq, carriedTerm_eq,
      carriedTerm_eq]
    refine Fills.readRecord ?_ hbound
    simp only [List.append_assoc, List.cons_append, List.nil_append]
    refine .field rfl rfl (fun _ => readByte_byte _) ?_
    refine .bytes rfl rfl rfl rfl ?_
    refine .option rfl rfl rfl ih TermRecord.isRecord ?_
    refine .option rfl rfl rfl ih TermRecord.isRecord ?_
    refine .option rfl rfl rfl ih TermRecord.isRecord ?_
    refine .option rfl rfl rfl (readConstIn_toMsg fuel) ConstRecord.isRecord ?_
    refine .optional rfl rfl rfl (fun _ _ => readByte_byte _) (by simp) ?_
    refine .optional rfl rfl rfl (fun _ _ => readLong_long _) (by simp) ?_
    refine .options rfl rfl rfl ih TermRecord.isRecord ?_
    refine .option rfl rfl rfl ih TermRecord.isRecord ?_
    exact .nil

theorem readProgramIn_toMsg (fuel : Nat) :
    Reads fuel (readProgramIn fuel) ProgramRecord.toMsg ProgramRecord.carried := by
  intro p hbound
  obtain ⟨version, term⟩ := p
  rw [ProgramRecord.toMsg, termMsg_eq] at *
  refine Fills.readRecord ?_ (Nat.le_succ_of_le hbound)
  refine .field rfl rfl (fun _ => readByte_byte _) ?_
  refine .field rfl rfl ((readTermIn_toMsg fuel).option TermRecord.isRecord term) ?_
  exact .nil

end CoreLowering.Interchange
