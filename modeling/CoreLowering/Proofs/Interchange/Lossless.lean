import CoreLowering.Proofs.Interchange.Units

/-!
# The interchange format loses nothing

Units and programs come back from their bytes as they were, up to integers
that are not written because the kind of their constant has none.  These mean
nothing: `toModule_carried` and `toProgram_carried`.  In the other direction,
`toProgram_ofProgram` says that the record of a program means the program, if
the kinds that count as unknown are so.

Main statement: `interchange_lossless`.  What it asks of the message is what
`Msg.decode_encode` gives for every message whose lengths fit into a header.
-/

namespace CoreLowering

/-! ## Kind numbers

A kind number that names a kind stands for that kind, so `unknown` has to
hold another one. -/

mutual

/-- Whether the unknown kinds of a structured value name none. -/
def Data.genuine : Data → Bool
  | constr _ fields => genuineAll fields
  | map entries => genuineEntries entries
  | list items => genuineAll items
  | unknown kind => 5 ≤ kind
  | _ => true

/-- Whether all structured values are genuine. -/
def Data.genuineAll : List Data → Bool
  | [] => true
  | d :: ds => d.genuine && genuineAll ds

/-- Whether all keys and values are genuine. -/
def Data.genuineEntries : List (Data × Data) → Bool
  | [] => true
  | (k, v) :: es => k.genuine && v.genuine && genuineEntries es

end

/-- Whether the unknown kinds of a type name none. -/
def ConstType.genuine : ConstType → Bool
  | list e => e.genuine
  | pair a b => a.genuine && b.genuine
  | array e => e.genuine
  | unknown kind => 9 ≤ kind
  | _ => true

mutual

/-- Whether the unknown kinds of a constant name none. -/
def Constant.genuine : Constant → Bool
  | data d => d.genuine
  | list e items => e.genuine && genuineAll items
  | pair a b items => a.genuine && b.genuine && genuineAll items
  | array e items => e.genuine && genuineAll items
  | unknown kind => 9 ≤ kind
  | _ => true

/-- Whether all constants are genuine. -/
def Constant.genuineAll : List Constant → Bool
  | [] => true
  | c :: cs => c.genuine && genuineAll cs

end

mutual

/-- Whether the unknown kinds and builtins of a term name none. -/
def Term.genuine : Term → Bool
  | lam _ b => b.genuine
  | apply f a => f.genuine && a.genuine
  | force b => b.genuine
  | delay b => b.genuine
  | con c => c.genuine
  | builtin f => Builtin.ofCode f.code = f
  | constr _ fields => genuineAll fields
  | case s branches => s.genuine && genuineAll branches
  | unknown kind => 10 ≤ kind
  | _ => true

/-- Whether all terms are genuine. -/
def Term.genuineAll : List Term → Bool
  | [] => true
  | t :: ts => t.genuine && genuineAll ts

end

end CoreLowering

namespace CoreLowering.Interchange

/-! ## What is not written means nothing -/

mutual

/-- Only integers have a number that means something. -/
theorem DataRecord.toData_carried (d : DataRecord) : d.carried.toData = d.toData := by
  obtain ⟨kind, tag, fields, entries, int, bytes⟩ := d
  rw [DataRecord.carried]
  unfold DataRecord.toData
  rw [toDataAll_carried fields, toDataEntries_carried entries]
  split
  all_goals rfl

theorem toDataAll_carried (ds : List DataRecord) : toDataAll (carriedData ds) = toDataAll ds := by
  cases ds with
  | nil => rfl
  | cons d ds => rw [carriedData, toDataAll, toDataAll, d.toData_carried, toDataAll_carried ds]

theorem toDataEntries_carried (es : List (DataRecord × DataRecord)) :
    toDataEntries (carriedEntries es) = toDataEntries es := by
  cases es with
  | nil => rfl
  | cons e es =>
    obtain ⟨k, v⟩ := e
    rw [carriedEntries, toDataEntries, toDataEntries, k.toData_carried, v.toData_carried,
      toDataEntries_carried es]

end

/-- One kind number alone means integers. -/
theorem ConstTypeRecord.kind_of_integer {t : ConstTypeRecord} (h : t.toConstType = .integer) :
    t.kind = integerConstKind := by
  obtain ⟨kind, elem, snd⟩ := t
  unfold toConstType at h
  split at h
  all_goals first | rfl | cases h

mutual

/-- Only the integer of an integer constant means something. -/
theorem ConstRecord.toConstant_carried (c : ConstRecord) : c.carried.toConstant = c.toConstant := by
  obtain ⟨type, int, bytes, text, bool, data, items⟩ := c
  rw [ConstRecord.carried]
  unfold ConstRecord.toConstant
  rw [toConstants_carried items]
  cases htype : type.toConstType with
  | integer => simp only [if_pos (ConstTypeRecord.kind_of_integer htype)]
  | data =>
    cases data with
    | none => rfl
    | some d => exact congrArg Constant.data d.toData_carried
  | byteString | string | unit | bool | list | pair | array | unknown => rfl

theorem toConstants_carried (cs : List ConstRecord) :
    toConstants (carriedConsts cs) = toConstants cs := by
  cases cs with
  | nil => rfl
  | cons c cs =>
    rw [carriedConsts, toConstants, toConstants, c.toConstant_carried, toConstants_carried cs]

end

theorem map_toConstant_carried (c : Option ConstRecord) :
    (c.map ConstRecord.carried).map ConstRecord.toConstant = c.map ConstRecord.toConstant := by
  cases c with
  | none => rfl
  | some c => exact congrArg some c.toConstant_carried

mutual

/-- An expression means the same without integers that mean nothing. -/
theorem ExprRecord.toExpr_carried (e : ExprRecord) : e.carried.toExpr = e.toExpr := by
  obtain ⟨kind, type, span, name, const, builtin, decl, recursive, bindings, paramType, body, fn,
    arg, operands, arms⟩ := e
  rw [ExprRecord.carried]
  unfold ExprRecord.toExpr
  rw [map_toConstant_carried, toBindings_carried bindings, toExpr?_carried body,
    toExpr?_carried fn, toExpr?_carried arg, toExprs_carried operands, toArms_carried arms]

theorem toExpr?_carried (e : Option ExprRecord) : toExpr? (carriedExpr e) = toExpr? e := by
  cases e with
  | none => rfl
  | some e => rw [carriedExpr, toExpr?, toExpr?, e.toExpr_carried]

theorem toExprs_carried (es : List (Option ExprRecord)) :
    toExprs (carriedExprs es) = toExprs es := by
  cases es with
  | nil => rfl
  | cons e es => rw [carriedExprs, toExprs, toExprs, toExpr?_carried e, toExprs_carried es]

theorem toBindings_carried (bs : List BindingRecord) :
    toBindings (carriedBindings bs) = toBindings bs := by
  cases bs with
  | nil => rfl
  | cons b bs =>
    obtain ⟨name, type, value, span⟩ := b
    rw [carriedBindings, BindingRecord.carried, toBindings, toBindings, toExpr?_carried value,
      toBindings_carried bs]

theorem toArms_carried (as : List ArmRecord) : toArms (carriedArms as) = toArms as := by
  cases as with
  | nil => rfl
  | cons a as =>
    obtain ⟨constr, binders, body, span⟩ := a
    rw [carriedArms, ArmRecord.carried, toArms, toArms, toExpr?_carried body,
      toArms_carried as]

end

/-- **What is not written of a unit means nothing.** -/
theorem ModuleRecord.toModule_carried (m : ModuleRecord) : m.carried.toModule = m.toModule := by
  rw [carried, toModule, toModule, ← carriedExpr_eq, toExpr?_carried]

mutual

/-- A term means the same without integers that mean nothing. -/
theorem TermRecord.toTerm_carried (t : TermRecord) : t.carried.toTerm = t.toTerm := by
  obtain ⟨kind, name, body, fn, arg, const, builtin, tag, args, scrutinee⟩ := t
  rw [TermRecord.carried]
  unfold TermRecord.toTerm
  rw [toTerm?_carried body, toTerm?_carried fn, toTerm?_carried arg, toTerm?_carried scrutinee,
    toTerms_carried args]
  cases const with
  | none => rfl
  | some c => simp only [Option.map_some, c.toConstant_carried]

theorem toTerm?_carried (t : Option TermRecord) : toTerm? (carriedTerm t) = toTerm? t := by
  cases t with
  | none => rfl
  | some t => rw [carriedTerm, toTerm?, toTerm?, t.toTerm_carried]

theorem toTerms_carried (ts : List (Option TermRecord)) :
    toTerms (carriedTerms ts) = toTerms ts := by
  cases ts with
  | nil => rfl
  | cons t ts => rw [carriedTerms, toTerms, toTerms, toTerm?_carried t, toTerms_carried ts]

end

/-- **What is not written of a program means nothing.** -/
theorem ProgramRecord.toProgram_carried (p : ProgramRecord) :
    p.carried.toProgram = p.toProgram := by
  rw [carried, toProgram, toProgram, ← carriedTerm_eq, toTerm?_carried]

/-! ## Records of values, types, constants and terms -/

mutual

/-- The record of a genuine value means the value. -/
theorem toData_ofData (d : Data) (h : d.genuine = true) : (DataRecord.ofData d).toData = d := by
  cases d with
  | constr tag fields =>
    rw [Data.genuine] at h
    rw [DataRecord.ofData, DataRecord.toData, toDataAll_ofDataAll fields h]
  | map entries =>
    rw [Data.genuine] at h
    rw [DataRecord.ofData, DataRecord.toData, toDataEntries_ofDataEntries entries h]
  | list items =>
    rw [Data.genuine] at h
    rw [DataRecord.ofData, DataRecord.toData, toDataAll_ofDataAll items h]
  | int n => rw [DataRecord.ofData, DataRecord.toData]
  | bytes b => rw [DataRecord.ofData, DataRecord.toData]
  | unknown kind =>
    rw [Data.genuine, decide_eq_true_eq] at h
    unfold DataRecord.ofData DataRecord.toData
    split <;> first | rfl | exact absurd h (by decide)

theorem toDataAll_ofDataAll (ds : List Data) (h : Data.genuineAll ds = true) :
    toDataAll (ofDataAll ds) = ds := by
  cases ds with
  | nil => rfl
  | cons d ds =>
    rw [Data.genuineAll, Bool.and_eq_true] at h
    rw [ofDataAll, toDataAll, toData_ofData d h.1, toDataAll_ofDataAll ds h.2]

theorem toDataEntries_ofDataEntries (es : List (Data × Data))
    (h : Data.genuineEntries es = true) : toDataEntries (ofDataEntries es) = es := by
  cases es with
  | nil => rfl
  | cons e es =>
    obtain ⟨k, v⟩ := e
    rw [Data.genuineEntries, Bool.and_eq_true, Bool.and_eq_true] at h
    rw [ofDataEntries, toDataEntries, toData_ofData k h.1.1,
      toData_ofData v h.1.2, toDataEntries_ofDataEntries es h.2]

end

/-- The record of a genuine type means the type. -/
theorem toConstType_ofConstType (t : ConstType) (h : t.genuine = true) :
    (ConstTypeRecord.ofConstType t).toConstType = t := by
  induction t with
  | list e ih | array e ih =>
    rw [ConstType.genuine] at h
    rw [ConstTypeRecord.ofConstType, ConstTypeRecord.toConstType, toConstType?, ih h]
  | pair a b iha ihb =>
    rw [ConstType.genuine, Bool.and_eq_true] at h
    rw [ConstTypeRecord.ofConstType, ConstTypeRecord.toConstType, toConstType?, toConstType?,
      iha h.1, ihb h.2]
  | unknown kind =>
    rw [ConstType.genuine, decide_eq_true_eq] at h
    unfold ConstTypeRecord.ofConstType ConstTypeRecord.toConstType
    split <;> first | rfl | exact absurd h (by decide)
  | integer | byteString | string | unit | bool | data =>
    rw [ConstTypeRecord.ofConstType, ConstTypeRecord.toConstType]

mutual

/-- The record of a genuine constant means the constant. -/
theorem toConstant_ofConstant (c : Constant) (h : c.genuine = true) :
    (ConstRecord.ofConstant c).toConstant = c := by
  cases c with
  | integer | byteString | unit | bool | noData => rfl
  | string s =>
    simp only [ConstRecord.ofConstant, ConstRecord.toConstant.eq_def,
      toConstType_ofConstType .string rfl, textOf, Utf8.lenientText_ofString]
  | data d =>
    rw [Constant.genuine] at h
    simp only [ConstRecord.ofConstant, ConstRecord.toConstant.eq_def,
      toConstType_ofConstType .data rfl, toData_ofData d h]
  | list e items =>
    rw [Constant.genuine, Bool.and_eq_true] at h
    simp only [ConstRecord.ofConstant, ConstRecord.toConstant.eq_def,
      toConstType_ofConstType (.list e) h.1, toConstants_ofConstants items h.2]
  | array e items =>
    rw [Constant.genuine, Bool.and_eq_true] at h
    simp only [ConstRecord.ofConstant, ConstRecord.toConstant.eq_def,
      toConstType_ofConstType (.array e) h.1, toConstants_ofConstants items h.2]
  | pair a b items =>
    rw [Constant.genuine, Bool.and_eq_true] at h
    simp only [ConstRecord.ofConstant, ConstRecord.toConstant.eq_def,
      toConstType_ofConstType (.pair a b) h.1, toConstants_ofConstants items h.2]
  | unknown kind =>
    rw [Constant.genuine] at h
    simp only [ConstRecord.ofConstant, ConstRecord.toConstant.eq_def,
      toConstType_ofConstType (.unknown kind) h]

theorem toConstants_ofConstants (cs : List Constant) (h : Constant.genuineAll cs = true) :
    toConstants (ofConstants cs) = cs := by
  cases cs with
  | nil => rfl
  | cons c cs =>
    rw [Constant.genuineAll, Bool.and_eq_true] at h
    rw [ofConstants, toConstants, toConstant_ofConstant c h.1, toConstants_ofConstants cs h.2]

end

mutual

/-- The record of a genuine term means the term. -/
theorem toTerm?_ofTerm (t : Term) (h : t.genuine = true) : toTerm? (ofTerm t) = t := by
  cases t with
  | var x => simp only [ofTerm, toTerm?, TermRecord.toTerm, textOf, Utf8.lenientText_ofString]
  | lam x b =>
    rw [Term.genuine] at h
    simp only [ofTerm, toTerm?, TermRecord.toTerm, textOf, Utf8.lenientText_ofString,
      toTerm?_ofTerm b h]
  | apply f a =>
    rw [Term.genuine, Bool.and_eq_true] at h
    simp only [ofTerm, toTerm?, TermRecord.toTerm, toTerm?_ofTerm f h.1, toTerm?_ofTerm a h.2]
  | force b | delay b =>
    rw [Term.genuine] at h
    simp only [ofTerm, toTerm?, TermRecord.toTerm, toTerm?_ofTerm b h]
  | con c =>
    rw [Term.genuine] at h
    simp only [ofTerm, toTerm?, TermRecord.toTerm, toConstant_ofConstant c h]
  | builtin f =>
    rw [Term.genuine, decide_eq_true_eq] at h
    simp only [ofTerm, toTerm?, TermRecord.toTerm, h]
  | error | missing => rfl
  | constr tag fields =>
    rw [Term.genuine] at h
    simp only [ofTerm, toTerm?, TermRecord.toTerm, toTerms_ofTerms fields h]
  | case s branches =>
    rw [Term.genuine, Bool.and_eq_true] at h
    simp only [ofTerm, toTerm?, TermRecord.toTerm, toTerm?_ofTerm s h.1,
      toTerms_ofTerms branches h.2]
  | unknown kind =>
    rw [Term.genuine, decide_eq_true_eq] at h
    unfold ofTerm toTerm? TermRecord.toTerm
    split <;> first | rfl | exact absurd h (by decide)

theorem toTerms_ofTerms (ts : List Term) (h : Term.genuineAll ts = true) :
    toTerms (ofTerms ts) = ts := by
  cases ts with
  | nil => rfl
  | cons t ts =>
    rw [Term.genuineAll, Bool.and_eq_true] at h
    rw [ofTerms, toTerms, toTerm?_ofTerm t h.1, toTerms_ofTerms ts h.2]

end

/-- **The record of a program means the program.** -/
theorem ProgramRecord.toProgram_ofProgram {p : Program} (h : p.term.genuine = true) :
    (ProgramRecord.ofProgram p).toProgram = p := by
  obtain ⟨version, term⟩ := p
  have hversion : Version.ofRank (UInt8.ofNat version.rank).toNat = version := by
    cases version <;> rfl
  rw [ofProgram, toProgram, hversion, toTerm?_ofTerm term h]

/-! ## Nothing is lost -/

/-- Decoding gives back what the record means. -/
theorem decodeProgram_toMsg {p : ProgramRecord} (h : Msg.Faithful p.toMsg) :
    decodeProgram p.toMsg.encode = .ok p.toProgram := by
  have hread := readProgramIn_toMsg (p.toMsg.encode.length + 1) p (Nat.le_succ _)
  rw [decodeProgram, h, hread, ← p.toProgram_carried]
  rfl

/-- **The interchange format loses nothing.**  If the library gives back the
message of a unit, then decoding gives back the unit itself, with zero in
place of the integers of constants and structured values of other kinds,
which mean nothing.  A program comes back in the same way, and so do its
version and its term. -/
theorem interchange_lossless :
    (∀ m : ModuleRecord, m.root.isSome = true → Msg.Faithful m.toMsg →
      ModuleRecord.decode m.encode = .ok m.carried ∧ m.carried.toModule = m.toModule) ∧
    (∀ p : ProgramRecord, Msg.Faithful p.toMsg →
      readProgramIn (p.toMsg.encode.length + 1) none (Msg.decode p.toMsg.encode) =
        .ok p.carried ∧ decodeProgram p.toMsg.encode = .ok p.toProgram) ∧
    ∀ p : Program, p.term.genuine = true → Msg.Faithful (ProgramRecord.ofProgram p).toMsg →
      decodeProgram (encodeProgram p) = .ok p := by
  refine ⟨fun m hroot h => ?_, fun p h => ?_, fun p hgenuine h => ?_⟩
  · exact ⟨m.decode_encode hroot h, m.toModule_carried⟩
  · refine ⟨?_, decodeProgram_toMsg h⟩
    rw [h]
    exact readProgramIn_toMsg _ p (Nat.le_succ _)
  · rw [encodeProgram, decodeProgram_toMsg h, ProgramRecord.toProgram_ofProgram hgenuine]

/-- A unit with a string constant that has a stray integer: it comes back
without it. -/
theorem interchange_lossless_stray :
    let c : ConstRecord := { type := { kind := 2 }, int := -7, text := [104, 105] }
    let m : ModuleRecord := { name := [109], root := some { kind := 2, const := some c } }
    let p : Program := ⟨.v3, .apply (.lam "x" (.var "x")) (.con (.integer (-2 ^ 70)))⟩
    ModuleRecord.decode m.encode =
      .ok { m with root := some { kind := 2, const := some { c with int := 0 } } } ∧
    decodeProgram (encodeProgram p) = .ok p := by
  refine ⟨?_, ?_⟩
  · exact (interchange_lossless.1 _ rfl (Msg.decode_encode (by decide +kernel))).1
  · exact interchange_lossless.2.2 _ (by decide) (Msg.decode_encode (by decide +kernel))

end CoreLowering.Interchange
