import CoreLowering.Proofs.Encoding.Operands

/-!
# Taking constants out of data

The work that brings values of the plain types from the packed layout into
that of constants.  Scalars are taken out by a few builtins, a list item by
item, by a helper.

Main statement: `build_unpacks`.
-/

namespace CoreLowering.Encoding

open CoreLowering.Graph
open CoreLowering.FirstOrder (Lands)

variable {s : State} {lo id : Nat} {n : Node} {t elem : Ty} {span : Span}

/-- The first two items of a list become a pair. -/
theorem fieldsToPair_derived {way : Direction} {s₀ : State} {fields : Nat} {r : Rep}
    {F : Constant → Constant → Prop} (hs : Progress lo way s₀ s)
    (h : Derived lo (Known way s₀) s id F fields) :
    Lands (fieldsToPair fields t r span) s fun out s' => ∃ n, Computed lo way s₀ id
      (Applied .mkPairData [Applied .headList [F], Applied .headList [Applied .tailList [F]]])
      n t r out s' := by
  refine .bind (call_derived hs ⟨rfl, rfl, rfl⟩ h) fun fst s1 e1 _ h1 => ?_
  refine .bind (call_derived h1.progress ⟨rfl, rfl, rfl⟩ (h.grow e1.later))
    fun rest s2 e2 _ h2 => ?_
  refine .bind (call_derived h2.progress ⟨rfl, rfl, rfl⟩ h2.derived) fun snd s3 e3 _ h3 => ?_
  have h1 := h1.derived.grow (e2.later.trans e3.later)
  exact (call_derived₂ h3.progress ⟨rfl, rfl, rfl⟩ h1 h3.derived).mono fun _ _ _ h => ⟨_, h⟩

section

variable (hs : Progress lo .unpack s s) (hid : lo < id) (hv : Valid s id)

include hs hid hv

theorem string_unpacks :
    Makes (do
        let bytes ← builtin .unBData .byteString .constant span [id]
        builtin .decodeUtf8 .string .constant span [bytes]) s
      (Conversion lo .unpack s .string id) := by
  refine .after (call_derived hs ⟨rfl, rfl, rfl⟩ (.self hid hv)) fun bytes s1 _ h1 => ?_
  refine .convert (call_derived h1.progress ⟨rfl, rfl, rfl⟩ h1.derived) ?_
  rintro _ _ ⟨d, rfl, -, hd⟩
  obtain ⟨b, text, rfl, htext, rfl⟩ := unpack_string hd
  exact .one (.one rfl rfl) (call_decodeUtf8 htext)

theorem bool_unpacks :
    Makes (do
        let taken ← builtin .unConstrData constrT .constant span [id]
        let tag ← builtin .fstPair .integer .constant span [taken]
        let one ← integerValue 1 span
        builtin .equalsInteger .boolean .constant span [tag, one]) s
      (Conversion lo .unpack s .boolean id) := by
  refine .after (call_derived hs ⟨rfl, rfl, rfl⟩ (.self hid hv)) fun taken s1 _ h1 => ?_
  refine .after (call_derived h1.progress ⟨rfl, rfl, rfl⟩ h1.derived) fun tag s2 _ h2 => ?_
  refine .after (const_operand h2.progress id) fun one s3 e3 ⟨h3, hs3⟩ => ?_
  have h2 := h2.derived.grow e3.later
  refine .convert (builtin_derived hs3 ⟨rfl, rfl, rfl⟩ (.cons (.derived h2) (.cons h3 .nil))
    (List.mem_cons_self ..) h2) ?_
  rintro _ _ ⟨d, rfl, -, hd⟩
  obtain ⟨tag, fields, rfl, rfl⟩ := unpack_boolean hd
  refine .two (.one (.one rfl rfl) rfl) rfl ?_
  have heq : ((tag.toNat : Int) == 1) = (tag == 1) := by
    rw [Bool.eq_iff_iff, beq_iff_eq, beq_iff_eq, ← UInt64.toNat_inj]
    exact Int.natCast_inj (n := 1)
  exact congrArg (fun b => Except.ok (Machine.Value.con (.bool b))) heq

theorem unit_unpacks (hat : At s id n t .packed)
    (hn : n.isIdentifiable = true ∨ isOperation n = true) :
    Makes (do
        let unit ← constValue .unit .unit span
        if ← effortless id then return unit
        else builtin .chooseData .unit .constant span [id, unit, unit, unit, unit, unit]) s
      (Conversion lo .unpack s .unit id) := by
  refine .after constIn_is fun unit s1 e1 ⟨hlt1, h1⟩ => ?_
  have hs1 := hs.extend e1
  have hat1 := hat.later e1.later hv.1
  refine .read (effortless_run hat1.valid) ?_
  rw [hat1.isEffortless hn]
  split
  · rename_i hident
    refine .pure ⟨hlt1, ⟨_, h1.known⟩, hs1.keeps, fun g hg _ _ => ?_⟩
    have hunit := (h1.known.later hg (hs.past hlt1)).node
    refine ⟨.inr ⟨.const hunit, n, (hat1.later hg hid).node, hident⟩, ?_⟩
    rintro _ _ ρ ⟨d, rfl, -, hd⟩ -
    rw [unpack_unit hd]
    exact .const hunit
  · have hself : Derived lo (Known .unpack s) s1 id Eq id := .self hid hat1.valid
    have hop : Operand lo (Known .unpack s) s1 id unit fun _ x => x = .unit :=
      .const (hs.past hlt1) h1
    refine .convert (builtin_derived hs1 ⟨rfl, rfl, rfl⟩ (.cons (.derived hself)
      (.cons hop (.cons hop (.cons hop (.cons hop (.cons hop .nil)))))) (List.mem_cons_self ..)
      hself) ?_
    rintro _ _ ⟨d, rfl, hvalid, hd⟩
    rw [unpack_unit hd]
    refine ⟨_, .cons rfl (.cons rfl (.cons rfl (.cons rfl (.cons rfl (.cons rfl .nil))))), ?_⟩
    cases d <;> first | rfl | cases hvalid

theorem pair_unpacks :
    Makes (do
        let taken ← builtin .unConstrData constrT .constant span [id]
        let snd ← builtin .sndPair dataListT .constant span [taken]
        let fields ← letVar "fields" snd
        fieldsToPair fields dataPairT .constant span) s
      (Conversion lo .unpack s dataPairT id) := by
  refine .after (call_derived hs ⟨rfl, rfl, rfl⟩ (.self hid hv)) fun taken s1 _ h1 => ?_
  refine .after (call_derived h1.progress ⟨rfl, rfl, rfl⟩ h1.derived) fun snd s2 _ h2 => ?_
  refine .after (letVar_derived h2.progress h2.derived) fun fields s3 _ ⟨h3, hs3⟩ => ?_
  refine .of_lands ((fieldsToPair_derived hs3 h3).mono fun _ _ _ ⟨_, h⟩ => h.conversion ?_)
  rintro _ _ ⟨d, rfl, -, hd⟩
  obtain ⟨tag, a, b, rfl, rfl⟩ := unpack_pair hd
  have hfields : Applied .sndPair [Applied .unConstrData [Eq]] (.data (.constr tag [a, b]))
      (.dataList [a, b]) := .one (.one rfl rfl) rfl
  exact .two (.one hfields rfl) (.one (.one hfields rfl) rfl) rfl

theorem list_unpacks {convert : Converter} {work : Work} {ct : ConstType}
    (hconvert : ConvertsVar (convert · .constant) .unpack elem) (hr : Route .unpack elem work)
    (hp : elem ≠ dataPairT) (hct : elem.constType? = some ct) :
    Makes (do
        let items ← builtin .unListData dataListT .constant span [id]
        let helper ← unpackHelper convert elem ct
        apply helper items (.builtinList elem) .constant span) s
      (Conversion lo .unpack s (.builtinList elem) id) := by
  refine .after (call_derived hs ⟨rfl, rfl, rfl⟩ (.self hid hv)) fun items s1 _ h1 => ?_
  have hs1 := h1.progress
  have hhelper : Makes (unpackHelper convert elem ct) s1 (Helps lo .unpack s1 elem) :=
    keptHelper_makes hconvert hs1.target hs1.keeps.orderly hr.plain
      (Nat.le_trans hs1.size hs1.grown.size) hct ..
  refine (apply_derived hs1 hhelper hr h1.derived).mono fun _ _ _ ⟨_, h⟩ => h.conversion ?_
  rintro _ _ ⟨d, rfl, hvalid, hd⟩
  obtain ⟨ds, cs, rfl, rfl, hall⟩ := unpack_list hp hct hd
  refine ⟨.data, ct, ds.map .data, cs, .one rfl rfl, hct, List.forall₂_map_left_iff.2 ?_, rfl⟩
  have hitems := (List.forall₂_and_left ds cs).2 ⟨Data.validAll_iff.1 hvalid, hall⟩
  exact hitems.imp fun d c ⟨hv, hd⟩ => ⟨d, rfl, hv, hd⟩

/-- Constants that one builtin takes out of data. -/
theorem call_unpacks {f : Builtin} (hf : f.isKnown = true ∧ f.since = .v1 ∧ f.arity = 1)
    (hcall : ∀ {d c}, Fold.unpack t (.data d) = some c →
      Machine.call f [.con (.data d)] = .ok (.con c)) :
    Makes (builtin f t .constant span [id]) s (Conversion lo .unpack s t id) := by
  refine .convert (call_derived hs hf (.self hid hv)) ?_
  rintro _ _ ⟨d, rfl, -, hd⟩
  exact .one rfl (hcall hd)

/-- **The work of taking constants out of data.** -/
theorem build_unpacks {convert : Converter} {work : Work} (hr : Route .unpack t work)
    (hitems : ∀ {elem work}, t = .builtinList elem → Route .unpack elem work →
      ConvertsVar (convert · .constant) .unpack elem)
    (hat : At s id n t .packed) (hn : n.isIdentifiable = true ∨ isOperation n = true) :
    Makes (work.build convert .constant id t span) s (Conversion lo .unpack s t id) := by
  cases hr with
  | unpackInteger =>
    refine call_unpacks hs hid hv ⟨rfl, rfl, rfl⟩ fun hd => ?_
    obtain ⟨k, rfl, rfl⟩ := unpack_integer hd
    rfl
  | unpackByteString =>
    refine call_unpacks hs hid hv ⟨rfl, rfl, rfl⟩ fun hd => ?_
    obtain ⟨b, rfl, rfl⟩ := unpack_byteString hd
    rfl
  | unpackString => exact string_unpacks hs hid hv
  | unpackBoolean => exact bool_unpacks hs hid hv
  | unpackUnit => exact unit_unpacks hs hid hv hat hn
  | unpackDataList =>
    refine call_unpacks hs hid hv ⟨rfl, rfl, rfl⟩ fun hd => ?_
    obtain ⟨ds, rfl, rfl⟩ := unpack_dataList hd
    rfl
  | unpackMap =>
    refine call_unpacks hs hid hv ⟨rfl, rfl, rfl⟩ fun hd => ?_
    obtain ⟨entries, rfl, rfl⟩ := unpack_map hd
    rfl
  | unpackItems he hp hct => exact list_unpacks hs hid hv (hitems rfl he) he hp hct
  | unpackPair => exact pair_unpacks hs hid hv

end

end CoreLowering.Encoding
