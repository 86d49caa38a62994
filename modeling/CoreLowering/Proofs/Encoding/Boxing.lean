import CoreLowering.Proofs.Encoding.Operands

/-!
# Putting values into data

The work that brings values of the plain types from the layout of constants
into the packed one.  Scalars are put into data by a few builtins, pairs
component by component, and lists item by item, by a helper.

Main statement: `build_packs`.
-/

namespace CoreLowering.Encoding

open CoreLowering.Graph
open CoreLowering.Layout (Boxed)

variable {s s₀ : State} {lo id fst snd : Nat} {n : Node} {t elem a b : Ty} {span : Span}
  {F G : Constant → Constant → Prop} {work : Work}

/-- Two values in data become the fields of data. -/
theorem fields_packs (hs : Progress lo .pack s₀ s) (h1 : Derived lo (Known .pack s₀) s id F fst)
    (h2 : Derived lo (Known .pack s₀) s id G snd) (hfields : ∀ {c d}, Boxed t c d →
      ∃ p q, F c (.data p) ∧ G c (.data q) ∧ d = .ofPair (p, q)) :
    Makes (do
        let nil ← constValue emptyDataList dataListT span
        let tail ← builtin .mkCons dataListT .constant span [snd, nil]
        let fields ← builtin .mkCons dataListT .constant span [fst, tail]
        let tag ← integerValue 0 span
        builtin .constrData t .packed span [tag, fields]) s
      (Conversion lo .pack s₀ t id) := by
  refine .after (const_operand hs id) fun nil s1 e1 ⟨h3, hs1⟩ => ?_
  have h2 := h2.grow e1.later
  refine .after (builtin_derived hs1 ⟨rfl, rfl, rfl⟩ (.cons (.derived h2) (.cons h3 .nil))
    (List.mem_cons_self ..) h2) fun tail s2 e2 h4 => ?_
  have h1 := h1.grow (e1.later.trans e2.later)
  refine .after (call_derived₂ h4.progress ⟨rfl, rfl, rfl⟩ h1 h4.derived) fun fields s3 _ h5 => ?_
  refine .after (const_operand h5.progress id) fun tag s4 e4 ⟨h6, hs4⟩ => ?_
  have h5 := h5.derived.grow e4.later
  refine .convert (builtin_derived hs4 ⟨rfl, rfl, rfl⟩ (.cons h6 (.cons (.derived h5) .nil))
    (List.mem_cons_of_mem _ (List.mem_cons_self ..)) h5) ?_
  rintro c _ ⟨d, hd, rfl⟩
  obtain ⟨p, q, hp, hq, rfl⟩ := hfields hd
  refine .two rfl (.two hp (.two hq rfl (call_mkCons rfl [])) (call_mkCons rfl [.data q])) ?_
  exact call_constrData (by decide) [p, q]

section

variable (hs : Progress lo .pack s s) (hid : lo < id) (hv : Valid s id)

include hs hid hv

/-- Constants that one builtin puts into data. -/
theorem call_packs {f : Builtin} (hf : f.isKnown = true ∧ f.since = .v1 ∧ f.arity = 1)
    (hcall : ∀ {c d}, Boxed t c d → Machine.call f [.con c] = .ok (.con (.data d))) :
    Makes (builtin f t .packed span [id]) s (Conversion lo .pack s t id) := by
  refine .convert (call_derived hs hf (.self hid hv)) ?_
  rintro c _ ⟨d, hd, rfl⟩
  exact .one rfl (hcall hd)

theorem string_packs :
    Makes (do
        let bytes ← builtin .encodeUtf8 .byteString .constant span [id]
        builtin .bData .string .packed span [bytes]) s
      (Conversion lo .pack s .string id) := by
  refine .after (call_derived hs ⟨rfl, rfl, rfl⟩ (.self hid hv)) fun bytes s1 _ h1 => ?_
  refine .convert (call_derived h1.progress ⟨rfl, rfl, rfl⟩ h1.derived) ?_
  rintro _ _ ⟨d, ⟨text, rfl, rfl⟩, rfl⟩
  exact .one (.one rfl rfl) rfl

theorem bool_packs :
    Makes (do
        let yes ← constValue (.data (.ofBool true)) .data span
        let no ← constValue (.data (.ofBool false)) .data span
        builtin .ifThenElse .boolean .packed span [id, yes, no]) s
      (Conversion lo .pack s .boolean id) := by
  refine .after (const_operand hs id) fun yes s1 e1 ⟨h1, hs1⟩ => ?_
  refine .after (const_operand hs1 id) fun no s2 e2 ⟨h2, hs2⟩ => ?_
  have hself := Derived.self (K := Known .pack s) hid (hs2.grown.valid hv)
  refine .convert (builtin_derived hs2 ⟨rfl, rfl, rfl⟩ (.cons (.derived hself)
    (.cons (h1.grow e2.later) (.cons h2 .nil))) (List.mem_cons_self ..) hself) ?_
  rintro _ _ ⟨d, ⟨yes, rfl, rfl⟩, rfl⟩
  refine ⟨_, .cons rfl (.cons rfl (.cons rfl .nil)), ?_⟩
  cases yes <;> rfl

theorem unit_packs (hat : At s id n t .constant)
    (hn : n.isIdentifiable = true ∨ isOperation n = true) :
    Makes (do
        let unit ← constValue (.data (.ofBool false)) .data span
        if ← effortless id then reinterpret unit .unit .packed
        else builtin .chooseUnit .unit .packed span [id, unit]) s
      (Conversion lo .pack s .unit id) := by
  refine .after constIn_is fun unit s1 e1 ⟨hlt1, h1⟩ => ?_
  have hs1 := hs.extend e1
  have hat1 := hat.later e1.later hv.1
  refine .read (effortless_run hat1.valid) ?_
  rw [hat1.isEffortless hn]
  split
  · rename_i hident
    refine .of_lands ((reinterpret_is h1.known (by nofun) (by nofun) (by nofun)).mono ?_)
    rintro out s2 e2 ⟨hlt2, h2⟩
    have hs2 := hs1.extend e2
    refine ⟨Nat.lt_of_le_of_lt e1.size hlt2, ⟨_, h2.known⟩, hs2.keeps, fun g hg _ _ => ?_⟩
    have hg1 : Later lo s1 g := e2.later.trans hg
    have hunit := (h1.known.later hg1 (hs.past hlt1)).node
    have hout := (h2.known.later hg (hs1.past hlt2)).node
    refine ⟨.inr ⟨.view hout (.const hunit), n, (hat1.later hg1 hid).node, hident⟩, ?_⟩
    rintro _ _ ρ ⟨d, ⟨rfl, rfl⟩, rfl⟩ -
    exact .reinterpret hout (.const hunit)
  · have hself := Derived.self (K := Known .pack s) hid hat1.valid
    refine .convert (builtin_derived hs1 ⟨rfl, rfl, rfl⟩ (.cons (.derived hself)
      (.cons (.const (hs.past hlt1) h1) .nil)) (List.mem_cons_self ..) hself) ?_
    rintro _ _ ⟨d, ⟨rfl, rfl⟩, rfl⟩
    exact .two rfl rfl rfl

theorem pair_packs :
    Makes (do
        let pair ← letVar "pair" id
        let fields ← pairToFields pair span
        let tag ← integerValue 0 span
        builtin .constrData dataPairT .packed span [tag, fields]) s
      (Conversion lo .pack s dataPairT id) := by
  refine .after (letVar_derived hs (.self hid hv)) fun pair s1 _ ⟨h1, hs1⟩ => ?_
  simp only [pairToFields, bind_assoc]
  refine .after (call_derived hs1 ⟨rfl, rfl, rfl⟩ h1) fun fst s2 e2 h2 => ?_
  refine .after (call_derived h2.progress ⟨rfl, rfl, rfl⟩ (h1.grow e2.later))
    fun snd s3 e3 h3 => ?_
  refine fields_packs h3.progress (h2.derived.grow e3.later) h3.derived ?_
  rintro _ _ ⟨x, y, p, q, rfl, rfl, ⟨rfl, -⟩, ⟨rfl, -⟩⟩
  exact ⟨p, q, .one rfl rfl, .one rfl rfl, rfl⟩

/-- Pairs are put into data component by component. -/
theorem components_packs {convert : Converter} (ha : ConvertsNode (convert · .packed) .pack a)
    (hb : ConvertsNode (convert · .packed) .pack b) :
    Makes (do
        let pair ← letVar "pair" id
        let fst ← convert (← builtin .fstPair a .constant span [pair]) .packed
        let snd ← convert (← builtin .sndPair b .constant span [pair]) .packed
        let empty ← constValue emptyDataList dataListT span
        let tail ← builtin .mkCons dataListT .constant span [snd, empty]
        let fields ← builtin .mkCons dataListT .constant span [fst, tail]
        let tag ← integerValue 0 span
        builtin .constrData (.builtinPair a b) .packed span [tag, fields]) s
      (Conversion lo .pack s (.builtinPair a b) id) := by
  refine .after (letVar_derived hs (.self hid hv)) fun pair s1 _ ⟨h1, hs1⟩ => ?_
  refine .after (call_derived hs1 ⟨rfl, rfl, rfl⟩ h1) fun x s2 e2 hx => ?_
  refine .bind (convert_derived ha hx rfl) fun fst s3 l3 ⟨h3, hs3⟩ => ?_
  have h1 := h1.grow (e2.later.trans l3)
  refine .after (call_derived hs3 ⟨rfl, rfl, rfl⟩ h1) fun y s4 e4 hy => ?_
  refine .bind (convert_derived hb hy rfl) fun snd s5 l5 ⟨h5, hs5⟩ => ?_
  refine fields_packs hs5 (h3.grow (e4.later.trans l5)) h5 ?_
  rintro _ _ ⟨x, y, p, q, rfl, rfl, hp, hq⟩
  exact ⟨p, q, ⟨x, .one rfl rfl, p, hp, rfl⟩, ⟨y, .one rfl rfl, q, hq, rfl⟩, rfl⟩

theorem list_packs {convert : Converter} (hconvert : ConvertsVar (convert · .packed) .pack elem)
    (hr : Route .pack elem work) (hp : elem ≠ dataPairT) :
    Makes (do
        let helper ← packHelper convert elem
        let items ← apply helper id dataListT .constant span
        builtin .listData (.builtinList elem) .packed span [items]) s
      (Conversion lo .pack s (.builtinList elem) id) := by
  have hhelper : Makes (packHelper convert elem) s (Helps lo .pack s elem) :=
    keptHelper_makes hconvert hs.target hs.keeps.orderly hr.plain hs.size rfl ..
  rw [← bind_assoc]
  refine .bind (apply_derived hs hhelper hr (.self hid hv)) fun items s1 _ ⟨_, h1⟩ => ?_
  refine .convert (call_derived h1.progress ⟨rfl, rfl, rfl⟩ h1.derived) ?_
  rintro _ _ ⟨d, hd, rfl⟩
  obtain ⟨ct, cs, ds, -, rfl, rfl, hall⟩ := boxed_list hp hd
  have hitems : List.Forall₂ (Direction.pack.change elem) cs (ds.map .data) :=
    List.forall₂_map_right_iff.2 (hall.imp fun c d hd => ⟨d, hd, rfl⟩)
  exact .one ⟨ct, .data, cs, _, rfl, rfl, hitems, rfl⟩ (call_listData ds)

/-- **The work of putting constants into data.** -/
theorem build_packs {convert : Converter} {work : Work} (hr : Route .pack t work)
    (hitems : ∀ {elem work}, t = .builtinList elem → Route .pack elem work →
      ConvertsVar (convert · .packed) .pack elem)
    (hparts : ∀ {a b}, t = .builtinPair a b → Plain a → Plain b →
      ConvertsNode (convert · .packed) .pack a ∧ ConvertsNode (convert · .packed) .pack b)
    (hat : At s id n t .constant) (hn : n.isIdentifiable = true ∨ isOperation n = true) :
    Makes (work.build convert .packed id t span) s (Conversion lo .pack s t id) := by
  cases hr with
  | packInteger =>
    refine call_packs hs hid hv ⟨rfl, rfl, rfl⟩ ?_
    rintro _ _ ⟨k, rfl, rfl⟩
    rfl
  | packByteString =>
    refine call_packs hs hid hv ⟨rfl, rfl, rfl⟩ ?_
    rintro _ _ ⟨bytes, rfl, rfl⟩
    rfl
  | packString => exact string_packs hs hid hv
  | packBoolean => exact bool_packs hs hid hv
  | packUnit => exact unit_packs hs hid hv hat hn
  | packDataList =>
    refine call_packs hs hid hv ⟨rfl, rfl, rfl⟩ fun {c d} hd => ?_
    obtain ⟨ct, cs, ds, hct, rfl, rfl, hall⟩ := boxed_list (by nofun) hd
    cases hct
    have hcs : cs = ds.map .data :=
      List.forall₂_eq_eq_eq ▸ List.forall₂_map_right_iff.2 (hall.imp fun _ _ h => h.1)
    rw [hcs]
    exact call_listData ds
  | packMap =>
    refine call_packs hs hid hv ⟨rfl, rfl, rfl⟩ ?_
    rintro _ _ ⟨ps, rfl, rfl, -⟩
    exact call_mapData ps
  | packItems he hp => exact list_packs hs hid hv (hitems rfl he) he hp
  | packPair => exact pair_packs hs hid hv
  | packComponents ha hb hd =>
    obtain ⟨hca, hcb⟩ := hparts rfl ha hb
    exact components_packs hs hid hv hca hcb

end

end CoreLowering.Encoding
