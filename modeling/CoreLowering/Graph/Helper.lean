import CoreLowering.Graph.CaseOf
import CoreLowering.Graph.Edge

/-!
# Helper functions

Some conversions work on every item of a list.  They are recursive functions
that are built once and shared by all their uses.
-/

namespace CoreLowering.Graph

/-- The list of the two items of a pair of data. -/
def pairToFields (p : ValueId) (span : Span) : LowerM ValueId := do
  let fst ← builtin .fstPair .data .constant span [p]
  let snd ← builtin .sndPair .data .constant span [p]
  let nil ← constValue emptyDataList dataListT span
  let tail ← builtin .mkCons dataListT .constant span [snd, nil]
  builtin .mkCons dataListT .constant span [fst, tail]

/-- The pair of the first two items of a list of data. -/
def fieldsToPair (fields : ValueId) (type : Ty) (rep : Rep) (span : Span) :
    LowerM ValueId := do
  let fst ← builtin .headList .data .constant span [fields]
  let rest ← builtin .tailList dataListT .constant span [fields]
  let snd ← builtin .headList .data .constant span [rest]
  builtin .mkPairData type rep span [fst, snd]

/-- The recursive function that maps `head` over a builtin list. -/
def mapListHelper (name : String) (type input output : Ty) (item : Binder)
    (head : ValueId → LowerM ValueId) (empty : Constant) : LowerM ValueId := do
  let rep := Rep.closure .constant .constant
  let self ← newBinder name type rep .none
  let list ← newBinder "l" input .constant .none
  let opened ← beginCase .list list .none
  let (opened, ids) ← opened.bind 0 [item, ⟨"t", input, .constant⟩]
  match ids with
  | [h, t] =>
    let rest ← apply self t output .constant .none
    let first ← head h
    let cons ← builtin .mkCons output .constant .none [first, rest]
    let nil ← constValue empty output .none
    let body ← opened.finish [some cons, some nil] output .constant
    let lam ← lambda (some list) body type rep true .none
    setRhs self (← fix self lam .none)
    return self
  | _ => failAt (.noBinders .list) .none

/-- What a helper for lists of pairs does with an item. -/
def pairHelperHead (h : PairHelper) (item : ValueId) : LowerM ValueId := do
  match h with
  | .toData _ =>
    let fields ← pairToFields item .none
    let tag ← integerValue 0 .none
    builtin .constrData .data .constant .none [tag, fields]
  | .ofData _ =>
    let taken ← builtin .unConstrData constrT .constant .none [item]
    let snd ← builtin .sndPair dataListT .constant .none [taken]
    let fields ← newVar "fields" dataListT .constant snd .none
    fieldsToPair fields dataPairT .constant .none

/-- The type of the helpers for lists of declared pairs. -/
def tupleHelperType : Ty :=
  let a : TyVar := ⟨"A", 0xFFFD0001, false⟩
  let b : TyVar := ⟨"B", 0xFFFD0002, false⟩
  let list := Ty.sum "List" [.caseClass "Tuple2" "Tuple2" [.var a, .var b]]
  .forAll [a, b] (.arrow list list)

/-- The types of a helper for lists of pairs: its own, and those of its
argument and its result as builtin lists. -/
def pairHelperTypes (h : PairHelper) : Ty × Ty × Ty :=
  let (input, output, tuple) := match h with
    | .toData tuple => (pairListT, dataListT, tuple)
    | .ofData tuple => (dataListT, pairListT, tuple)
  (if tuple then tupleHelperType else .arrow input output, input, output)

/-- The empty list that a helper for lists of pairs gives. -/
def pairHelperEmpty : PairHelper → Constant
  | .toData _ => emptyDataList
  | .ofData _ => emptyPairList

/-- The helper kept under a key, built on first use. -/
def keptHelper (key : String) (make : LowerM ValueId) : LowerM ValueId := do
  match (← get).helpers.lookup key with
  | some id => return id
  | none =>
    let id ← make
    modify fun s => { s with helpers := (key, id) :: s.helpers }
    return id

/-- The helper for lists of pairs, known under its name to the whole
unit. -/
def pairHelper (h : PairHelper) : LowerM ValueId :=
  keptHelper h.name do
    let (type, input, output) := pairHelperTypes h
    let id ← mapListHelper h.name type input output ⟨"h", input.elem, .constant⟩
      (pairHelperHead h) (pairHelperEmpty h)
    defineGlobal h.name id
    point "helper" h.name
    return id

/-- The helper that packs every item of a list.  `convert` changes the
layout of an item. -/
def packHelper (convert : ValueId → Rep → LowerM ValueId) (elem : Ty) : LowerM ValueId :=
  let key := "pack " ++ elem.text
  keptHelper key do
    let list := Ty.builtinList elem
    let id ← mapListHelper "packList" (.arrow list dataListT) list dataListT
      ⟨"h", elem, .constant⟩ (fun h => convert h .packed) emptyDataList
    point "helper" key
    return id

/-- The helper that unpacks every item of a list. -/
def unpackHelper (convert : ValueId → Rep → LowerM ValueId) (elem : Ty) (ct : ConstType) :
    LowerM ValueId :=
  let key := "unpack " ++ elem.text
  keptHelper key do
    let list := Ty.builtinList elem
    let id ← mapListHelper "unpackList" (.arrow dataListT list) dataListT list
      ⟨"h", elem, .packed⟩ (fun h => convert h .constant) (.list ct [])
    point "helper" key
    return id

end CoreLowering.Graph
