import CoreLowering.Graph.Fold

/-!
# Conversions between layouts

An edge is one direct conversion between two layouts of a type, with the
work it takes.  `edges` lists the edges of a type and `path?` finds a
shortest way along them.
-/

namespace CoreLowering.Graph

/-- The functions that convert lists of pairs.  Those for declared pairs do
the same as the others and have a type of their own. -/
inductive PairHelper where
  /-- Pairs of data into packed pairs. -/
  | toData (tuple : Bool)
  /-- Packed pairs into pairs of data. -/
  | ofData (tuple : Bool)
  deriving DecidableEq

namespace PairHelper

def name : PairHelper → String
  | toData false => "pairListToDataList"
  | ofData false => "dataListToPairList"
  | toData true => "tuplePairListToDataList"
  | ofData true => "tupleDataListToPairList"

def all : List PairHelper := [toData false, ofData false, toData true, ofData true]

def ofName? (name : String) : Option PairHelper :=
  all.find? (·.name = name)

end PairHelper

inductive Work where
  | call (f : Builtin)
  | packString
  | unpackString
  | packBool
  | unpackBool
  | packUnit
  | unpackUnit
  | packPair
  | unpackPair
  | packItems (elem : Ty)
  | unpackItems (elem : Ty) (const : ConstType)
  /-- A builtin pair packed item by item. -/
  | packComponents (a b : Ty)
  | helper (h : PairHelper)
  /-- A constructor taken apart into its fields. -/
  | takeFields
  /-- Fields put together under a tag. -/
  | tagFields (tag : Nat)
  | pairOfFields
  | fieldsOfPair
  | fieldsOfArray (n : Nat)

/-- A direct conversion between two layouts. -/
structure Edge where
  source : Rep
  goal : Rep
  work : Work

/-- What the work of a builtin does to a constant. -/
def foldCall (f : Builtin) (c : Constant) : Option Constant :=
  match f with
  | .iData => Fold.pack .integer c
  | .unIData => Fold.unpack .integer c
  | .bData => Fold.pack .byteString c
  | .unBData => Fold.unpack .byteString c
  | .listData => Fold.packList c
  | .unListData => Fold.unpackList c
  | .mapData => Fold.packMap c
  | .unMapData => Fold.unpackMap c
  | .listToArray => some (.array .data c.items)
  | _ => none

/-- What the work of a conversion does to a constant, if it can be told. -/
def Work.fold (w : Work) (c : Constant) : Option Constant :=
  match w with
  | call f => foldCall f c
  | packString => Fold.pack .string c
  | unpackString => Fold.unpack .string c
  | packBool => Fold.pack .boolean c
  | unpackBool => Fold.unpack .boolean c
  | packUnit => Fold.pack .unit c
  | unpackUnit => Fold.unpack .unit c
  | packPair => Fold.pack dataPairT c
  | unpackPair => Fold.unpack dataPairT c
  | packItems e => Fold.pack (.builtinList e) c
  | unpackItems e _ => Fold.unpack (.builtinList e) c
  | packComponents a b => Fold.pack (.builtinPair a b) c
  | helper (.toData _) =>
    (c.items.mapM Constant.dataPair?).map fun ps => .dataList (ps.map Data.ofPair)
  | helper (.ofData _) =>
    (c.items.mapM fun (x : Constant) => x.data?.bind Data.twoFields?).map .dataPairList
  | takeFields =>
    match c.data? with
    | some (.constr _ fields) => some (.dataList fields)
    | _ => none
  | tagFields tag => c.dataItems.map fun xs => .data (.constr (UInt64.ofNat tag) xs)
  | pairOfFields =>
    match c.items with
    | [x, y] => some (.pairOf x y)
    | _ => none
  | fieldsOfPair => c.dataPair?.map fun p => .dataList [p.1, p.2]
  | fieldsOfArray _ => some (.list .data c.items)

/-- Whether constants of a type can be packed at run time. -/
def packable : Ty → Bool
  | .all _ body => packable body
  | .con .builtinList (e :: _) => packable e
  | .con .builtinPair (a :: b :: _) => packable a && packable b
  | .con .data _ => true
  | .con c _ => c.isPrimitive
  | _ => false

/-- Whether constants of a type can be unpacked at run time. -/
def unpackable : Ty → Bool
  | .all _ body => unpackable body
  | .con .builtinList (e :: _) => packable e && unpackable e && e.constType?.isSome
  | .con .builtinPair args => (Ty.con .builtinPair args).same dataPairT
  | .con .data _ => true
  | .con c _ => c.isPrimitive
  | _ => false

/-- The edges between the constants of a type and their packed form. -/
def packEdges (pack unpack : Work) : List Edge :=
  [⟨.constant, .packed, pack⟩, ⟨.packed, .constant, unpack⟩]

def builtinListEdges (elem : Ty) : List Edge :=
  if elem.same .data then packEdges (.call .listData) (.call .unListData)
  else if elem.same dataPairT then packEdges (.call .mapData) (.call .unMapData)
  else if packable elem then
    ⟨.constant, .packed, .packItems elem⟩ ::
      match unpackable elem, elem.constType? with
      | true, some ct => [⟨.packed, .constant, .unpackItems elem ct⟩]
      | _, _ => []
  else []

/-- The edges of builtin pairs with items of two types. -/
def builtinPairEdges (a b : Ty) : List Edge :=
  if (Ty.builtinPair a b).same dataPairT then packEdges .packPair .unpackPair
  else if packable a && packable b then [⟨.constant, .packed, .packComponents a b⟩]
  else []

/-- The edges of declared lists with items of a type. -/
def listEdges (elem : Ty) : List Edge :=
  [⟨.sumList, .packedList, .call .listData⟩, ⟨.packedList, .sumList, .call .unListData⟩] ++
    if elem.isPairElem then
      let tuple := !elem.isBuiltinPair
      [⟨.sumPairList, .assocMap, .call .mapData⟩,
        ⟨.assocMap, .sumPairList, .call .unMapData⟩,
        ⟨.sumPairList, .sumList, .helper (.toData tuple)⟩,
        ⟨.sumList, .sumPairList, .helper (.ofData tuple)⟩]
    else []

/-- The tag and the number of fields of a product. -/
def productShape (ds : Decls) (t : Ty) : Option (Nat × Nat) := do
  let d ← ds.find? t.declName
  let name := match t.constrName, d.constructors with
    | "", [c] => c.name
    | name, _ => name
  let c ← d.find? name
  return (← d.tag? name, c.fields.length)

def productEdges (version : Version) (tag n : Nat) : List Edge :=
  [⟨.prodConstr, .prodList, .takeFields⟩, ⟨.prodList, .prodConstr, .tagFields tag⟩] ++
    (if n = 2 then
      [⟨.prodList, .prodPair, .pairOfFields⟩, ⟨.prodPair, .prodList, .fieldsOfPair⟩]
    else []) ++
    if version.hasBuiltinCase then
      [⟨.prodList, .prodArray, .call .listToArray⟩,
        ⟨.prodArray, .prodList, .fieldsOfArray n⟩]
    else []

/-- The direct conversions between layouts of a type. -/
def edges (ds : Decls) (version : Version) (t : Ty) : List Edge :=
  let t := t.unwrap
  match t with
  | .con .integer _ => packEdges (.call .iData) (.call .unIData)
  | .con .byteString _ => packEdges (.call .bData) (.call .unBData)
  | .con .string _ => packEdges .packString .unpackString
  | .con .boolean _ => packEdges .packBool .unpackBool
  | .con .unit _ => packEdges .packUnit .unpackUnit
  | .con .builtinList _ => builtinListEdges t.elem
  | .con .builtinPair (a :: b :: _) => builtinPairEdges a b
  | _ =>
    match ds.family t with
    | .list => listEdges t.elem
    | .product =>
      match productShape ds t with
      | some (tag, n) => productEdges version tag n
      | none => []
    | _ => []

/-- Looks for the goal from the layouts in a queue, each with the way to it
in reverse; layouts that were seen are not visited again. -/
def searchPath (es : List Edge) (goal : Rep) :
    (fuel : Nat) → List (Rep × List Edge) → List Rep → Option (List Edge)
  | 0, _, _ => none
  | _ + 1, [], _ => none
  | fuel + 1, (r, way) :: queue, seen =>
    if r = goal then some way.reverse
    else
      let next := es.filter fun e => e.source = r && !seen.contains e.goal
      searchPath es goal fuel (queue ++ next.map fun e => (e.goal, e :: way))
        (seen ++ next.map (·.goal))

/-- A shortest way from a layout to another along edges. -/
def path? (es : List Edge) (source goal : Rep) : Option (List Edge) :=
  searchPath es goal (es.length + 1) [(source, [])] [source]

/-- A known constant in another layout, if every step can be told. -/
def foldPath (ds : Decls) (version : Version) (t : Ty) (source goal : Rep) (c : Constant) :
    Option Constant :=
  if source.isClosure || goal.isClosure || source.isTypeVar || goal.isTypeVar then none
  else
    let source := ds.normalRep t source
    let goal := ds.normalRep t goal
    if ds.compatible t source goal then some c
    else
      match path? (edges ds version t) source goal with
      | some way => way.foldlM (fun c e => e.work.fold c) c
      | none => none

end CoreLowering.Graph
