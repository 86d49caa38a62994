import CoreLowering.Graph.Convert

/-!
# Using a value at a wider type

Types that fit need no work.  Otherwise the value goes up step by step, from
a case to its declared type and on to a type variable, and changes its layout
where those differ.
-/

namespace CoreLowering.Graph

/-- Whether the type is declared and the case belongs to it. -/
def isCaseOf (case whole : Ty) : Bool :=
  match case, whole with
  | .con (.caseClass d _) _, .con (.sum e) _ => d = e
  | _, _ => false

def upcastStep (span : Span) (id : ValueId) (goal : Ty) : LowerM ValueId := do
  let v ← value id
  let ds ← decls
  let source := v.type.unwrap
  if source.isNothing || v.rep = .error then reinterpret id goal (ds.standardRep goal)
  else if isCaseOf source goal.unwrap then
    if ds.family goal = .list || ds.isProduct goal then reinterpret id goal v.rep
    else
      let x ← toRep id .prodConstr
      reinterpret x goal .sumConstr
  else
    match goal.unwrap with
    | .var w =>
      if w.builtin then reinterpret id goal (.typeVar true)
      else
        let x ← toRep id (ds.packedRep v.type)
        reinterpret x goal (.typeVar false)
    | _ =>
      warn .genericCast span
        ("generic upcast from " ++ v.type.text ++ " to " ++ goal.text)
      reinterpret id goal v.rep

/-- Whether a value of a type can be used at another one as it is. -/
def fits (source goal : Ty) : Bool :=
  match source.unify goal false with
  | .ok _ => true
  | .error _ => false

def upcast (id : ValueId) (goal : Ty) (span : Span) : LowerM ValueId := do
  let v ← value id
  match goal, v.type with
  | .missing, _ => return id
  | _, .missing => return id
  | goal, source =>
    if source.same goal || fits source goal then return id
    match source.upcastChain goal with
    | [] => fail (.emptyUpcast source goal) span [source, goal] [v.rep]
    | steps => steps.foldlM (upcastStep span) id

end CoreLowering.Graph
