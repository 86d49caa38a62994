import CoreLowering.Core.Name
import CoreLowering.Graph.Failure

/-!
# The state of a lowering

A lowering keeps its graph, the names in scope, the conversions and helpers
made so far, the names given away, counters, findings and, for debugging,
a trail of points.  A failure does not undo anything: what was done before it
stays, scopes that were open included.
-/

namespace CoreLowering.Graph

/-- Numbers about a lowering. -/
structure Stats where
  values : Nat
  vars : Nat
  aliases : Nat
  bindings : Nat
  inlined : Nat
  warnings : Nat
  deriving DecidableEq

/-- A point of the trail: its name and a detail. -/
structure Point where
  name : String
  detail : String

structure State where
  target : Version
  decls : Decls
  debug : Bool
  /-- The values, the first of which has the number one. -/
  values : Array Value
  /-- The names in scope, the innermost frame first. -/
  scope : List (List (String × ValueId))
  /-- What variables look like in other layouts, by the keys of these. -/
  views : List ((ValueId × String) × ValueId)
  helpers : List (String × ValueId)
  /-- For each base name, the next number to try. -/
  counters : List (String × Nat)
  taken : List String
  usesFix : Bool
  aliases : Nat
  bindings : Nat
  inlined : Nat
  warnings : Nat
  /-- The findings, the newest first. -/
  reported : List Diagnostic
  /-- The trail, the newest point first. -/
  points : List Point

/-- The name that the fixed-point combinator is bound to. -/
def fixName : String := "__fix"

def State.new (target : Version) (decls : Decls) (debug : Bool) : State where
  target := target.orStandard
  decls := decls
  debug := debug
  values := #[]
  scope := [[]]
  views := []
  helpers := []
  counters := []
  taken := [fixName]
  usesFix := false
  aliases := 0
  bindings := 0
  inlined := 0
  warnings := 0
  reported := []
  points := []

def State.size (s : State) : Nat := s.values.size

def State.value? (s : State) (id : ValueId) : Option Value :=
  match id with
  | 0 => none
  | n + 1 => s.values[n]?

/-- Numbers about the lowering so far. -/
def State.stats (s : State) : Stats where
  values := s.size
  vars := s.values.toList.countP (·.node.isIdentifiable)
  aliases := s.aliases
  bindings := s.bindings
  inlined := s.inlined
  warnings := s.warnings

/-- The findings, the oldest first. -/
def State.diagnostics (s : State) : List Diagnostic := s.reported.reverse

def State.trail (s : State) : List Point := s.points.reverse

/-- A step of a lowering: it changes the state and may fail. -/
abbrev LowerM := ExceptT Failure (StateM State)

def LowerM.run {α : Type} (m : LowerM α) (s : State) : Except Failure α × State :=
  (ExceptT.run m).run s

def point (name detail : String) : LowerM Unit :=
  modify fun s => if s.debug then { s with points := ⟨name, detail⟩ :: s.points } else s

def fail {α : Type} (cause : Cause) (span : Span) (types : List Ty) (reps : List Rep) :
    LowerM α := do
  let failure : Failure := ⟨cause, span, types, reps⟩
  point "fatal" failure.message
  throw failure

/-- Fails without types and layouts to show. -/
def failAt {α : Type} (cause : Cause) (span : Span) : LowerM α :=
  fail cause span [] []

def warn (code : Code) (span : Span) (message : String) : LowerM Unit := do
  modify fun s => { s with warnings := s.warnings + 1 }
  point "warning" message
  modify fun s => { s with reported := Diagnostic.warning code span message :: s.reported }

def value (id : ValueId) : LowerM Value := do
  match (← get).value? id with
  | some v => return v
  | none => failAt (.invalidValue id) .none

def update (id : ValueId) (f : Value → Value) : LowerM Unit :=
  modify fun s => { s with values := s.values.modify (id - 1) f }

def alloc (v : Value) : LowerM ValueId :=
  modifyGet fun s => (s.values.size + 1, { s with values := s.values.push v })

def decls : LowerM Decls := return (← get).decls

def target : LowerM Version := return (← get).target

def standardRep (t : Ty) : LowerM Rep := return (← decls).standardRep t

def family (t : Ty) : LowerM Family := return (← decls).family t

/-- The name with a number added, unless it is the first of its kind. -/
def numbered (base : String) (n : Nat) : String :=
  if n = 0 then base else base ++ "_" ++ toString n

/-- The first number from `n` on that gives a name not taken, looking at
`fuel` numbers. -/
def firstFree (taken : List String) (base : String) : (fuel : Nat) → (n : Nat) → Nat
  | 0, n => n
  | fuel + 1, n =>
    if taken.contains (numbered base n) then firstFree taken base fuel (n + 1) else n

def freshNameAfter (normalize : String → String) (base : String) : LowerM String :=
  modifyGet fun s =>
    let base := Name.cleanAfter normalize base
    let n := firstFree s.taken base (s.taken.length + 1) ((s.counters.lookup base).getD 0)
    (numbered base n,
      { s with
        counters := (base, n + 1) :: s.counters.filter (·.1 != base)
        taken := numbered base n :: s.taken })

def freshName (base : String) : LowerM String := freshNameAfter compose base

def pushScope : LowerM Unit :=
  modify fun s => { s with scope := [] :: s.scope }

/-- Closes the innermost scope; the outermost stays. -/
def popScope : LowerM Unit :=
  modify fun s =>
    match s.scope with
    | _ :: frame :: rest => { s with scope := frame :: rest }
    | _ => s

/-- Lets a name stand for a value in the innermost scope. -/
def define (name : String) (id : ValueId) : LowerM Unit :=
  modify fun s =>
    match s.scope with
    | frame :: rest => { s with scope := ((name, id) :: frame) :: rest }
    | [] => { s with scope := [[(name, id)]] }

def addToLast (name : String) (id : ValueId) :
    List (List (String × ValueId)) → List (List (String × ValueId))
  | [] => [[(name, id)]]
  | [frame] => [(name, id) :: frame]
  | frame :: rest => frame :: addToLast name id rest

/-- Lets a name stand for a value in the outermost scope. -/
def defineGlobal (name : String) (id : ValueId) : LowerM Unit :=
  modify fun s => { s with scope := addToLast name id s.scope }

def lookupName (name : String) : LowerM (Option ValueId) :=
  return (← get).scope.flatten.lookup name

end CoreLowering.Graph
