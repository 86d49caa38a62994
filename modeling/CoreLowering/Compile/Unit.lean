import CoreLowering.Compile.Entry
import CoreLowering.Compile.Progress
import CoreLowering.Graph.Lower
import CoreLowering.Source.FileSet
import CoreLowering.Timing.Report
import CoreLowering.Trace.Recorder
import CoreLowering.Typed.Validate

/-!
# Lowering a unit of bytes

A unit is decoded, checked and lowered.  If results are kept, a unit that was
lowered before is answered from its entry and a new result is stored.  What
goes wrong with the unit ends up among the findings.

A run is a computation over any monad that can tell the time and look after
stored results.  A shelf holds results in memory, and runs over it take no
time.
-/

namespace CoreLowering.Compile

/-- Where results are kept, by the keys of their requests.  Both ways may
fail with a text. -/
structure Store (m : Type → Type) where
  load : Bytes → m (Except String (Option Bytes))
  keep : Bytes → Bytes → m (Except String Unit)

/-- What a run needs from its surroundings. -/
structure Surroundings (m : Type → Type) where
  /-- Nanoseconds since the start of 1970. -/
  now : m Nat
  store : Option (Store m)

/-- A phase of a run and the nanoseconds it took. -/
structure PhaseTime where
  name : String
  failed : Bool
  elapsed : Nat

def PhaseTime.note (p : PhaseTime) : String := if p.failed then "failed" else ""

structure UnitResult where
  path : String
  name : String
  program : Option Program
  usesFix : Bool
  stats : Graph.Stats
  cached : Bool
  bag : Bag
  files : FileSet
  phases : List PhaseTime
  steps : List Step

namespace UnitResult

/-- Whether there is a program and nothing is wrong. -/
def ok (r : UnitResult) : Bool := r.program.isSome && !r.bag.hasErrors

/-- How long the phases took. -/
def timing (r : UnitResult) : Timing.Report :=
  ⟨r.phases.map fun p => ⟨p.name, Timing.millis p.elapsed, p.note⟩,
    Timing.millis (r.phases.foldl (fun n p => n + p.elapsed) 0)⟩

end UnitResult

structure Run where
  path : String
  options : Options
  name : String := ""
  answer : Option Entry := none
  cached : Bool := false
  reporter : Reporter
  files : FileSet := .empty
  phases : List PhaseTime := []
  steps : List Step := []
  recorder : Trace.Recorder

abbrev RunM (m : Type → Type) := StateT Run m

namespace Run

def new (path : String) (options : Options) (recorder : Trace.Recorder) : Run :=
  { path, options, reporter := .ofBag (.new options.limit), recorder }

/-- What comes out of a run; findings are in order. -/
def result (u : Run) : UnitResult :=
  { path := u.path
    name := u.name
    program := u.answer.map (·.program)
    usesFix := (u.answer.map (·.usesFix)).getD false
    stats := (u.answer.map (·.stats)).getD ⟨0, 0, 0, 0, 0, 0⟩
    cached := u.cached
    bag := u.reporter.bag.sort
    files := u.files
    phases := u.phases
    steps := u.steps }

def report (u : Run) (d : Diagnostic) : Run :=
  { u with reporter := u.reporter.report d }

def reportAll (u : Run) (ds : List Diagnostic) : Run :=
  ds.foldl report u

def step (u : Run) (stage : Stage) (status : Status) (error : Option String := none) : Run :=
  { u with steps := u.steps ++ [⟨stage, status, error⟩] }

def fail (u : Run) (stage : Stage) (code : Code) (message : String) : Run :=
  (u.report (.error code .none message)).step stage .error message

/-- Takes over a stored result; its findings are taken as they are. -/
def takeOver (u : Run) (e : Entry) : Run :=
  { u with
    name := e.unit, answer := some e, cached := true
    reporter := { u.reporter with bag := u.reporter.bag.addAll e.diagnostics } }

end Run

/-- Records the lowering of a unit inside the span `parent`. -/
def recordLowering (r : Trace.Recorder) (time : Int) (parent : Nat) (unit : String)
    (trail : List Graph.Point) : Trace.Recorder :=
  let (r, span) := r.begin time .unit ("lower " ++ unit) parent
  let inside := if span.id = 0 then parent else span.id
  let r := trail.foldl (fun r p => r.point time .node inside p.name p.detail) r
  (r.finish time span unit).1

section Stages

variable {m : Type → Type} [Monad m] (s : Surroundings m)

def phase {ε α : Type} (name : String) (act : RunM m (Except ε α)) : RunM m (Except ε α) := do
  let start ← s.now
  let r ← act
  let stop ← s.now
  let failed := match r with
    | .ok _ => false
    | .error _ => true
  modify fun u => { u with phases := u.phases ++ [⟨name, failed, stop - start⟩] }
  return r

def eventTime : RunM m Int := do
  return ((← s.now) / 1000 : Nat)

/-- The stored result for a key, if there is one that can be used. -/
def stored? (store : Store m) (k : Bytes) : RunM m (Except String (Option Entry)) := do
  match ← store.load k with
  | .error e => return .error e
  | .ok none => return .ok none
  | .ok (some bytes) =>
    match Entry.decode bytes with
    | .ok e? => return .ok e?
    | .error f =>
      return .error ("decode cache entry " ++ Hex.encode (k.take 8) ++ ": " ++ f.message)

/-- Answers the request from the store; says whether it could. -/
def answerFrom (store : Store m) (k : Bytes) (span : Nat) : RunM m Bool := do
  match ← phase s "cache" (stored? store k) with
  | .error e =>
    modify (·.report (.warning .cacheCorrupt .none e))
    return false
  | .ok none => return false
  | .ok (some e) =>
    let time ← eventTime s
    modify fun u =>
      let u := u.takeOver e
      { u with recorder := u.recorder.point time .unit span "cache-hit" u.path }.step .cache
        .cached
    return true

def decodeUnit (unit : Bytes) : RunM m (Option Module) := do
  modify (·.step .decode .working)
  match ← phase s "decode" (pure (Interchange.ModuleRecord.decode unit)) with
  | .error e =>
    modify (·.fail .decode .decodeFailed e.message)
    return none
  | .ok record =>
    let u := record.toModule
    modify fun run => { run with name := u.name }
    return some u

/-- Why a unit is not valid. -/
inductive Invalid where
  | declaredTwice (e : DeclaredTwice)
  | faulty

def validateUnit (unit : Module) : RunM m (Option Decls) := do
  modify (·.step .validate .working)
  let checked ← phase s "validate" do
    match unit.scope with
    | .error e => return .error (Invalid.declaredTwice e)
    | .ok decls =>
      let faults := unit.faults decls
      modify (·.reportAll faults)
      return if faults.isEmpty then .ok decls else .error .faulty
  match checked with
  | .ok decls => return some decls
  | .error (.declaredTwice e) =>
    modify (·.fail .validate .unknownDecl e.message)
    return none
  | .error .faulty =>
    modify (·.step .validate .error "invalid SIR")
    return none

/-- Lowers a unit that was checked, inside the span `span`. -/
def lowerUnit (unit : Module) (decls : Decls) (span : Nat) : RunM m (Option Entry) := do
  modify (·.step .lower .working)
  let o := (← get).options
  let lowered ← phase s "lower" do
    let l := Graph.lowerWith decls unit.root o.version o.debug
    let time ← eventTime s
    modify fun u =>
      let recorder := recordLowering u.recorder time span unit.name (l.trail.getD [])
      { u with recorder }.reportAll l.diagnostics
    return l.result.map fun r => (r, l.stats)
  match lowered with
  | .error (.failed f) =>
    if f.code = .internal then modify (·.report f.diagnostic)
    modify (·.step .lower .error f.message)
    return none
  | .error e =>
    modify (·.fail .lower .internal e.message)
    return none
  | .ok (r, stats) =>
    let term := if o.noLink then r.unlinked else r.term
    modify (·.step .lower .done)
    let diagnostics := (← get).reporter.bag.items
    return some ⟨unit.name, ⟨o.version, term⟩, r.usesFix, stats, diagnostics⟩

def keepEntry (store : Store m) (k : Bytes) (e : Entry) : RunM m Unit := do
  match ← phase s "store" (store.keep k e.encode) with
  | .ok _ => return ()
  | .error text => modify (·.report (.warning .ioError .none ("cache: " ++ text)))

/-- Decodes, checks and lowers a unit and stores the result, inside the span
`span`. -/
def produce (unit : Bytes) (k : Bytes) (span : Nat) : RunM m Unit := do
  let some u ← decodeUnit s unit | return ()
  let some decls ← validateUnit s u | return ()
  let some e ← lowerUnit s u decls span | return ()
  modify fun run => { run with answer := some e }
  match s.store with
  | some store => keepEntry s store k e
  | none => return ()

/-- Answers a request inside the span `parent`. -/
def runUnit (unit : Bytes) (parent : Nat) : RunM m Unit := do
  let u ← get
  let (recorder, span) := u.recorder.begin (← eventTime s) .unit "unit" parent
  set { u with recorder }
  let span := span.withExtra "path" u.path
  let inside := if span.id = 0 then parent else span.id
  let k := key unit u.options
  let answered ← match s.store with
    | some store => answerFrom s store k span.id
    | none => pure false
  unless answered do produce s unit k inside
  let time ← eventTime s
  modify fun u => { u with recorder := (u.recorder.finish time span u.path).1 }

def lowerBytes (path : String) (unit : Bytes) (options : Options) (recorder : Trace.Recorder) :
    m (UnitResult × Trace.Recorder) := do
  let start := Run.new path options recorder
  let (_, u) ← (runUnit s unit 0).run { start with files := (start.files.addPath path).1 }
  return (u.result, u.recorder)

/-- Reads and lowers a unit, inside the span `parent`. -/
def lowerFile (read : String → m (Except String Bytes)) (path : String) (options : Options)
    (parent : Nat) (recorder : Trace.Recorder) : m (UnitResult × Trace.Recorder) := do
  let act : RunM m Unit := do
    modify (·.step .read .working)
    match ← phase s "read" (read path) with
    | .error e => modify (·.fail .read .ioError ("failed to load unit: " ++ e))
    | .ok unit =>
      modify fun u => { u with files := (u.files.addPath path).1 }
      runUnit s unit parent
  let (_, u) ← act.run (Run.new path options recorder)
  return (u.result, u.recorder)

end Stages

/-! ## Results kept in memory -/

/-- Stored results with their keys, the newest first. -/
abbrev Shelf := List (Bytes × Bytes)

namespace Shelf

def find (s : Shelf) (k : Bytes) : Option Bytes :=
  s.lookup k

/-- Puts a result in the place of the one for its key. -/
def put (s : Shelf) (k entry : Bytes) : Shelf :=
  (k, entry) :: s.filter (·.1 ≠ k)

def store : Store (StateM Shelf) where
  load k := do return .ok ((← get).find k)
  keep k entry := do
    modify (·.put k entry)
    return .ok ()

/-- Surroundings in which time stands still, with or without the shelf. -/
def surroundings (useShelf : Bool) : Surroundings (StateM Shelf) where
  now := pure 0
  store := if useShelf then some store else none

end Shelf

end CoreLowering.Compile
