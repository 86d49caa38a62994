import CoreLowering.Core.Machine.Call

/-!
# The machine

A strict evaluator with an environment and a stack of frames.  `step` makes
one move: it either enters a term, which counts as a step of the budget, or
gives a value back to the innermost frame.  `runFor` makes a bounded number of moves;
`evaluate` runs a closed term with a bound no run can reach, so that for every
purpose its answer is the answer of the unbounded run.

The budget bounds the number of terms entered.  A budget that is not positive
bounds nothing.  The log collects the messages of traced terms in the order
in which they were written.
-/

namespace CoreLowering.Machine

/-- What is done with a value once it is there. -/
inductive Frame where
  /-- The function is being evaluated; its argument comes next. -/
  | argument (arg : Term) (env : Env)
  /-- The argument is being evaluated. -/
  | function (f : Value)
  /-- A term under force is being evaluated. -/
  | force
  /-- A field is being evaluated, after those in `done`, which stand in
  reverse. -/
  | field (tag : UInt64) (done : List Value) (rest : List Term) (env : Env)
  /-- The scrutinee of a case is being evaluated. -/
  | scrutinee (branches : List Term) (env : Env)
  /-- A branch is being evaluated; it is then applied to `args`. -/
  | branch (args : List Value)

/-- What the machine does next. -/
inductive Control where
  | enter (t : Term) (env : Env)
  | back (v : Value)

structure State where
  control : Control
  stack : List Frame
  steps : Nat
  /-- The log, newest message first. -/
  logs : List String

structure Run where
  result : Except Stop Value
  steps : Nat
  logs : List String

/-- The version of the language and the budget of a machine. -/
structure Settings where
  version : Version
  budget : Int

/-- The next move on entering a term: a value, or another term to enter with
a frame for its value. -/
def enter (version : Version) (t : Term) (env : Env) :
    Except Failure (Control × List Frame) :=
  match t with
  | .var x =>
    match env.find? x with
    | some v => .ok (.back v, [])
    | none => .error (.freeVariable x)
  | .lam x body => .ok (.back (.lam x body env), [])
  | .delay body => .ok (.back (.delay body env), [])
  | .con c => .ok (.back (.con c), [])
  | .builtin f =>
    if f.availableIn version then .ok (.back (.builtin f 0 []), [])
    else .error (.noBuiltin f version)
  | .error => .error .errorTerm
  | .apply f a => .ok (.enter f env, [.argument a env])
  | .force body => .ok (.enter body env, [.force])
  | .constr tag fields =>
    if version.hasConstr then
      match fields with
      | [] => .ok (.back (.constr tag []), [])
      | t :: rest => .ok (.enter t env, [.field tag [] rest env])
    else .error (.noConstr version)
  | .case s branches =>
    if version.hasConstr then .ok (.enter s env, [.scrutinee branches env])
    else .error (.noCase version)
  | .unknown kind => .error (.unknownTerm kind)
  | .missing => .error .missingTerm

/-- A function value applied to an argument: the next move and the messages
written. -/
def applyValue (f a : Value) : Except Failure (Control × List String) :=
  match f with
  | .lam x body env => .ok (.enter body ((x, a) :: env), [])
  | .builtin f forces args =>
    if forces < f.forces then .error (.notForced f)
    else
      let args := args ++ [a]
      if args.length = f.arity then
        match call f args with
        | .ok v => .ok (.back v, logOf f args)
        | .error why => .error (.refused f why)
      else .ok (.back (.builtin f forces args), [])
  | v => .error (.cannotApply v)

def forceValue (v : Value) : Except Failure Control :=
  match v with
  | .delay body env => .ok (.enter body env)
  | .builtin f forces args =>
    if forces ≥ f.forces ∨ args ≠ [] then .error (.forcedTooOften f)
    else .ok (.back (.builtin f (forces + 1) []))
  | v => .error (.cannotForce v)

/-- The branch at a place and the values it is applied to. -/
def branchAt (branches : List Term) (index : Nat) (args : List Value) :
    Except Failure (Term × List Value) :=
  match branches[index]? with
  | some t => .ok (t, args)
  | none => .error (.noBranch index branches.length)

def selectBranch (version : Version) (s : Value) (branches : List Term) :
    Except Failure (Term × List Value) :=
  match s with
  | .constr tag fields => branchAt branches tag.toNat fields
  | .con c =>
    if !version.hasBuiltinCase then .error (.caseValue s version)
    else
      match c with
      | .bool true => branchAt branches 1 []
      | .bool false => branchAt branches 0 []
      | .unit => branchAt branches 0 []
      | .integer n =>
        if n < 0 ∨ n ≥ branches.length then .error (.caseInteger n)
        else branchAt branches n.toNat []
      | .list _ [] => branchAt branches 1 []
      | .list e (x :: xs) => branchAt branches 0 [.con x, .con (.list e xs)]
      | .pair _ _ (x :: y :: _) => branchAt branches 0 [.con x, .con y]
      | .data (.constr tag fields) =>
        branchAt branches 0 [integer tag.toNat, .con (.dataList fields)]
      | .data (.map entries) => branchAt branches 1 [.con (.dataPairList entries)]
      | .data (.list items) => branchAt branches 2 [.con (.dataList items)]
      | .data (.int n) => branchAt branches 3 [integer n]
      | .data (.bytes b) => branchAt branches 4 [byteString b]
      | c => .error (.caseConstant c)
  | s => .error (.caseValue s version)

/-- The next move when a value comes back to a frame: the control, a frame
to push, and the messages written. -/
def resume (version : Version) (frame : Frame) (v : Value) :
    Except Failure (Control × List Frame × List String) :=
  match frame with
  | .argument arg env => .ok (.enter arg env, [.function v], [])
  | .function f => do
    let (control, logs) ← applyValue f v
    return (control, [], logs)
  | .force => do return (← forceValue v, [], [])
  | .field tag done rest env =>
    match rest with
    | [] => .ok (.back (.constr tag (v :: done).reverse), [], [])
    | t :: rest => .ok (.enter t env, [.field tag (v :: done) rest env], [])
  | .scrutinee branches env => do
    let (t, args) ← selectBranch version v branches
    return (.enter t env, [.branch args], [])
  | .branch args =>
    match args with
    | [] => .ok (.back v, [], [])
    | a :: rest => do
      let (control, logs) ← applyValue v a
      return (control, [.branch rest], logs)

/-- One move of the machine: the next state, or how the run ended. -/
def step (m : Settings) (s : State) : State ⊕ Run :=
  match s.control with
  | .enter t env =>
    let steps := s.steps + 1
    if 0 < m.budget ∧ m.budget < steps then
      .inr ⟨.error .budget, steps, s.logs.reverse⟩
    else
      match enter m.version t env with
      | .ok (control, frames) => .inl ⟨control, frames ++ s.stack, steps, s.logs⟩
      | .error why => .inr ⟨.error (.failure why), steps, s.logs.reverse⟩
  | .back v =>
    match s.stack with
    | [] => .inr ⟨.ok v, s.steps, s.logs.reverse⟩
    | frame :: rest =>
      match resume m.version frame v with
      | .ok (control, frames, logs) =>
        .inl ⟨control, frames ++ rest, s.steps, logs ++ s.logs⟩
      | .error why => .inr ⟨.error (.failure why), s.steps, s.logs.reverse⟩

/-- Runs for at most `fuel` moves; `none` means that the run has not ended by
then. -/
def runFor (m : Settings) : (fuel : Nat) → State → Option Run
  | 0, _ => none
  | fuel + 1, s =>
    match step m s with
    | .inl s' => runFor m fuel s'
    | .inr r => some r

def State.start (t : Term) : State :=
  ⟨.enter t [], [], 0, []⟩

/-- More moves than any run can make. -/
def unreachable : Nat := 0x4000000000000000

def evaluate (m : Settings) (t : Term) : Run :=
  match runFor m unreachable (State.start t) with
  | some r => r
  | none => ⟨.error .budget, unreachable, []⟩

/-- Evaluates a closed term whose value has to be a constant. -/
def evaluateConstant (m : Settings) (t : Term) : Except Stop Constant :=
  match (evaluate m t).result with
  | .error stop => .error stop
  | .ok (.con c) => .ok c
  | .ok v => .error (.failure (.notConstant v))

end CoreLowering.Machine
