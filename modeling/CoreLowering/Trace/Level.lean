import CoreLowering.Text.Letter
import CoreLowering.Text.Quoted

/-!
# Levels of tracing

A trace event has a kind and a scope.  The level of a trace says how fine the
scopes are that it records; heartbeats are recorded at every level.
-/

namespace CoreLowering.Trace

/-- What an event marks. -/
inductive Kind where
  | begins
  | ends
  | point
  | heartbeat
  /-- A number that names no kind. -/
  | unknown
  deriving DecidableEq

namespace Kind

def ofNumber : Nat → Kind
  | 1 => begins
  | 2 => ends
  | 3 => point
  | 4 => heartbeat
  | _ => unknown

def name : Kind → String
  | begins => "begin"
  | ends => "end"
  | point => "point"
  | heartbeat => "heartbeat"
  | unknown => "unknown"

def mark : Kind → String
  | begins => "→ "
  | ends => "← "
  | point => "• "
  | heartbeat => "♡ "
  | unknown => ""

end Kind

/-- What an event is about, from the coarse to the fine; a number past the
last one names nothing. -/
inductive Scope where
  | nothing
  | driver
  | unit
  | node
  | finer (n : Nat)
  deriving DecidableEq

namespace Scope

def ofNumber : Nat → Scope
  | 0 => nothing
  | 1 => driver
  | 2 => unit
  | 3 => node
  | n => finer n

def rank : Scope → Nat
  | nothing => 0
  | driver => 1
  | unit => 2
  | node => 3
  | finer n => max n 4

def name : Scope → String
  | driver => "driver"
  | unit => "unit"
  | node => "node"
  | _ => "unknown"

end Scope

/-- How much a trace records. -/
inductive Level where
  | off
  /-- On, and still without any scope. -/
  | error
  /-- What the program as a whole does. -/
  | phase
  | detail
  /-- What is decided inside a unit. -/
  | debug
  /-- A number past the last level; on, and without any scope. -/
  | unknown
  deriving DecidableEq

namespace Level

def all : List Level := [off, error, phase, detail, debug]

def name : Level → String
  | off => "off"
  | error => "error"
  | phase => "phase"
  | detail => "detail"
  | debug => "debug"
  | unknown => "unknown"

def ofNumber (n : Nat) : Level :=
  (all[n]?).getD unknown

/-- The rank of the finest scope that is recorded. -/
def finest : Level → Nat
  | phase => 1
  | detail => 2
  | debug => 3
  | _ => 0

def records (l : Level) (s : Scope) : Bool :=
  0 < s.rank && s.rank ≤ l.finest

def isOn (l : Level) : Bool := l ≠ off

end Level

/-- A text that names no choice. -/
inductive ParseError where
  | level (text : String)
  | mode (text : String)
  | format (text : String)
  /-- A mode without a name. -/
  | nameless

def ParseError.message : ParseError → String
  | level t =>
    "invalid trace level: " ++ quote t ++ " (expected: " ++
      "|".intercalate (Level.all.map Level.name) ++ ")"
  | mode t => "invalid storage mode: " ++ quote t ++ " (expected: stream|ring|both)"
  | format t => "invalid trace format: " ++ quote t ++ " (expected: auto|text|ndjson|chrome)"
  | nameless => "unknown storage mode: unknown"

/-- Reads the name of a level; blanks around it and its case do not matter,
and no text is no trace. -/
def Level.parse (text : String) : Except ParseError Level :=
  let t := lower (trim text)
  if t = "" then .ok .off
  else
    match Level.all.find? (·.name = t) with
    | some l => .ok l
    | none => .error (.level t)

/-- Where events go. -/
inductive Mode where
  | stream
  | ring
  | both
  deriving DecidableEq

namespace Mode

def ofNumber? : Nat → Option Mode
  | 1 => some stream
  | 2 => some ring
  | 3 => some both
  | _ => none

def name : Mode → String
  | stream => "stream"
  | ring => "ring"
  | both => "both"

/-- Reads the name of a mode; blanks around it and its case do not matter,
and no text means a stream. -/
def parse (text : String) : Except ParseError Mode :=
  let t := lower (trim text)
  if t = "" then .ok stream
  else
    match [stream, ring, both].find? (·.name = t) with
    | some m => .ok m
    | none => .error (.mode t)

end Mode

end CoreLowering.Trace
