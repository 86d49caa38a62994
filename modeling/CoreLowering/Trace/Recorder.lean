import CoreLowering.Trace.Event

/-!
# Recording a trace

A recorder passes events on to its sinks.  A stream writes each event at
once; a ring keeps the newest events up to its capacity.  Each sink numbers
the events it takes, and the numbers are drawn from one counter.
-/

namespace CoreLowering.Trace

/-- Where events go. -/
inductive Sink where
  /-- Writes events in a format; `count` of them so far. -/
  | stream (format : Format) (written : String) (count : Nat)
  /-- Keeps events, the newest first; `total` of them so far. -/
  | ring (capacity : Nat) (kept : List Event) (total : Nat)

structure Recorder where
  level : Level
  sinks : List Sink
  /-- The last number given to an event. -/
  seq : Nat
  spans : Nat

/-- A span that was begun; one that is not recorded has no number. -/
structure Span where
  id : Nat
  scope : Scope
  name : String
  parent : Nat
  extra : List (String × String)
  isOpen : Bool

namespace Sink

/-- A stream, which for the viewer starts with the head of a document. -/
def newStream (format : Format) : Sink :=
  .stream format (if format = .viewer then "\x7b\"traceEvents\":[\n" else "") 0

/-- The capacity of a ring for which none is chosen. -/
def standardCapacity : Nat := 4096

def newRing (capacity : Int) : Sink :=
  .ring (if capacity ≤ 0 then standardCapacity else capacity.toNat) [] 0

def take (e : Event) : Sink → Sink
  | stream format written count =>
    let comma := if format = .viewer && 0 < count then ",\n" else ""
    .stream format (written ++ comma ++ e.render format) (count + 1)
  | ring capacity kept total => .ring capacity ((e :: kept).take capacity) (total + 1)

/-- Closes a sink, which for the viewer ends the document. -/
def close : Sink → Sink
  | stream .viewer written count => .stream .viewer (written ++ "\n]\x7d\n") count
  | s => s

def written : Sink → String
  | stream _ w _ => w
  | ring _ _ _ => ""

end Sink

namespace Recorder

def nothing : Recorder := ⟨.off, [], 0, 0⟩

def new (level : Level) (mode : Mode) (format : Format) (capacity : Int) : Recorder :=
  match level, mode with
  | .off, _ => nothing
  | level, .stream => ⟨level, [.newStream format], 0, 0⟩
  | level, .ring => ⟨level, [.newRing capacity], 0, 0⟩
  | level, .both => ⟨level, [.newStream format, .newRing capacity], 0, 0⟩

/-- A new recorder for a mode that may be unknown, which matters only if
there is something to record. -/
def new? (level : Level) (mode? : Option Mode) (format : Format) (capacity : Int) :
    Except ParseError Recorder :=
  match mode? with
  | some mode => .ok (new level mode format capacity)
  | none => if level.isOn then .error .nameless else .ok nothing

def admits (r : Recorder) (e : Event) : Bool :=
  e.kind = .heartbeat || r.level.records e.scope

/-- Passes an event on to sinks, with numbers after `seq`. -/
def passOn (e : Event) : (seq : Nat) → List Sink → List Sink × Nat
  | seq, [] => ([], seq)
  | seq, s :: rest =>
    let (rest, last) := passOn e (seq + 1) rest
    (s.take { e with seq := seq + 1 } :: rest, last)

def emit (r : Recorder) (e : Event) : Recorder :=
  if r.admits e then
    let (sinks, seq) := passOn e r.seq r.sinks
    { r with sinks, seq }
  else r

def mainThread : Nat := 1

def begin (r : Recorder) (time : Int) (scope : Scope) (name : String) (parent : Nat) :
    Recorder × Span :=
  if r.level.records scope then
    let id := r.spans + 1
    let e : Event := ⟨time, 0, .begins, scope, id, parent, mainThread, name, "", []⟩
    ({ r with spans := id }.emit e, ⟨id, scope, name, parent, [], true⟩)
  else (r, ⟨0, scope, name, parent, [], false⟩)

/-- Ends a span, unless it has ended. -/
def finish (r : Recorder) (time : Int) (s : Span) (detail : String) : Recorder × Span :=
  if s.isOpen then
    (r.emit ⟨time, 0, .ends, s.scope, s.id, s.parent, mainThread, s.name, detail, s.extra⟩,
      { s with isOpen := false })
  else (r, s)

def point (r : Recorder) (time : Int) (scope : Scope) (parent : Nat) (name detail : String) :
    Recorder :=
  if r.level.records scope then
    r.emit ⟨time, 0, .point, scope, 0, parent, mainThread, name, detail, []⟩
  else r

/-- The events of the first ring, the oldest first, and how many it lost. -/
def ring? (r : Recorder) : Option (List Event × Nat) :=
  r.sinks.findSome? fun
    | .ring _ kept total => some (kept.reverse, total - kept.length)
    | .stream _ _ _ => none

def close (r : Recorder) : Recorder :=
  { r with sinks := r.sinks.map Sink.close }

def written (r : Recorder) : String :=
  String.join (r.sinks.map Sink.written)

end Recorder

/-- Adds a fact to the end of a span, in place of one of the same name. -/
def Span.withExtra (s : Span) (key value : String) : Span :=
  { s with extra := s.extra.filter (·.1 ≠ key) ++ [(key, value)] }

end CoreLowering.Trace
