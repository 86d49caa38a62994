import CoreLowering.Text.Json
import CoreLowering.Text.Timestamp
import CoreLowering.Trace.Level

/-!
# Trace events

An event can be written in three ways: as a line for people, as a line of
JSON, and as an entry for the trace viewer of a browser.
-/

namespace CoreLowering.Trace

structure Event where
  /-- Microseconds since the start of 1970. -/
  time : Int
  /-- The place in the order of all events. -/
  seq : Nat
  kind : Kind
  scope : Scope
  /-- The span that the event is about, zero for none. -/
  span : Nat
  /-- The span around it, zero for none. -/
  parent : Nat
  thread : Nat
  name : String
  detail : String
  /-- More facts, by name. -/
  extra : List (String × String)

/-- A way of writing events. -/
inductive Format where
  | text
  | lines
  | viewer
  deriving DecidableEq

namespace Format

def endsWith (s suffix : String) : Bool :=
  suffix.toList.reverse.isPrefixOf s.toList.reverse

def ofPath (path : String) : Format :=
  if endsWith path ".ndjson" then lines
  else if endsWith path ".json" then viewer
  else text

/-- Reads the name of a format; its case does not matter, and nothing is
chosen by no text. -/
def parse (t : String) : Except ParseError (Option Format) :=
  match lower t with
  | "" => .ok none
  | "auto" => .ok none
  | "text" => .ok (some text)
  | "ndjson" => .ok (some lines)
  | "chrome" => .ok (some viewer)
  | _ => .error (.format t)

end Format

namespace Event

/-- The further facts, ordered by name. -/
def sortedExtra (e : Event) : List (String × String) :=
  e.extra.mergeSort fun a b => a.1 ≤ b.1

/-- The line for people: number, thread, scope, a sign for the kind, name,
detail and facts.  An event inside a span is indented. -/
def line (e : Event) : String :=
  let facts := e.sortedExtra.map fun (k, v) => k ++ "=" ++ v
  "[" ++ padLeft 6 (toString e.seq) ++ "] g" ++ padRight 4 (toString e.thread) ++ " " ++
    padRight 6 e.scope.name ++ " " ++
    (if 0 < e.parent then "  " else "") ++ e.kind.mark ++ e.name ++
    (if e.detail = "" then "" else " (" ++ e.detail ++ ")") ++
    (if facts.isEmpty then "" else " \x7b" ++ ", ".intercalate facts ++ "\x7d") ++ "\n"

/-- Facts as a field, left out if there are none. -/
def factsField (name : String) (facts : List (String × String)) : List (String × Json) :=
  if facts.isEmpty then [] else [(name, .obj (facts.map fun (k, v) => (k, .str v)))]

def textField (name value : String) : List (String × Json) :=
  if value = "" then [] else [(name, .str value)]

def jsonLine (e : Event) : String :=
  (Json.obj ([("time", .str (Timestamp.text e.time)), ("seq", .num e.seq),
      ("kind", .str e.kind.name), ("scope", .str e.scope.name)] ++
    Json.positive "span_id" e.span ++ Json.positive "parent_id" e.parent ++
    Json.positive "gid" e.thread ++ [("name", .str e.name)] ++
    textField "detail" e.detail ++ factsField "extra" e.sortedExtra)).compact ++ "\n"

def phase : Kind → String
  | .begins => "B"
  | .ends => "E"
  | _ => "i"

def viewerFacts (e : Event) : List (String × String) :=
  if e.detail = "" then e.sortedExtra
  else
    { e with extra := ("detail", e.detail) :: e.extra.filter (·.1 ≠ "detail") }.sortedExtra

def viewerEntry (e : Event) : String :=
  (Json.obj ([("name", .str e.name), ("cat", .str e.scope.name), ("ph", .str (phase e.kind)),
    ("ts", .num e.time), ("pid", .num 1), ("tid", .num e.thread)] ++
    factsField "args" e.viewerFacts)).compact

def render (e : Event) : Format → String
  | .text => e.line
  | .lines => e.jsonLine
  | .viewer => e.viewerEntry

end Event

end CoreLowering.Trace
