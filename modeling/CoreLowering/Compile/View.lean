import CoreLowering.Compile.Progress
import CoreLowering.Text.Columns
import CoreLowering.Text.Duration

/-!
# The progress view

While units are lowered, the view shows a line for each of them with its
stage or its status, and a bar below them.
-/

namespace CoreLowering.Compile

/-- A unit as the view shows it. -/
structure UnitLine where
  path : String
  stage : Stage
  status : Status
  /-- Nanoseconds that the last stage took, if known. -/
  elapsed : Nat

structure View where
  title : String
  units : List UnitLine
  width : Int
  barWidth : Int
  closed : Bool

namespace UnitLine

def activity : Stage → String
  | .read => "reading"
  | .decode => "decoding"
  | .validate => "validating"
  | .lower => "lowering"
  | .cache => "caching"
  | .other _ => ""

def label (u : UnitLine) : String :=
  if u.status = .working then activity u.stage else u.status.name

def line (pathWidth : Nat) (u : UnitLine) : String :=
  let time :=
    if u.status.isFinal && 0 < u.elapsed then
      " " ++ Duration.text (Duration.toMicros u.elapsed)
    else ""
  "  " ++ padLeft 11 u.label ++ " " ++ Columns.truncate u.path pathWidth "..." ++ time ++ "\n"

end UnitLine

namespace View

def new (title : String) (paths : List String) : View :=
  ⟨title, paths.map fun p => ⟨p, .other "", .queued, 0⟩, 80, 76, false⟩

def resize (v : View) (width : Int) : View :=
  if 0 < width then { v with width, barWidth := width - 4 } else v

/-- Takes note of what happened to a unit; of units of one path it is the
last one, and a path that is not shown is left alone. -/
def record (v : View) (path : String) (stage : Stage) (status : Status) (elapsed : Int) : View :=
  match v.units.reverse.findIdx? (·.path = path) with
  | none => v
  | some fromEnd =>
    { v with
      units := v.units.modify (v.units.length - 1 - fromEnd) fun u =>
        { u with
          stage, status
          elapsed := if 0 < elapsed then elapsed.toNat else u.elapsed } }

/-- The view after the last event. -/
def close (v : View) : View := { v with closed := true }

def finished (v : View) : Nat := v.units.countP (·.status.isFinal)

def failed (v : View) : Nat := v.units.countP (·.status = .error)

/-- The line above the units. -/
def header (v : View) : String :=
  let counts := v.title ++ " " ++ toString v.finished ++ "/" ++ toString v.units.length ++
    (if 0 < v.failed then ", " ++ toString v.failed ++ " failed" else "")
  if v.closed then "done: " ++ counts else "⣾  " ++ counts

/-- The bar below the units, which is full once the view is closed. -/
def bar (v : View) : String :=
  let cells := (v.barWidth - 5).toNat
  if v.closed then String.ofList (List.replicate cells '█') ++ " 100%"
  else String.ofList (List.replicate cells '░') ++ "   0%"

/-- The text of the view; without units there is nothing to show. -/
def text (v : View) : String :=
  if v.units.isEmpty then ""
  else
    let pathWidth := (max (v.width - 26) 20).toNat
    v.header ++ "\n\n" ++ String.join (v.units.map (UnitLine.line pathWidth)) ++ "\n" ++
      v.bar ++ "\n"

end View

end CoreLowering.Compile
