import CoreLowering.Timing.Fixed

/-!
# Timing reports

A report lists how long the phases of some work took, in milliseconds.
Reports can be merged; phases of one name are then added up.
-/

namespace CoreLowering.Timing

def millis (ns : Nat) : Float := ns.toFloat / 1000000

/-- A phase and the milliseconds it took. -/
structure Phase where
  name : String
  ms : Float
  note : String

structure Report where
  phases : List Phase
  total : Float

namespace Report

def empty : Report := ⟨[], 0⟩

/-- Adds the time of a phase to the phase of its name; a new one is added
without its note. -/
def addPhase (p : Phase) : List Phase → List Phase
  | [] => [{ p with note := "" }]
  | q :: qs =>
    if q.name = p.name then { q with ms := q.ms + p.ms } :: qs else q :: addPhase p qs

def merge (r o : Report) : Report :=
  ⟨o.phases.foldl (fun ps p => addPhase p ps) r.phases, r.total + o.total⟩

def line (name : String) (ms : Float) (note : String) : String :=
  "  " ++ padRight 20 name ++ " " ++ padLeft 7 (fixed 2 ms) ++ " ms" ++
    (if note = "" then "" else "  // " ++ note) ++ "\n"

def summary (r : Report) : String :=
  "timings:\n" ++ String.join (r.phases.map fun p => line p.name p.ms p.note) ++
    line "total" r.total ""

end Report

end CoreLowering.Timing
