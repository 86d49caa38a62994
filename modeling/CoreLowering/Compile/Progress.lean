/-!
# Progress

What is done with a unit goes through stages, and each stage has a status.
-/

namespace CoreLowering.Compile

/-- A stage that a unit goes through. -/
inductive Stage where
  | read
  | decode
  | validate
  | lower
  | cache
  /-- A stage that this library does not know. -/
  | other (name : String)
  deriving DecidableEq

def Stage.name : Stage → String
  | read => "read"
  | decode => "decode"
  | validate => "validate"
  | lower => "lower"
  | cache => "cache"
  | other name => name

def Stage.ofName (name : String) : Stage :=
  ([read, decode, validate, lower, cache].find? (·.name = name)).getD (other name)

/-- How far a unit is in a stage. -/
inductive Status where
  | queued
  | working
  | done
  | error
  | cached
  /-- A status that this library does not know. -/
  | other (name : String)
  deriving DecidableEq

def Status.name : Status → String
  | queued => "queued"
  | working => "working"
  | done => "done"
  | error => "error"
  | cached => "cached"
  | other name => name

def Status.ofName (name : String) : Status :=
  ([queued, working, done, error, cached].find? (·.name = name)).getD (other name)

/-- Whether nothing more happens to a unit. -/
def Status.isFinal : Status → Bool
  | done => true
  | error => true
  | cached => true
  | _ => false

/-- A step of progress, with the error that ended the stage. -/
structure Step where
  stage : Stage
  status : Status
  error : Option String := none

end CoreLowering.Compile
