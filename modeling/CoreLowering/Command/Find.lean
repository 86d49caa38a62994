import CoreLowering.Command.Spec
import CoreLowering.Text.Letter

/-!
# Finding the command of a command line

The first word that is neither a flag nor the value of one names a command,
the next such word a command below it, and so on.
-/

namespace CoreLowering.Command

/-- Whether a word is a flag that takes the next word as its value.  A flag
that is not known is taken for one. -/
def takesNext (flags : List Flag) (word : String) : Bool :=
  let standsAlone (f? : Option Flag) : Bool := (f?.map Flag.standsAlone).getD false
  !word.toList.contains '=' &&
    match word.toList with
    | '-' :: '-' :: name => !standsAlone (flags.find? (·.name = String.ofList name))
    | ['-', c] => !standsAlone (flags.find? (·.letter = some c))
    | _ => false

def isFlag (word : String) : Bool := word.toList.head? = some '-'

/-- The words that are neither flags nor their values. -/
def plainWords (flags : List Flag) : List String → List String
  | [] => []
  | "--" :: _ => []
  | w :: rest =>
    if takesNext flags w then
      match rest with
      | _ :: next :: more => plainWords flags (next :: more)
      | _ => []
    else if w ≠ "" && !isFlag w then w :: plainWords flags rest
    else plainWords flags rest

/-- The words without the first plain one that is `name`. -/
def dropCommand (flags : List Flag) (name : String) : List String → List String
  | [] => []
  | "--" :: rest => "--" :: rest
  | w :: rest =>
    if takesNext flags w then
      match rest with
      | v :: more => w :: v :: dropCommand flags name more
      | [] => [w]
    else if w = name then rest
    else w :: dropCommand flags name rest

/-- Finds a command at most `fuel` levels down, and the words that are left
for it. -/
def findIn : (fuel : Nat) → Target → List String → Target × List String
  | 0, t, words => (t, words)
  | fuel + 1, t, words =>
    let flags := t.ownFlags ++ t.inheritedFlags
    match plainWords flags words with
    | [] => (t, words)
    | name :: _ =>
      match t.spec.commands.find? (·.name = name) with
      | some c => findIn fuel ⟨t.above ++ [t.spec], c⟩ (dropCommand flags name words)
      | none => (t, words)

/-- The number of changes that lead from one text to another: letters that
are added, dropped or replaced. -/
def distance (a b : List Char) : Nat :=
  (a.foldl (fun row c => nextRow c row b) (List.range (b.length + 1))).getLastD 0
where
  /-- The distances from a text with one more letter `c`. -/
  nextRow (c : Char) (row : List Nat) (b : List Char) : List Nat :=
    match row with
    | [] => []
    | first :: rest => (first + 1) :: fill c (first + 1) first rest b
  /-- The distances after the one on the left, given those above. -/
  fill (c : Char) (left diagonal : Nat) : List Nat → List Char → List Nat
    | above :: rest, d :: ds =>
      let here := if c = d then diagonal else min (min left above) diagonal + 1
      here :: fill c here above rest ds
    | _, _ => []

def suggestions (s : Spec) (word : String) : List String :=
  let w := (lower word).toList
  ((s.commands.filter (·.isOffered)).map (·.name)).filter fun name =>
    let n := name.toList
    decide (distance w n ≤ 2) || n.take w.length = w

/-- A word that names no command. -/
structure UnknownCommand where
  word : String
  suggestions : List String

def UnknownCommand.message (e : UnknownCommand) : String :=
  "unknown command " ++ quote e.word ++ " for " ++ quote programName ++
    (if e.suggestions.isEmpty then ""
    else "\n\nDid you mean this?\n" ++
      String.join (e.suggestions.map fun s => "\t" ++ s ++ "\n"))

def find (words : List String) : Except UnknownCommand (Target × List String) :=
  let (t, rest) := findIn (words.length + 1) ⟨[], rootSpec⟩ words
  if t.above.isEmpty then
    match plainWords t.ownFlags rest with
    | [] => .ok (t, rest)
    | w :: _ => .error ⟨w, suggestions rootSpec w⟩
  else .ok (t, rest)

end CoreLowering.Command
