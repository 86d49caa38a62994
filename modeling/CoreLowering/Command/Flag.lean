import CoreLowering.Text.Duration
import CoreLowering.Text.Numeral

/-!
# Flags of a command line

A flag has a name and sometimes a letter.  `--name=value`, `--name value`,
`-nvalue`, `-n=value` and `-n value` give it a value; a flag for a truth value
may stand alone.  Flags and other words may be mixed, and after `--` there are
no more flags.  Of several values of a flag the last one counts.
-/

namespace CoreLowering.Command

inductive FlagValue where
  | bool (b : Bool)
  | integer (n : Int)
  | text (s : String)
  /-- A span of time, in nanoseconds. -/
  | duration (ns : Int)

structure Flag where
  name : String
  letter : Option Char := none
  initial : FlagValue
  usage : String

/-- Why the words of a command line make no sense. -/
inductive FlagError where
  | unknown (name : String)
  | unknownLetter (letter : Char) (word : String)
  | noValue (name : String)
  | noLetterValue (letter : Char) (word : String)
  | badForm (word : String)
  | badValue (flag : Flag) (value cause : String)

namespace Flag

def standsAlone (f : Flag) : Bool :=
  match f.initial with
  | .bool _ => true
  | _ => false

def fullName (f : Flag) : String :=
  match f.letter with
  | some c => "-" ++ c.toString ++ ", --" ++ f.name
  | none => "--" ++ f.name

/-- The truth value a text stands for. -/
def bool? (s : String) : Option Bool :=
  if ["1", "t", "T", "TRUE", "true", "True"].contains s then some true
  else if ["0", "f", "F", "FALSE", "false", "False"].contains s then some false
  else none

/-- The value of a flag that a text stands for, or what is wrong with it. -/
def parse (f : Flag) (s : String) : Except String FlagValue :=
  match f.initial with
  | .bool _ =>
    match bool? s with
    | some b => .ok (.bool b)
    | none => .error ("strconv.ParseBool: parsing " ++ quote s ++ ": invalid syntax")
  | .integer _ =>
    match Numeral.integer s with
    | .ok n => .ok (.integer n)
    | .error e => .error ("strconv.ParseInt: parsing " ++ quote s ++ ": " ++ e.message)
  | .text _ => .ok (.text s)
  | .duration _ =>
    match Duration.parse s with
    | .ok ns => .ok (.duration ns)
    | .error e => .error e.message

end Flag

/-- A character between single quotes. -/
def quoteChar (c : Char) : String :=
  "'" ++ (if c = '\'' then "\\'" else if c = '"' then "\"" else Quoted.escape c) ++ "'"

def FlagError.message : FlagError → String
  | unknown name => "unknown flag: --" ++ name
  | unknownLetter c word => "unknown shorthand flag: " ++ quoteChar c ++ " in -" ++ word
  | noValue name => "flag needs an argument: --" ++ name
  | noLetterValue c word => "flag needs an argument: " ++ quoteChar c ++ " in -" ++ word
  | badForm word => "bad flag syntax: " ++ word
  | badValue f value cause =>
    "invalid argument " ++ quote value ++ " for " ++ quote f.fullName ++ " flag: " ++ cause

/-- The words of a command line: flags with their values, the newest first,
and the other words. -/
structure Arguments where
  given : List (String × FlagValue) := []
  words : List String := []

namespace Arguments

def value (a : Arguments) (f : Flag) : FlagValue := (a.given.lookup f.name).getD f.initial

def has (a : Arguments) (f : Flag) : Bool := (a.given.lookup f.name).isSome

def bool (a : Arguments) (f : Flag) : Bool :=
  match a.value f with
  | .bool b => b
  | _ => false

def integer (a : Arguments) (f : Flag) : Int :=
  match a.value f with
  | .integer n => n
  | _ => 0

def text (a : Arguments) (f : Flag) : String :=
  match a.value f with
  | .text s => s
  | _ => ""

end Arguments

def give (f : Flag) (s : String) : Except FlagError (String × FlagValue) :=
  match f.parse s with
  | .ok v => .ok (f.name, v)
  | .error cause => .error (.badValue f s cause)

/-- Reads a flag by its name, after the two dashes: its value, and whether it
takes the next word. -/
def readName (flags : List Flag) (word : String) (next : Option String) :
    Except FlagError ((String × FlagValue) × Bool) := do
  let cs := word.toList
  if cs.isEmpty || cs.head? = some '-' || cs.head? = some '=' then
    throw (.badForm ("--" ++ word))
  let name := String.ofList (cs.takeWhile (· ≠ '='))
  let some f := flags.find? (·.name = name) | throw (.unknown name)
  match cs.dropWhile (· ≠ '=') with
  | _ :: value => return (← give f (String.ofList value), false)
  | [] =>
    if f.standsAlone then return (← give f "true", false)
    else
      match next with
      | some value => return (← give f value, true)
      | none => throw (.noValue name)

/-- The character that the first byte of a text stands for by itself. -/
def firstByte (cs : List Char) : Char :=
  match Bytes.ofString (String.ofList cs) with
  | b :: _ => Char.ofNat b.toNat
  | [] => ' '

/-- Reads flags by their letters, after the dash: their values, and whether
the last one takes the next word. -/
def readLetters (flags : List Flag) (next : Option String) :
    List Char → Except FlagError (List (String × FlagValue) × Bool)
  | [] => .ok ([], false)
  | c :: cs => do
    let word := String.ofList (c :: cs)
    let some f := flags.find? (·.letter = some c)
      | throw (.unknownLetter (firstByte (c :: cs)) word)
    match cs with
    | '=' :: v :: vs => return ([← give f (String.ofList (v :: vs))], false)
    | _ =>
      if f.standsAlone then
        let (more, takes) ← readLetters flags next cs
        return (more ++ [← give f "true"], takes)
      else if !cs.isEmpty then return ([← give f (String.ofList cs)], false)
      else
        match next with
        | some value => return ([← give f value], true)
        | none => throw (.noLetterValue c word)

def readWords (flags : List Flag) (a : Arguments) : List String → Except FlagError Arguments
  | [] => .ok { a with words := a.words.reverse }
  | "--" :: rest => .ok { a with words := a.words.reverse ++ rest }
  | w :: rest =>
    match w.toList with
    | '-' :: '-' :: _ => do
      let (v, takes) ← readName flags (w.drop 2).toString rest.head?
      readWords flags { a with given := v :: a.given } (rest.drop (if takes then 1 else 0))
    | '-' :: c :: cs => do
      let (vs, takes) ← readLetters flags rest.head? (c :: cs)
      readWords flags { a with given := vs ++ a.given } (rest.drop (if takes then 1 else 0))
    | _ => readWords flags { a with words := w :: a.words } rest
termination_by ws => ws.length
decreasing_by all_goals (simp only [List.length_drop, List.length_cons]; omega)

def readArguments (flags : List Flag) (words : List String) : Except FlagError Arguments :=
  readWords flags {} words

end CoreLowering.Command
