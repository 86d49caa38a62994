import CoreLowering.Toml.Number

/-!
# Quoted texts of a settings file

A basic text stands between double quotes and has escapes; a literal text
stands between single quotes and has none.  Three quotes in place of one
begin a text that may run over several lines.
-/

namespace CoreLowering.Toml

/-- Whether a character is a blank within a line. -/
def isBlank (c : Char) : Bool := c = ' ' || c = '\t'

/-- Whether a character belongs to a line break. -/
def isBreak (c : Char) : Bool := c = '\n' || c = '\r'

/-- The character with a number, if there is one. -/
def char? (n : Nat) : Option Char :=
  if n.isValidChar then some (Char.ofNat n) else none

/-- The character that `digits` hexadecimal digits stand for, and the rest. -/
def unicode? (digits : Nat) (cs : List Char) : Option (Char × List Char) :=
  let ds := cs.take digits
  if ds.length = digits && ds.all isHexDigit then
    (char? (numeral 16 ds)).map (·, cs.drop digits)
  else none

/-- The character that a letter after a backslash stands for. -/
def escaped? : Char → Option Char
  | 'b' => some '\x08'
  | 't' => some '\t'
  | 'n' => some '\n'
  | 'f' => some '\x0c'
  | 'r' => some '\r'
  | '"' => some '"'
  | '\\' => some '\\'
  | _ => none

/-- The text that characters with escapes stand for. -/
def unescape : List Char → Option (List Char)
  | [] => some []
  | '\\' :: 'u' :: cs =>
    match unicode? 4 cs with
    | some (c, _) => (unescape (cs.drop 4)).map (c :: ·)
    | none => none
  | '\\' :: 'U' :: cs =>
    match unicode? 8 cs with
    | some (c, _) => (unescape (cs.drop 8)).map (c :: ·)
    | none => none
  | '\\' :: c :: cs =>
    match escaped? c with
    | some e => (unescape cs).map (e :: ·)
    | none => none
  | ['\\'] => none
  | c :: cs => (unescape cs).map (c :: ·)
termination_by cs => cs.length

/-- Splits off the raw characters of a basic text on one line, after its
first quote. -/
def rawBasic (before : List Char) : List Char → Option (List Char × List Char)
  | [] => none
  | '"' :: rest => some (before.reverse, rest)
  | '\\' :: c :: rest => if isBreak c then none else rawBasic (c :: '\\' :: before) rest
  | c :: rest => if isBreak c then none else rawBasic (c :: before) rest

/-- Reads a basic text on one line, after its first quote. -/
def basic? (cs : List Char) : Option (String × List Char) := do
  let (raw, rest) ← rawBasic [] cs
  return (String.ofList (← unescape raw), rest)

/-- Reads a literal text on one line, after its first quote. -/
def literal? (cs : List Char) : Option (String × List Char) :=
  let body := cs.takeWhile fun c => c ≠ '\'' && !isBreak c
  match cs.drop body.length with
  | '\'' :: rest => some (String.ofList body, rest)
  | _ => none

/-- Whether characters after a backslash begin an escape of a text over
several lines. -/
def beginsEscape : List Char → Bool
  | 'u' :: cs => (unicode? 4 cs).isSome
  | 'U' :: cs => (unicode? 8 cs).isSome
  | c :: _ => isBreak c || isBlank c || (escaped? c).isSome
  | [] => false

/-- Splits off the raw characters of a basic text over several lines.  The
last three of a run of quotes end it, and at most two quotes may stand before
them; `before` is what was split off so far, in reverse. -/
def rawLongBasic (before : List Char) : List Char → Option (List Char × List Char)
  | [] => none
  | '\\' :: rest =>
    if beginsEscape rest then
      match rest with
      | c :: rest => rawLongBasic (c :: '\\' :: before) rest
      | [] => none
    else none
  | '"' :: '"' :: '"' :: '"' :: rest =>
    match before with
    | '"' :: '"' :: more =>
      if more.head? = some '\\' then rawLongBasic ('"' :: before) ('"' :: '"' :: '"' :: rest)
      else none
    | _ => rawLongBasic ('"' :: before) ('"' :: '"' :: '"' :: rest)
  | '"' :: '"' :: '"' :: rest => some (before.reverse, rest)
  | c :: rest => rawLongBasic (c :: before) rest

/-- Splits off the characters of a literal text over several lines. -/
def rawLongLiteral (before : List Char) : List Char → Option (List Char × List Char)
  | [] => none
  | '\'' :: '\'' :: '\'' :: '\'' :: rest =>
    match before with
    | '\'' :: '\'' :: _ => none
    | _ => rawLongLiteral ('\'' :: before) ('\'' :: '\'' :: '\'' :: rest)
  | '\'' :: '\'' :: '\'' :: rest => some (before.reverse, rest)
  | c :: rest => rawLongLiteral (c :: before) rest

/-- Characters without a line break at their start. -/
def dropFirstBreak : List Char → List Char
  | '\n' :: cs => cs
  | '\r' :: '\n' :: cs => cs
  | cs => cs

/-- Characters without the line breaks that a backslash hides, and without
the blanks and breaks after them; `skipping` says that one was just met. -/
def joinLines (skipping : Bool) : List Char → List Char
  | [] => []
  | '\\' :: '\\' :: cs => '\\' :: '\\' :: joinLines false cs
  | c :: cs =>
    if skipping && (isBlank c || isBreak c) then joinLines true cs
    else if c = '\\' && (cs.takeWhile fun c => isBlank c || isBreak c).contains '\n' then
      joinLines true cs
    else c :: joinLines false cs

/-- Reads a basic text over several lines, after its first quotes. -/
def longBasic? (cs : List Char) : Option (String × List Char) := do
  let (raw, rest) ← rawLongBasic [] cs
  return (String.ofList (← unescape (joinLines false (dropFirstBreak raw))), rest)

/-- Reads a literal text over several lines, after its first quotes. -/
def longLiteral? (cs : List Char) : Option (String × List Char) := do
  let (raw, rest) ← rawLongLiteral [] cs
  return (String.ofList (dropFirstBreak raw), rest)

end CoreLowering.Toml
