import CoreLowering.Text.Utf8
import CoreLowering.Toml.Text

/-!
# Reading and writing a settings file

A settings file is a list of statements.  A statement opens a table, opens
the next table of an array, or assigns a value to a key.

`read?` gives the statements of a file, or nothing where the text is not well
formed.  The text must not have control characters other than tabs and line
breaks, and a carriage return stands only before a line feed.  Keys and texts
are written in a form that is read back.
-/

namespace CoreLowering.Toml

abbrev Key := List String

inductive Value where
  | text (s : String)
  | integer (n : Int)
  | bool (b : Bool)
  /-- A number with a fraction or an exponent. -/
  | float
  | moment
  | array (items : List Value)
  | table (fields : List (Key × Value))

inductive Statement where
  | openTable (key : Key)
  | openItem (key : Key)
  | assign (key : Key) (value : Value)

/-- Whether a character may be part of a name without quotes. -/
def isBare (c : Char) : Bool :=
  isDigit c || ('a' ≤ c && c ≤ 'z') || ('A' ≤ c && c ≤ 'Z') || c = '_' || c = '-'

def skipBlanks (cs : List Char) : List Char := cs.dropWhile isBlank

/-- The characters of the lines after this one, the break included. -/
def skipComment (cs : List Char) : List Char := cs.dropWhile (!isBreak ·)

def name? (cs : List Char) : Option (String × List Char) :=
  match skipBlanks cs with
  | '"' :: rest => basic? rest
  | '\'' :: rest => literal? rest
  | cs =>
    match cs.takeWhile isBare with
    | [] => none
    | bare => some (String.ofList bare, cs.drop bare.length)

/-- Reads a key of at most `fuel` names, and the blanks after it. -/
def keyIn : (fuel : Nat) → List Char → Option (Key × List Char)
  | 0, _ => none
  | fuel + 1, cs => do
    let (name, rest) ← name? cs
    match skipBlanks rest with
    | '.' :: rest =>
      let (key, rest) ← keyIn fuel rest
      return (name :: key, rest)
    | rest => return ([name], rest)

def key? (cs : List Char) : Option (Key × List Char) := keyIn (cs.length + 1) cs

/-- Reads a number without a mark for its base, after its sign. -/
def decimal? (sign : List Char) (cs : List Char) : Option (Value × List Char) :=
  let word := cs.takeWhile fun c => isDigit c || c = '_'
  let rest := cs.drop word.length
  if rest.head? = some '.' || rest.head? = some 'e' || rest.head? = some 'E' then
    let tail := rest.takeWhile fun c => isDigit c || "_.-+eE".contains c
    if isFloat (sign ++ word ++ tail) then some (.float, rest.drop tail.length) else none
  else (integer? (sign ++ word)).map fun n => (.integer n, rest)

def based? (base : Nat) (isDigitOf : Char → Bool) (cs : List Char) : Option (Value × List Char) :=
  let word := cs.takeWhile fun c => isDigitOf c || c = '_'
  (integerIn? base word).map fun n => (.integer n, cs.drop word.length)

/-- Reads a date or a time, with the blanks after it. -/
def moment? (cs : List Char) : Option (Value × List Char) :=
  let word := cs.takeWhile fun c => isDigit c || "-:Tt .Zz+".contains c
  let trimmed := (word.reverse.dropWhile (· = ' ')).reverse
  if isMoment trimmed then some (.moment, cs.drop word.length) else none

/-- Reads a number, a date or a time that starts with a digit. -/
def numberOrMoment? (cs : List Char) : Option (Value × List Char) :=
  match cs with
  | '0' :: 'x' :: rest => based? 16 isHexDigit rest
  | '0' :: 'o' :: rest => based? 8 (fun c => '0' ≤ c && c ≤ '7') rest
  | '0' :: 'b' :: rest => based? 2 (fun c => c = '0' || c = '1') rest
  | cs =>
    let digits := cs.takeWhile isDigit
    match (cs.drop digits.length).head? with
    | some c =>
      if (c = '-' || c = ':') && digits ≠ ['0'] then moment? cs else decimal? [] cs
    | none => decimal? [] cs

def signed? (sign : Char) (cs : List Char) : Option (Value × List Char) :=
  match cs with
  | 'i' :: 'n' :: 'f' :: rest => some (.float, rest)
  | 'n' :: 'a' :: 'n' :: rest => some (.float, rest)
  | c :: _ => if isDigit c then decimal? [sign] cs else none
  | [] => none

/-- The characters after blanks, line breaks and comments; `inComment` says
whether a comment was begun. -/
def skipLines (inComment : Bool) : List Char → List Char
  | [] => []
  | c :: cs =>
    if isBreak c then skipLines false cs
    else if inComment || isBlank c then skipLines inComment cs
    else if c = '#' then skipLines true cs
    else c :: cs

mutual

/-- Reads a value with parts of a depth of at most `fuel`. -/
def valueIn : (fuel : Nat) → List Char → Option (Value × List Char)
  | 0, _ => none
  | fuel + 1, cs =>
    match skipBlanks cs with
    | '[' :: rest => do
      let (items, rest) ← itemsIn fuel (skipLines false rest)
      return (.array items, rest)
    | '\x7b' :: rest =>
      match skipBlanks rest with
      | '\x7d' :: rest => some (.table [], rest)
      | rest => do
        let (fields, rest) ← fieldsIn fuel rest
        return (.table fields, rest)
    | '"' :: '"' :: '"' :: rest => (longBasic? rest).map fun (s, rest) => (.text s, rest)
    | '"' :: rest => (basic? rest).map fun (s, rest) => (.text s, rest)
    | '\'' :: '\'' :: '\'' :: rest =>
      (longLiteral? rest).map fun (s, rest) => (.text s, rest)
    | '\'' :: rest => (literal? rest).map fun (s, rest) => (.text s, rest)
    | 't' :: 'r' :: 'u' :: 'e' :: rest => some (.bool true, rest)
    | 'f' :: 'a' :: 'l' :: 's' :: 'e' :: rest => some (.bool false, rest)
    | 'i' :: 'n' :: 'f' :: rest => some (.float, rest)
    | 'n' :: 'a' :: 'n' :: rest => some (.float, rest)
    | '-' :: rest => signed? '-' rest
    | '+' :: rest => signed? '+' rest
    | c :: rest => if isDigit c then numberOrMoment? (c :: rest) else none
    | [] => none

/-- Reads the items of an array and the bracket that ends it. -/
def itemsIn : (fuel : Nat) → List Char → Option (List Value × List Char)
  | 0, _ => none
  | _ + 1, ']' :: rest => some ([], rest)
  | fuel + 1, cs => do
    let (v, rest) ← valueIn fuel cs
    match skipLines false rest with
    | ']' :: rest => return ([v], rest)
    | ',' :: rest =>
      let (vs, rest) ← itemsIn fuel (skipLines false rest)
      return (v :: vs, rest)
    | _ => none

/-- Reads the fields of a table on one line and the brace that ends it. -/
def fieldsIn : (fuel : Nat) → List Char → Option (List (Key × Value) × List Char)
  | 0, _ => none
  | fuel + 1, cs => do
    let (key, rest) ← key? cs
    match rest with
    | '=' :: rest =>
      let (v, rest) ← valueIn fuel rest
      match skipBlanks rest with
      | '\x7d' :: rest => return ([(key, v)], rest)
      | ',' :: rest =>
        let (fs, rest) ← fieldsIn fuel rest
        return ((key, v) :: fs, rest)
      | _ => none
    | _ => none

end

def value? (cs : List Char) : Option (Value × List Char) := valueIn (cs.length + 1) cs

def statement? (cs : List Char) : Option (Statement × List Char) :=
  match cs with
  | '[' :: '[' :: rest => do
    let (key, rest) ← key? rest
    match rest with
    | ']' :: ']' :: rest => return (.openItem key, rest)
    | _ => none
  | '[' :: rest => do
    let (key, rest) ← key? rest
    match rest with
    | ']' :: rest => return (.openTable key, rest)
    | _ => none
  | cs => do
    let (key, rest) ← key? cs
    match rest with
    | '=' :: rest =>
      let (v, rest) ← value? rest
      return (.assign key v, rest)
    | _ => none

/-- The characters after the end of a statement, where nothing but a comment
may stand on its line. -/
def endOfLine? (cs : List Char) : Option (List Char) :=
  match skipBlanks cs with
  | [] => some []
  | '#' :: rest => some (skipComment rest)
  | c :: rest => if isBreak c then some rest else none

def statementsIn : (fuel : Nat) → List Char → Option (List Statement)
  | 0, _ => none
  | fuel + 1, cs =>
    match skipLines false cs with
    | [] => some []
    | cs => do
      let (s, rest) ← statement? cs
      let rest ← endOfLine? rest
      return s :: (← statementsIn fuel rest)

/-- Whether the characters may stand in a settings file. -/
def areAllowed : List Char → Bool
  | [] => true
  | '\r' :: '\n' :: cs => areAllowed cs
  | c :: cs =>
    (c = '\t' || c = '\n' || (0x20 ≤ c.toNat && c.toNat ≠ 0x7F)) && areAllowed cs

def dropMark : Bytes → Bytes
  | 0xFF :: 0xFE :: rest => rest
  | 0xFE :: 0xFF :: rest => rest
  | 0xEF :: 0xBB :: 0xBF :: rest => rest
  | bytes => bytes

def read? (content : Bytes) : Option (List Statement) := do
  let cs := (← Utf8.text? (dropMark content)).toList
  if areAllowed cs then statementsIn (cs.length + 1) cs else none

/-! ## Writing -/

/-- How a character is written between quotes. -/
def escape (c : Char) : String :=
  match c with
  | '"' => "\\\""
  | '\\' => "\\\\"
  | '\x08' => "\\b"
  | '\t' => "\\t"
  | '\n' => "\\n"
  | '\x0c' => "\\f"
  | '\r' => "\\r"
  | c => if c.toNat < 0x20 || c.toNat = 0x7F then "\\u" ++ Hex.padded 4 c.toNat else c.toString

def quoted (s : String) : String :=
  "\"" ++ String.join (s.toList.map escape) ++ "\""

/-- A name of a key, with quotes if it needs them. -/
def nameText (s : String) : String :=
  if s ≠ "" && s.toList.all isBare then s else quoted s

/-- A key with dots between its names. -/
def keyText (key : Key) : String :=
  ".".intercalate (key.map nameText)

end CoreLowering.Toml
