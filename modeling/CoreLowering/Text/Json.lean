import CoreLowering.Text.Hex

/-!
# JSON texts

Values of the data format and their text, either on one line or indented by
two blanks a level.  Fields keep their order.  In strings the characters that
mean something in a web page and the two line separators are escaped as well
as quotes, backslashes and control characters.
-/

namespace CoreLowering

/-- A value of the format; numbers are integers. -/
inductive Json where
  | num (n : Int)
  | str (s : String)
  | arr (items : List Json)
  | obj (fields : List (String × Json))

namespace Json

def escape (c : Char) : String :=
  match c with
  | '"' => "\\\""
  | '\\' => "\\\\"
  | '\n' => "\\n"
  | '\r' => "\\r"
  | '\t' => "\\t"
  | '\x08' => "\\b"
  | '\x0c' => "\\f"
  | c =>
    if c.toNat < 0x20 || c = '<' || c = '>' || c = '&' || c.toNat = 0x2028 || c.toNat = 0x2029
    then "\\u" ++ Hex.padded 4 c.toNat
    else c.toString

def string (s : String) : String :=
  "\"" ++ String.join (s.toList.map escape) ++ "\""

mutual

def compact : Json → String
  | num n => toString n
  | str s => string s
  | arr items => "[" ++ compactItems items ++ "]"
  | obj fields => "\x7b" ++ compactFields fields ++ "\x7d"

def compactItems : List Json → String
  | [] => ""
  | [x] => x.compact
  | x :: xs => x.compact ++ "," ++ compactItems xs

def compactFields : List (String × Json) → String
  | [] => ""
  | [(k, v)] => string k ++ ":" ++ v.compact
  | (k, v) :: es => string k ++ ":" ++ v.compact ++ "," ++ compactFields es

end

def newLine (level : Nat) : String :=
  String.ofList ('\n' :: List.replicate (2 * level) ' ')

mutual

/-- The text over several lines, inside `level` levels. -/
def indentedIn (level : Nat) : Json → String
  | num n => toString n
  | str s => string s
  | arr [] => "[]"
  | arr (x :: xs) => "[" ++ indentedItems (level + 1) (x :: xs) ++ newLine level ++ "]"
  | obj [] => "\x7b\x7d"
  | obj (e :: es) =>
    "\x7b" ++ indentedFields (level + 1) (e :: es) ++ newLine level ++ "\x7d"

/-- The texts of items, each on a line of its own. -/
def indentedItems (level : Nat) : List Json → String
  | [] => ""
  | [x] => newLine level ++ x.indentedIn level
  | x :: xs => newLine level ++ x.indentedIn level ++ "," ++ indentedItems level xs

/-- The texts of fields, each on a line of its own. -/
def indentedFields (level : Nat) : List (String × Json) → String
  | [] => ""
  | [(k, v)] => newLine level ++ string k ++ ": " ++ v.indentedIn level
  | (k, v) :: es =>
    newLine level ++ string k ++ ": " ++ v.indentedIn level ++ "," ++ indentedFields level es

end

/-- The text over several lines, with a line break at its end. -/
def indented (j : Json) : String :=
  j.indentedIn 0 ++ "\n"

def positive (name : String) (n : Nat) : List (String × Json) :=
  if n = 0 then [] else [(name, num n)]

end Json

end CoreLowering
