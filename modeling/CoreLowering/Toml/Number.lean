/-!
# Numbers, dates and times

Which words are numbers, dates or times, and which integers the words stand
for.  Underscores may stand between digits, numbers have no zeros in front,
and integers take 64 bits.
-/

namespace CoreLowering.Toml

def isDigit (c : Char) : Bool := '0' ≤ c && c ≤ '9'

def isHexDigit (c : Char) : Bool :=
  isDigit c || ('a' ≤ c && c ≤ 'f') || ('A' ≤ c && c ≤ 'F')

def digitValue (c : Char) : Nat :=
  if isDigit c then c.toNat - '0'.toNat
  else if 'a' ≤ c then c.toNat - 'a'.toNat + 10
  else c.toNat - 'A'.toNat + 10

/-- The number that digits spell in a base; underscores do not count. -/
def numeral (base : Nat) (ds : List Char) : Nat :=
  (ds.filter (· ≠ '_')).foldl (fun n c => base * n + digitValue c) 0

/-- Whether each underscore stands right after a digit, and the word ends
with one; `afterDigit` says whether the character before is a digit. -/
def underscoresOk (afterDigit : Bool) : List Char → Bool
  | [] => afterDigit
  | '_' :: cs => afterDigit && underscoresOk false cs
  | c :: cs => underscoresOk (isHexDigit c) cs

/-- A word without its sign, and whether the sign is a minus. -/
def unsigned : List Char → Bool × List Char
  | '-' :: cs => (true, cs)
  | '+' :: cs => (false, cs)
  | cs => (false, cs)

/-- Whether digits start with a zero that is not the only one. -/
def hasLeadingZero (ds : List Char) : Bool :=
  match ds with
  | '0' :: _ :: _ => true
  | _ => false

/-- The integer, if it takes 64 bits. -/
def within (n : Int) : Option Int :=
  if -0x8000000000000000 ≤ n && n < 0x8000000000000000 then some n else none

def integer? (word : List Char) : Option Int :=
  let (minus, ds) := unsigned word
  if underscoresOk false word && !hasLeadingZero ds then
    within (if minus then -(numeral 10 ds : Int) else numeral 10 ds)
  else none

/-- The integer that digits after the mark of a base stand for. -/
def integerIn? (base : Nat) (ds : List Char) : Option Int :=
  match ds with
  | '_' :: _ => none
  | _ => if underscoresOk false ds then within (numeral base ds) else none

/-- The parts of a word between the characters of a kind. -/
def splitAtAny (isMark : Char → Bool) : List Char → List (List Char)
  | [] => [[]]
  | c :: cs =>
    match splitAtAny isMark cs with
    | [] => [[c]]
    | p :: ps => if isMark c then [] :: p :: ps else (c :: p) :: ps

/-- Whether a word is a non-empty run of digits. -/
def isDigits (cs : List Char) : Bool := !cs.isEmpty && cs.all isDigit

def exponent? (word : List Char) : Option Int :=
  let (minus, ds) := unsigned word
  if isDigits ds then some (if minus then -(numeral 10 ds : Int) else numeral 10 ds) else none

/-- Whether `digits * 10 ^ e` is too large for a float. -/
def overflows (digits : List Char) (e : Int) : Bool :=
  let significant := digits.dropWhile (· = '0')
  let magnitude := (significant.length : Int) + e
  if significant.isEmpty || magnitude < 309 then false
  else if 310 < magnitude then true
  else
    let limit := Nat.pow 2 1024 - Nat.pow 2 970
    if 0 ≤ e then limit ≤ numeral 10 significant * Nat.pow 10 e.toNat
    else limit * Nat.pow 10 (-e).toNat ≤ numeral 10 significant

/-- Whether a word is a float: digits, with a fraction, an exponent or both,
that is not too large. -/
def isFloat (word : List Char) : Bool :=
  let parts := splitAtAny (fun c => c = '.' || c = 'e' || c = 'E') word
  let plain := word.filter (· ≠ '_')
  let (_, digits) := unsigned plain
  let whole := digits.takeWhile isDigit
  let rest := digits.dropWhile isDigit
  let fraction := match rest with
    | '.' :: r => r.takeWhile isDigit
    | _ => []
  let tail := match rest with
    | '.' :: r => r.dropWhile isDigit
    | r => r
  let e := match tail with
    | [] => some 0
    | c :: r => if c = 'e' || c = 'E' then exponent? r else none
  (parts.filter (!·.isEmpty)).all (underscoresOk false) &&
    !hasLeadingZero (unsigned (parts.headD [])).2 &&
    !whole.isEmpty && (rest.head? != some '.' || !fraction.isEmpty) &&
    match e with
    | some e => !overflows (whole ++ fraction) (e - fraction.length)
    | none => false

def daysIn (year month : Nat) : Nat :=
  if month = 2 then
    (if year % 4 = 0 && (year % 100 ≠ 0 || year % 400 = 0) then 29 else 28)
  else if month = 4 || month = 6 || month = 9 || month = 11 then 30
  else 31

def isDate (word : List Char) : Bool :=
  match splitAtAny (· = '-') word with
  | [y, m, d] =>
    isDigits y && isDigits m && isDigits d && y.length = 4 && m.length = 2 && d.length = 2 &&
      1 ≤ numeral 10 m && numeral 10 m ≤ 12 &&
      1 ≤ numeral 10 d && numeral 10 d ≤ daysIn (numeral 10 y) (numeral 10 m)
  | _ => false

/-- Whether a word is a number of two digits below a bound. -/
def isTwoDigits (bound : Nat) (cs : List Char) : Bool :=
  isDigits cs && cs.length = 2 && numeral 10 cs < bound

/-- Whether a word is a time of the day; the hour may have one digit, and the
seconds may have a fraction. -/
def isTime (word : List Char) : Bool :=
  match splitAtAny (· = ':') word with
  | [h, m, s] =>
    isDigits h && h.length ≤ 2 && numeral 10 h < 24 && isTwoDigits 60 m &&
      match splitAtAny (· = '.') s with
      | [whole] => isTwoDigits 60 whole
      | [whole, fraction] => isTwoDigits 60 whole && isDigits fraction
      | _ => false
  | _ => false

/-- Whether a word is the distance to universal time. -/
def isOffset (word : List Char) : Bool :=
  match splitAtAny (· = ':') word with
  | [h, m] => isTwoDigits 25 h && isTwoDigits 61 m
  | _ => false

/-- Whether a word is a time of the day with or without the distance to
universal time. -/
def isZonedTime (word : List Char) : Bool :=
  isTime word ||
    match word.reverse with
    | 'Z' :: rest => isTime rest.reverse
    | _ =>
      let time := word.takeWhile fun c => c ≠ '+' && c ≠ '-'
      match word.drop time.length with
      | _ :: offset => isTime time && isOffset offset
      | [] => false

/-- Whether a word is a date, a time, or both with a letter or a blank
between them. -/
def isMoment (word : List Char) : Bool :=
  let word := word.map fun c =>
    if c = 't' || c = ' ' then 'T' else if c = 'z' then 'Z' else c
  isDate word || isTime word ||
    (word.drop 10).head? = some 'T' && isDate (word.take 10) && isZonedTime (word.drop 11)

end CoreLowering.Toml
