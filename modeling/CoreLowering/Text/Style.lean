/-!
# Padded and coloured text

Texts are brought to a number of characters with blanks or zeros.  A text that
is long enough already is left alone.

A style writes a text between two escape sequences of the terminal, one that
turns it on and one that turns it off.  Without colours a text is left as it
is.
-/

namespace CoreLowering

def blanks (n : Nat) : String :=
  String.ofList (List.replicate n ' ')

/-- Blanks before a text, up to `width` characters. -/
def padLeft (width : Nat) (s : String) : String :=
  blanks (width - s.length) ++ s

/-- Blanks after a text, up to `width` characters. -/
def padRight (width : Nat) (s : String) : String :=
  s ++ blanks (width - s.length)

/-- The decimal numeral of `n` with zeros before it, up to `width` digits. -/
def zeroPadded (width n : Nat) : String :=
  let s := toString n
  String.ofList (List.replicate (width - s.length) '0') ++ s

/-- The parameters of the two escape sequences around a text. -/
structure Style where
  on : String
  off : String

namespace Style

def apply (s : Style) (enabled : Bool) (text : String) : String :=
  if enabled then "\x1b[" ++ s.on ++ "m" ++ text ++ "\x1b[" ++ s.off ++ "m" else text

def bold : Style := ⟨"1", "22"⟩

def faint : Style := ⟨"2", "22"⟩

def boldColour (number : String) : Style := ⟨number ++ ";1", "0;22"⟩

def colour (number : String) : Style := ⟨number, "0"⟩

def boldRed : Style := boldColour "31"

def boldGreen : Style := boldColour "32"

def boldYellow : Style := boldColour "33"

def boldBlue : Style := boldColour "34"

def blue : Style := colour "34"

def cyan : Style := colour "36"

end Style

end CoreLowering
