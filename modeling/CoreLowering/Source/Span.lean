/-!
# Spans

A span is a half-open range of bytes in one file of a file set.  Parts that
no text was written for have the span that is all zero.
-/

namespace CoreLowering

/-- A half-open byte range in a numbered file. -/
structure Span where
  file : UInt32
  start : UInt32
  stop : UInt32
  deriving DecidableEq, Inhabited

namespace Span

/-- The span of what has no place in any file. -/
def none : Span := ⟨0, 0, 0⟩

def isEmpty (s : Span) : Bool := s.start == s.stop

def length (s : Span) : UInt32 := s.stop - s.start

def text (s : Span) : String :=
  toString s.file.toNat ++ ":" ++ toString s.start.toNat ++ "-" ++ toString s.stop.toNat

/-- The smallest span around two spans of one file.  An empty span adds
nothing, and spans of different files are not joined. -/
def cover (s t : Span) : Span :=
  if s.file != t.file then s
  else if s.isEmpty then t
  else if t.isEmpty then s
  else ⟨s.file, min s.start t.start, max s.stop t.stop⟩

end Span

end CoreLowering
