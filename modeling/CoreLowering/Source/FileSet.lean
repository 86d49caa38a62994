import CoreLowering.Source.Span
import CoreLowering.Text.Hex

/-!
# Files of a unit

A file set numbers the files a unit refers to.  The content of a file is
optional; with it a byte offset becomes a line and a column, counted from
one, where a newline belongs to the line it ends.
-/

namespace CoreLowering

/-- A line and a column. -/
structure Position where
  line : UInt32
  column : UInt32
  deriving DecidableEq

/-- A file: its path and, if known, its content. -/
structure SourceFile where
  path : String
  content : Option Bytes

namespace SourceFile

/-- The offsets of the newlines among bytes, the first of which has the
offset `start`. -/
def newlinesFrom (start : Nat) : Bytes → List Nat
  | [] => []
  | b :: rest =>
    if b = 10 then start :: newlinesFrom (start + 1) rest else newlinesFrom (start + 1) rest

def newlines (f : SourceFile) : List Nat :=
  newlinesFrom 0 (f.content.getD [])

def size (f : SourceFile) : Nat :=
  (f.content.getD []).length

/-- The first place between `lo` and `hi` with at least `offset`, by bisection
of ascending offsets; `hi` if there is none. -/
def bisect (newlines : List Nat) (offset lo hi : Nat) : Nat :=
  if lo < hi then
    let mid := (lo + hi) / 2
    if newlines.getD mid 0 < offset then bisect newlines offset (mid + 1) hi
    else bisect newlines offset lo mid
  else lo
termination_by hi - lo

def positionAmong (newlines : List Nat) (offset : UInt32) : Position :=
  let before := bisect newlines offset.toNat 0 newlines.length
  let lineStart := if before = 0 then 0 else newlines.getD (before - 1) 0 + 1
  ⟨UInt32.ofNat (before + 1), offset - UInt32.ofNat lineStart + 1⟩

/-- The position of a byte offset.  Without the content there are no lines,
and the offset itself stands for the column. -/
def position (f : SourceFile) (offset : UInt32) : Position :=
  if f.content.isSome then positionAmong f.newlines offset else ⟨0, offset⟩

/-- Where a line starts, after the newline that ends the one before it. -/
def lineStart (f : SourceFile) (line : Nat) : Nat :=
  if line ≤ 1 then 0 else (f.newlines.map (· + 1)).getD (line - 2) f.size

/-- Where a line ends: at its newline or with the file. -/
def lineStop (f : SourceFile) (line : Nat) : Nat :=
  if line = 0 then 0 else f.newlines.getD (line - 1) f.size

/-- The text of a line, without its newline. -/
def line? (f : SourceFile) (line : Nat) : Option Bytes :=
  match f.content with
  | none => none
  | some bytes =>
    if line = 0 ∨ f.newlines.length + 1 < line ∨ f.lineStop line < f.lineStart line then none
    else some ((bytes.take (f.lineStop line)).drop (f.lineStart line))

end SourceFile

/-- The files a unit refers to, numbered from zero. -/
structure FileSet where
  files : List SourceFile

namespace FileSet

def empty : FileSet := ⟨[]⟩

def get? (fs : FileSet) (id : UInt32) : Option SourceFile :=
  fs.files[id.toNat]?

/-- The number of the file with a path, or the next free one. -/
def idOf (fs : FileSet) (path : String) : Nat :=
  fs.files.findIdx (·.path = path)

/-- Adds a path without content, unless it is there; gives its number. -/
def addPath (fs : FileSet) (path : String) : FileSet × Nat :=
  let id := fs.idOf path
  if id < fs.files.length then (fs, id) else (⟨fs.files ++ [⟨path, none⟩]⟩, id)

/-- Adds a path with its content, in place of an earlier entry; gives its
number. -/
def add (fs : FileSet) (path : String) (content : Bytes) : FileSet × Nat :=
  let id := fs.idOf path
  let file : SourceFile := ⟨path, some content⟩
  if id < fs.files.length then (⟨fs.files.set id file⟩, id)
  else (⟨fs.files ++ [file]⟩, id)

def resolve (fs : FileSet) (s : Span) : Position × Position :=
  match fs.get? s.file with
  | some f => (f.position s.start, f.position s.stop)
  | none => (⟨0, s.start⟩, ⟨0, s.stop⟩)

/-- Where a position is, in words: line and column, or the offset if there
are no lines. -/
def place (path : String) (p : Position) (s : Span) : String :=
  if p.line = 0 then path ++ ":@" ++ toString s.start.toNat
  else path ++ ":" ++ toString p.line.toNat ++ ":" ++ toString p.column.toNat

def format (fs : FileSet) (s : Span) : String :=
  match fs.get? s.file with
  | some f => place f.path (fs.resolve s).1 s
  | none => s.text

end FileSet

end CoreLowering
