import CoreLowering.Diagnostic.Bag
import CoreLowering.Source.FileSet
import CoreLowering.Text.Columns
import CoreLowering.Text.Json
import CoreLowering.Text.Path
import CoreLowering.Text.Style

/-!
# Findings for people and for programs

For people a finding is a line with its place, severity, code and message,
then the lines of the source around it with the span underlined, then its
notes.  For programs a bag is an indented JSON document.
-/

namespace CoreLowering

/-- How the path of a file is shown. -/
inductive PathStyle where
  | plain
  | absolute
  | relative
  | last
  deriving DecidableEq

def PathStyle.ofNumber (n : Nat) : PathStyle :=
  match n with
  | 1 => absolute
  | 2 => relative
  | 3 => last
  | _ => plain

structure PathView where
  style : PathStyle
  /-- The directory that relative paths start from. -/
  base : String
  here : String

def PathView.show (v : PathView) (f : SourceFile) : String :=
  match v.style with
  | .plain => f.path
  | .absolute => Path.absolute v.here f.path
  | .relative =>
    if v.base = "" then f.path else (Path.relative v.base f.path).getD f.path
  | .last => Path.base f.path

namespace Render

/-- Choices for the text for people. -/
structure Options where
  colour : Bool
  /-- The number of source lines around the line of the finding. -/
  context : Nat
  paths : PathView
  /-- The width that source lines are cut to; zero for no limit. -/
  width : Nat
  notes : Bool

def severityStyle : Severity → Style
  | .error => .boldRed
  | .warning => .boldYellow
  | .info => .cyan
  | .other _ => .bold

def location (fs : FileSet) (paths : PathView) (s : Span) : String :=
  match fs.get? s.file with
  | none => "<unit>"
  | some f =>
    let start := (fs.resolve s).1
    if start.line = 0 ∧ s.isEmpty ∧ s.start = 0 then paths.show f
    else FileSet.place (paths.show f) start s

/-- Bytes with four blanks for each tab. -/
def untab (line : Bytes) : Bytes :=
  line.flatMap fun b => if b = 9 then [32, 32, 32, 32] else [b]

/-- The bytes of a line from `start` up to `stop`, if there is such a part. -/
def cut? (line : Bytes) (start stop : Int) : Option Bytes :=
  if 0 ≤ start ∧ start ≤ stop ∧ stop ≤ line.length then
    some ((line.take stop.toNat).drop start.toNat)
  else none

/-- The mark under the part of a line from the byte `start` up to `stop`. -/
def underline (o : Options) (line : Bytes) (start stop : Int) : Option String := do
  let start := min start line.length
  let before ← cut? line 0 start
  let marked ← cut? line start (max (min stop line.length) start)
  let width := max (Columns.ofBytes marked) 1
  return Style.blue.apply o.colour "      |" ++ " " ++ blanks (Columns.ofBytes (untab before)) ++
    Style.boldGreen.apply o.colour
      (String.ofList ('^' :: List.replicate (width - 1) '~')) ++ "\n"

def sourceLine (o : Options) (number : Nat) (line : Bytes) : String :=
  let text := Utf8.lenientText (untab line)
  let text := if o.width = 0 then text else Columns.truncate text o.width "..."
  Style.blue.apply o.colour (padLeft 5 (toString number) ++ " |") ++ " " ++ text ++ "\n"

/-- A source line, with the mark under it if it is the line of the span. -/
def contextLine (o : Options) (f : SourceFile) (start stop : Position) (number : Nat) :
    Option String :=
  match f.line? number with
  | none => some ""
  | some line => do
    let mark ← if number = start.line.toNat then
        underline o line (start.column.toNat - 1)
          (if stop.line = start.line then stop.column.toNat - 1 else line.length)
      else some ""
    return sourceLine o number line ++ mark

/-- The source lines around a span, with the span underlined. -/
def context (fs : FileSet) (o : Options) (s : Span) : Option String :=
  match fs.get? s.file with
  | none => some ""
  | some f =>
    let (start, stop) := fs.resolve s
    let first := start.line.toNat - min o.context (start.line.toNat - 1)
    let last := start.line + UInt32.ofNat o.context
    let numbers := List.range' first (last.toNat + 1 - first)
    (numbers.mapM (contextLine o f start stop)).map String.join

def note (fs : FileSet) (o : Options) (primary : Span) (n : Note) : String :=
  let label := "  " ++ Style.blue.apply o.colour "note"
  if n.span ≠ primary ∧ !n.span.isEmpty then
    label ++ " " ++ location fs o.paths n.span ++ ": " ++ n.text ++ "\n"
  else label ++ ": " ++ n.text ++ "\n"

def diagnostic (fs : FileSet) (o : Options) (d : Diagnostic) : Option String := do
  let around ← context fs o d.span
  return Style.faint.apply o.colour (location fs o.paths d.span) ++ ": " ++
    (severityStyle d.severity).apply o.colour d.severity.label ++ " " ++
    Style.bold.apply o.colour d.code.id ++ ": " ++ d.message ++ "\n" ++
    around ++ if o.notes then String.join (d.notes.map (note fs o d.span)) else ""

/-- The text for all findings of a bag; none if the mark under a line cannot be
placed. -/
def bag (fs : FileSet) (o : Options) (b : Bag) : Option String :=
  (b.items.mapM (diagnostic fs o)).map String.join

/-- Choices for the document for programs. -/
structure ListingOptions where
  positions : Bool
  paths : PathView
  /-- The number of findings shown; all if it is not positive. -/
  limit : Int
  notes : Bool

def locationField (fs : FileSet) (o : ListingOptions) (s : Span) : String × Json :=
  let path := match fs.get? s.file with
    | some f => o.paths.show f
    | none => "<unknown>"
  let (start, stop) := fs.resolve s
  let positions :=
    if o.positions then
      Json.positive "start_line" start.line.toNat ++
      Json.positive "start_col" start.column.toNat ++
      Json.positive "end_line" stop.line.toNat ++
      Json.positive "end_col" stop.column.toNat
    else []
  ("location", .obj ([("file", .str path), ("start_byte", .num s.start.toNat),
    ("end_byte", .num s.stop.toNat)] ++ positions))

def entry (fs : FileSet) (o : ListingOptions) (d : Diagnostic) : Json :=
  let notes := d.notes.map fun n =>
    Json.obj [("message", .str n.text), locationField fs o n.span]
  .obj ([("severity", .str d.severity.name), ("code", .str d.code.id),
    ("title", .str d.code.title), ("message", .str d.message),
    locationField fs o d.span] ++
    if o.notes && !notes.isEmpty then [("notes", .arr notes)] else [])

def listing (fs : FileSet) (o : ListingOptions) (b : Bag) : String :=
  let shown := if o.limit > 0 then b.items.take o.limit.toNat else b.items
  Json.indented (.obj [("diagnostics", .arr (shown.map (entry fs o))),
    ("count", .num shown.length)])

end Render

end CoreLowering
