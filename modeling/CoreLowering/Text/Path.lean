/-!
# Paths

Operations on paths as texts: no file is looked at.  Parts are separated by
slashes, and a path that starts with one is rooted.
-/

namespace CoreLowering.Path

def isRooted (p : String) : Bool :=
  p.toList.head? == some '/'

/-- Adds a part to the parts before it, given in reverse: a dot or an empty
part adds nothing, and two dots take away the part before, if one is left to
take away. -/
def addPart (rooted : Bool) (before : List String) (part : String) : List String :=
  if part = "" || part = "." then before
  else if part = ".." then
    match before with
    | [] => if rooted then [] else [part]
    | ".." :: _ => part :: before
    | _ :: rest => rest
  else part :: before

/-- The parts of the shortest path that means the same. -/
def parts (p : String) : List String :=
  ((p.splitOn "/").foldl (addPart (isRooted p)) []).reverse

def ofParts (rooted : Bool) (parts : List String) : String :=
  let body := "/".intercalate parts
  if rooted then "/" ++ body else if parts.isEmpty then "." else body

/-- The shortest path that means the same. -/
def clean (p : String) : String :=
  ofParts (isRooted p) (parts p)

/-- One path after another. -/
def join (a b : String) : String :=
  if a = "" then (if b = "" then "" else clean b)
  else if b = "" then clean a
  else clean (a ++ "/" ++ b)

def base (p : String) : String :=
  if p = "" then "."
  else
    match (p.toList.reverse.dropWhile (· = '/')).takeWhile (· ≠ '/') with
    | [] => "/"
    | cs => String.ofList cs.reverse

/-- The path without its last part. -/
def dir (p : String) : String :=
  clean (String.ofList (p.toList.reverse.dropWhile (· ≠ '/')).reverse)

/-- The rooted path of `p`, read in the directory `here`. -/
def absolute (here p : String) : String :=
  if isRooted p then clean p else join here p

/-- Two lists without the parts they start with in common. -/
def apart : List String → List String → List String × List String
  | a :: as, b :: bs => if a = b then apart as bs else (a :: as, b :: bs)
  | as, bs => (as, bs)

/-- The path that leads from `here` to `p`, if the texts alone tell it. -/
def relative (here p : String) : Option String :=
  if isRooted here != isRooted p then none
  else
    match apart (parts here) (parts p) with
    | ([], []) => some "."
    | (".." :: _, _) => none
    | (up, down) => some ("/".intercalate (up.map (fun _ => "..") ++ down))

end CoreLowering.Path
