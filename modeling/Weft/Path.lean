import Weft.Text.Glyph

/-!
# File paths

Paths are texts whose parts are divided by slashes. The functions here look at the text only: a part `..`
takes back the part before it.
-/

namespace Weft.Path

/-- Whether a path starts at the root. -/
def isAbsolute (p : String) : Bool := p.startsWith "/"

/-- The parts of a path. -/
def parts (p : String) : List String := (Text.pieces '/' p).filter (· ≠ "")

/-- Append a part to the parts of a clean path, which are given in reverse. At the root there is nothing to
take back, elsewhere a `..` stays if no part stands before it. -/
def step (absolute : Bool) (done : List String) (part : String) : List String :=
  if part = "." then done
  else if part = ".." then
    match done with
    | [] => if absolute then [] else [".."]
    | ".." :: _ => ".." :: done
    | _ :: rest => rest
  else part :: done

/-- The shortest path that means the same. The empty path means the directory it is looked at from. -/
def clean (p : String) : String :=
  let absolute := isAbsolute p
  let body := "/".intercalate ((parts p).foldl (step absolute) []).reverse
  if absolute then "/" ++ body else if body = "" then "." else body

/-- One path below another. An empty one is left out. -/
def join (a b : String) : String :=
  if a = "" then (if b = "" then "" else clean b)
  else if b = "" then clean a
  else clean (a ++ "/" ++ b)

/-- The path from the root, as seen from a directory. -/
def absolute (directory p : String) : String := if isAbsolute p then clean p else join directory p

/-- The directory that a path lies in. -/
def parent (p : String) : String :=
  clean (String.ofList (p.toList.reverse.dropWhile (· ≠ '/')).reverse)

/-- The last part of a path, which is empty after a slash. -/
def last (p : String) : String := (Text.pieces '/' p).getLastD ""

/-- The extension of a path: the last part from its last dot on. -/
def extension (p : String) : String :=
  match Text.pieces '.' (last p) with
  | [] | [_] => ""
  | ps => "." ++ ps.getLastD ""

/-- A path without an ending, if it has it. -/
def dropEnding (ending p : String) : String :=
  if p.endsWith ending then (p.dropEnd ending.length).toString else p

/-- A clean path from the root as seen from a directory that holds it. -/
def below? (directory p : String) : Option String :=
  if p = directory then some "."
  else
    let start := if directory = "/" then "/" else directory ++ "/"
    if p.startsWith start then some (p.drop start.length).toString else none

/-- A clean path from the root and all directories above it, the nearest first. -/
def ancestors (p : String) : List String :=
  let rec up : List String → List String
    | [] => ["/"]
    | part :: rest => ("/" ++ "/".intercalate (part :: rest).reverse) :: up rest
  up (parts p).reverse

/-- The paths that have to be directories for a path to be one, the outermost first. -/
def stages (p : String) : List String :=
  let start := if isAbsolute p then "/" else ""
  let ps := parts p
  (List.range ps.length).map fun i => start ++ "/".intercalate (ps.take (i + 1))

end Weft.Path
