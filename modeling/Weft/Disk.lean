import Weft.Path
import Weft.Text.Glyph

/-!
# Files

What the build needs of a file system, so that it can run on the files of a machine and on files that are
held in memory. Times are numbers that grow; their unit does not matter.
-/

namespace Weft

/-- Why an operation on files failed. -/
inductive Cause where
  | missing
  | notDirectory
  | isDirectory
  | other (text : String)
deriving DecidableEq, Repr

/-- The text of a cause. -/
def Cause.text : Cause → String
  | missing => "no such file or directory"
  | notDirectory => "not a directory"
  | isDirectory => "is a directory"
  | other t => t

/-- An operation on files that failed, on which path, and why. -/
structure Fault where
  operation : String
  path : String
  cause : Cause
deriving DecidableEq, Repr

/-- The text of a fault. -/
def Fault.message (f : Fault) : String := f.operation ++ " " ++ f.path ++ ": " ++ f.cause.text

/-- What is known about a path without reading it: the time of its last change, and whether it is a
directory. -/
structure Stat where
  time : Int
  directory : Bool
deriving DecidableEq, Repr

/-- Operations on files. -/
class Disk (m : Type → Type) where
  /-- The path from the root of the directory that relative paths are looked at from. -/
  directory : m String
  /-- Look at a path. -/
  stat : String → m (Except Cause Stat)
  /-- The contents of a file. -/
  read : String → m (Except Fault Bytes)
  /-- Write a file that replaces what was there. -/
  write : String → Bytes → m (Except Fault PUnit)
  /-- Make a directory and those above it. -/
  makeDirectory : String → m (Except Fault PUnit)
  /-- The names in a directory in order. -/
  names : String → m (Except Fault (List String))
  /-- The time of the last change of the running program, if it is known. -/
  programTime : m (Option Int)
  /-- A bound on the number of directories. -/
  bound : m Nat

namespace Disk

/-- The path of a file from the root. -/
def absolute {m : Type → Type} [Monad m] [Disk m] (p : String) : m String := do
  return Path.absolute (← directory) p

/-- The files under a directory and in those inside it, up to a depth; a file is the only file under
itself. -/
def walk {m : Type → Type} [Monad m] [Disk m] : Nat → String → m (Except Fault (List String))
  | 0, _ => return .ok []
  | depth + 1, p => do
    match ← stat p with
    | .error c => return .error ⟨"lstat", p, c⟩
    | .ok s =>
      if !s.directory then return .ok [p]
      match ← names p with
      | .error f => return .error f
      | .ok ns => do
        let found ← ns.mapM fun n => walk depth (Path.join p n)
        return found.foldr (fun r rest => do return (← r) ++ (← rest)) (.ok [])

/-- No path has more parts than this. -/
def maxDepth : Nat := 4096

/-- The files under a directory. -/
def filesUnder {m : Type → Type} [Monad m] [Disk m] (p : String) : m (Except Fault (List String)) :=
  walk maxDepth p

end Disk

end Weft
