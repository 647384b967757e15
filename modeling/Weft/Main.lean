import Weft.CommandLine

/-!
# The program

The command line on the files of the machine it runs on.
-/

namespace Weft.Machine

/-- The cause of an error of the operating system. The two errors about directories are told apart by their
numbers, which may come with either sign. -/
def cause : IO.Error → Cause
  | .noFileOrDirectory .. => .missing
  | .inappropriateType _ code text =>
    if code = 20 ∨ code = -20 then .notDirectory
    else if code = 21 ∨ code = -21 then .isDirectory
    else .other text
  | e => .other (toString e)

/-- Run an operation on a path. -/
def attempt {α : Type} (operation path : String) (act : IO α) : IO (Except Fault α) := do
  try return .ok (← act)
  catch e => return .error ⟨operation, path, cause e⟩

/-- The time of a change in billionths of a second. -/
def timeOf (t : IO.FS.SystemTime) : Int := t.sec * 1000000000 + t.nsec.toNat

/-- Write a file beside its path and move it there, so that no reader sees a part of it. -/
def replaceFile (path : String) (b : Bytes) : IO Unit := do
  let draft := path ++ ".tmp"
  IO.FS.writeBinFile draft ⟨b.toArray⟩
  IO.FS.rename draft path

/-- Look at a path. -/
def look (path : String) : IO Stat := do
  let data ← ((← IO.currentDir) / path).metadata
  return ⟨timeOf data.modified, data.type matches .dir⟩

instance : Disk IO where
  directory := return toString (← IO.currentDir)
  stat p := return (← attempt "stat" p (look p)).mapError Fault.cause
  read p := do
    match ← attempt "open" p (look p) with
    | .ok ⟨_, true⟩ => return .error ⟨"read", p, .isDirectory⟩
    | _ => attempt "open" p do return (← IO.FS.readBinFile p).toList
  write p b := do
    match ← attempt "open" p (replaceFile p b) with
    | .ok _ => return .ok ⟨⟩
    | .error f => return .error f
  makeDirectory p := do
    match ← attempt "mkdir" p (IO.FS.createDirAll p) with
    | .ok _ => return .ok ⟨⟩
    | .error f => return .error f
  names p := attempt "open" p do
    let entries ← ((← IO.currentDir) / p).readDir
    return (entries.toList.map (·.fileName)).mergeSort fun a b => a ≤ b
  programTime := do
    try return some (timeOf (← (← IO.appPath).metadata).modified)
    catch _ => return none
  bound := return 1000000

end Weft.Machine

/-- Run the command line. -/
def main (args : List String) : IO UInt32 := do
  let outcome ← (Weft.CommandLine.run args : IO Weft.CommandLine.Outcome)
  (← IO.getStdout).write ⟨outcome.out.toArray⟩
  (← IO.getStderr).write ⟨outcome.err.toArray⟩
  return outcome.exit.toUInt32
