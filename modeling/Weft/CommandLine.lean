import Weft.Build
import Weft.Bytecode.Listing
import Weft.CommandLine.Options
import Weft.Manifest.Dependency

/-!
# The command line

A run of the program: it builds the project whose manifest is nearest, with what the options change, or it
lists the modules of artifacts.
-/

namespace Weft.CommandLine

variable {m : Type → Type} [Monad m] [Disk m]

/-- How a run ends, and what it wrote. -/
structure Outcome where
  exit : Nat
  out : Bytes
  err : Bytes
deriving DecidableEq, Repr, Inhabited

/-- A run that ends with an error. -/
def Outcome.failed (exit : Nat) (message : String) : Outcome :=
  { exit, out := [], err := Text.encode ("Error: " ++ message ++ "\n") }

/-! ## Listing artifacts -/

/-- The listing of modules up to the first one that cannot be read, and the text of that problem. -/
def listModules (path : String) : List Artifact.Loaded → Bytes × Option Bytes
  | [] => ([], none)
  | x :: rest =>
    match Bytecode.Compiled.decode x.data with
    | .error e =>
      ([], some (Text.encode (path ++ ": module ") ++ x.name ++ Text.encode (": " ++ e.message)))
    | .ok module =>
      let title := Text.encode "== " ++ x.name ++ Text.encode (" (" ++ x.encoding.name ++ ") ==\n")
      let (out, problem) := listModules path rest
      (title ++ module.listing ++ out, problem)

/-- The listing of an artifact. -/
def listArtifact (path : String) : m (Bytes × Option Bytes) := do
  match ← Disk.read path with
  | .error f => return ([], some (Text.encode (path ++ ": failed to read artifact: " ++ f.message)))
  | .ok b =>
    match ← Artifact.decode Disk.read b with
    | .error e => return ([], some (Text.encode (path ++ ": " ++ e.message)))
    | .ok modules => return listModules path modules

/-- The listing of artifacts up to the first problem. -/
def listArtifacts : List String → m (Bytes × Option Bytes)
  | [] => return ([], none)
  | path :: rest => do
    match ← listArtifact path with
    | (out, some problem) => return (out, some problem)
    | (out, none) =>
      let (more, problem) ← listArtifacts rest
      return (out ++ more, problem)

/-- List artifacts. -/
def disassemble (paths : List String) : m Outcome := do
  if paths.isEmpty then return .failed 1 "-disasm needs an artifact path"
  let (out, problem) ← listArtifacts paths
  match problem with
  | none => return { exit := 0, out, err := [] }
  | some text => return { exit := 1, out, err := Text.encode "Error: " ++ text ++ [10] }

/-! ## Building -/

/-- The settings from the nearest manifest. Where there is none, nothing is asked for. -/
def loadConfig (directory : String) : m (Except Manifest.Problem Build.Config) := do
  match ← Manifest.nearest directory with
  | .error p => return .error p
  | .ok none => return .ok .empty
  | .ok (some x) => x.buildConfig

/-- The settings with what the options change. The name of an unknown way to store modules is given back. -/
def Options.override (o : Options) (c : Build.Config) : Except String Build.Config :=
  match Encoding.ofName? o.encoding with
  | none => .error o.encoding
  | some encoding => .ok { c with
      files := if o.files.isEmpty then c.files else o.files
      includes := if o.includes.isEmpty then c.includes else o.includes
      output := (Manifest.given? o.output).or c.output
      cacheDir := (Manifest.given? o.cache).or c.cacheDir
      workers := if 0 < o.workers then o.workers else c.workers
      deterministic := c.deterministic || o.deterministic
      encoding := if o.encoding = "" then c.encoding else encoding
      errorFile := (Manifest.given? o.errorFile).or c.errorFile
      defines := c.defines ++ o.defines }

/-- What is told about the problems of a build. -/
def report (c : Build.Config) (ds : List Diagnostic) : String :=
  (if c.errorFile = some "-" then Diagnostic.jsonLines ds else "") ++
    String.join (ds.map fun d => d.text ++ "\n") ++ s!"{ds.length} error(s)\n"

/-- What is told about a build without problems. -/
def summary (r : Build.Result) : String :=
  let s := r.stats
  s!"Built {r.modules.length} modules ({s.compiled} compiled, {s.cached} from cache)\n" ++
    ((r.artifact.map fun p => "Wrote " ++ p ++ "\n").getD "")

/-- Build with settings. -/
def buildWith (o : Options) (c : Build.Config) : m Outcome := do
  if c.files.isEmpty then
    let complaint := Outcome.failed 2 "no source files (no loom.toml found and none given)"
    return { complaint with err := complaint.err ++ Text.encode usage }
  match ← Build.run c with
  | .error e => return .failed 1 e.message
  | .ok r =>
    if !r.diagnostics.isEmpty then
      return { exit := 1, out := [], err := Text.encode (report c r.diagnostics) }
    return { exit := 0, out := if 0 < o.verbose then Text.encode (summary r) else [], err := [] }

/-- Build the nearest project. -/
def build (o : Options) : m Outcome := do
  match ← loadConfig o.directory with
  | .error p => return .failed 1 p.message
  | .ok c =>
    match o.override c with
    | .error name => return .failed 2 (Encoding.unknown name)
    | .ok c => buildWith o c

/-- A run with arguments. -/
def run (args : List String) : m Outcome := do
  match Options.parse .plain args with
  | .error .help => return { exit := 0, out := [], err := Text.encode usage }
  | .error e => return { exit := 2, out := [], err := Text.encode (e.message ++ usage) }
  | .ok o => if o.disasm then disassemble o.files else build o

end Weft.CommandLine
