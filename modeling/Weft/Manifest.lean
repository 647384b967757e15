import Weft.Artifact
import Weft.Build.Layout
import Weft.Toml.Parser

/-!
# Project manifests

A project is described by a manifest in its directory: its name and version, where its sources lie, how it
is built, and the projects it depends on. Paths in a manifest are looked at from its directory.
-/

namespace Weft

/-- A project: its directory and what its manifest says. -/
structure Manifest where
  directory : String
  name : String
  version : String
  files : List String
  dirs : List String
  includes : List String
  cacheDir : String
  workers : Int
  deterministic : Bool
  output : String
  encoding : Encoding
  errorFile : String
  defines : List String
  dependencies : List (String × String)
deriving Repr, Inhabited

namespace Manifest

/-- The name of the file in a project's directory. -/
def fileName : String := "loom.toml"

/-- Why a project cannot be built from its manifest. -/
inductive Problem where
  | unreadable (path : String) (fault : Fault)
  | malformed (path : String)
  | encoding (path name : String)
  | scanning (directory : String) (fault : Fault)
  | noPath (name : String)
  | notFound (name path : String) (fault : Fault)
  | cycle (trail : List String)
  | resolving (name : String) (p : Problem)
  | dependency (name : String) (p : Problem)
deriving Repr

/-- The text of a problem. -/
def Problem.message : Problem → String
  | unreadable path f => "cannot read " ++ path ++ ": " ++ f.message
  | malformed path => "parse error in " ++ path ++ ": not a table of settings"
  | encoding path name => path ++ ": " ++ Encoding.unknown name
  | scanning dir f => "scanning " ++ dir ++ ": " ++ f.message
  | noPath name => "dependency " ++ Text.quote name ++ " has no path specified"
  | notFound name path f =>
    "local dependency " ++ Text.quote name ++ " not found at " ++ path ++ ": " ++ f.message
  | cycle trail => "dependency cycle: " ++ " -> ".intercalate trail
  | resolving name p => "resolving " ++ name ++ ": " ++ p.message
  | dependency name p => "dependency " ++ name ++ ": " ++ p.message

/-- The problem itself, without the dependencies on the way to it. -/
def Problem.root : Problem → Problem
  | resolving _ p | dependency _ p => p.root
  | p => p

/-! ## Reading -/

/-- The value of a setting. Its name may be written in any case; the exact name comes first. -/
def setting? (t : Toml.Table) (name : String) : Option Toml.Value :=
  (t.lookup name).or ((t.find? fun e => e.1.toLower = name).map Prod.snd)

/-- A setting that holds a text. -/
def string? (t : Toml.Table) (name : String) : Option String :=
  match setting? t name with
  | none => some ""
  | some (.string s) => some s
  | some _ => none

/-- A setting that holds an integer. -/
def int? (t : Toml.Table) (name : String) : Option Int :=
  match setting? t name with
  | none => some 0
  | some (.int n) => some n
  | some _ => none

/-- A setting that holds a truth value. -/
def bool? (t : Toml.Table) (name : String) : Option Bool :=
  match setting? t name with
  | none => some false
  | some (.bool b) => some b
  | some _ => none

/-- A text in a list. -/
def element? : Toml.Value → Option String
  | .string s => some s
  | _ => none

/-- A setting that holds a list of texts. -/
def strings? (t : Toml.Table) (name : String) : Option (List String) :=
  match setting? t name with
  | none => some []
  | some (.array vs) => vs.mapM element?
  | some _ => none

/-- A setting that holds a table. -/
def table? (t : Toml.Table) (name : String) : Option Toml.Table :=
  match setting? t name with
  | none => some []
  | some (.table u) => some u
  | some _ => none

/-- A dependency by its name and its path. -/
def dependency? : String × Toml.Value → Option (String × String)
  | (name, .table t) => do return (name, ← string? t "path")
  | _ => none

/-- The dependencies of a project. Settings that are no table name none. -/
def dependencies? (t : Toml.Table) : Option (List (String × String)) :=
  match setting? t "dependencies" with
  | some (.table u) => u.mapM dependency?
  | _ => some []

/-- The manifest of a project in a directory, as written, with the name of the way to store modules. -/
def ofTable? (directory : String) (t : Toml.Table) : Option (Manifest × String) := do
  let project ← table? t "project"
  let source ← table? t "source"
  let build ← table? t "build"
  let x : Manifest := {
    directory
    name := ← string? project "name"
    version := ← string? project "version"
    files := ← strings? source "files"
    dirs := ← strings? source "dirs"
    includes := ← strings? source "include"
    cacheDir := ← string? build "cache-dir"
    workers := ← int? build "workers"
    deterministic := ← bool? build "deterministic"
    output := ← string? build "output"
    encoding := .raw
    errorFile := ← string? build "error-file"
    defines := ← strings? build "defines"
    dependencies := ← dependencies? t }
  return (x, ← string? build "encoding")

/-- Fill in what a manifest leaves open: sources lie in one directory, and imports are searched where the
sources lie. -/
def withDefaults (m : Manifest) : Manifest :=
  let dirs := if m.dirs.isEmpty ∧ m.files.isEmpty then ["src"] else m.dirs
  { m with dirs, includes := if m.includes.isEmpty then dirs else m.includes }

/-- A directory of sources without a manifest. -/
def bare (directory name : String) : Manifest :=
  { directory, name, version := "", files := [], dirs := ["."], includes := ["."], cacheDir := "",
    workers := 0, deterministic := false, output := "", encoding := .raw, errorFile := "", defines := [],
    dependencies := [] }

/-- Read the manifest in a directory. -/
def load {m : Type → Type} [Monad m] [Disk m] (directory : String) : m (Except Problem Manifest) := do
  let path := Path.join directory fileName
  match ← Disk.read path with
  | .error f => return .error (.unreadable path f)
  | .ok b =>
    match (Toml.parse? b).bind (ofTable? (← Disk.absolute directory)) with
    | none => return .error (.malformed path)
    | some (x, name) =>
      match Encoding.ofName? name with
      | none => return .error (.encoding path name)
      | some encoding => return .ok (withDefaults { x with encoding })

/-- Read the manifest in the first of some directories that has one. -/
def loadFirst {m : Type → Type} [Monad m] [Disk m] : List String → m (Except Problem (Option Manifest))
  | [] => return .ok none
  | d :: ds => do
    match ← Disk.stat (Path.join d fileName) with
    | .ok _ => return (← load d).map some
    | .error _ => loadFirst ds

/-- Read the manifest nearest to a directory, in it or above it. -/
def nearest {m : Type → Type} [Monad m] [Disk m] (directory : String) :
    m (Except Problem (Option Manifest)) := do
  loadFirst (Path.ancestors (← Disk.absolute directory))

/-! ## Paths -/

/-- A path of a manifest as seen from the root. An empty path stays empty. -/
def path (x : Manifest) (p : String) : String :=
  if p = "" ∨ Path.isAbsolute p then p else Path.join x.directory p

/-- The directories that hold the sources. -/
def dirPaths (x : Manifest) : List String := x.dirs.map x.path

/-- The directories that imports are searched in. -/
def includePaths (x : Manifest) : List String := x.includes.map x.path

/-- The paths of a list that are not in another, each once. -/
def addNew (known : List String) : List String → List String
  | [] => known
  | p :: ps => addNew (if known.contains p then known else known ++ [p]) ps

/-- Add the source files under directories to a list, those of each directory in order. -/
def addSources {m : Type → Type} [Monad m] [Disk m] (known : List String) :
    List String → m (Except Problem (List String))
  | [] => return .ok known
  | d :: ds => do
    match ← Disk.filesUnder d with
    | .error f => return .error (.scanning d f)
    | .ok found =>
      let sources := found.filter fun p => Path.extension p = Build.Source.extension
      addSources (addNew known (sources.mergeSort fun a b => a ≤ b)) ds

/-- The source files of a project: those that are listed, then those in its directories, each once. -/
def sourceFiles {m : Type → Type} [Monad m] [Disk m] (x : Manifest) : m (Except Problem (List String)) :=
  addSources (addNew [] (x.files.map x.path)) x.dirPaths

end Manifest

end Weft
