import Weft.Build.Config
import Weft.Manifest

/-!
# Dependencies of projects

The projects that a project depends on, directly or not, each once and after all that it depends on
itself. A project that depends on itself on some way is refused.
-/

namespace Weft

/-- A project that another one depends on: the name it is called by, its directory, and its manifest. -/
structure Dependency where
  name : String
  path : String
  manifest : Manifest
deriving Repr, Inhabited

namespace Dependency

/-- Find a dependency of a project. A directory without a manifest is a directory of sources. -/
def find {m : Type → Type} [Monad m] [Disk m] (x : Manifest) (name path : String) :
    m (Except Manifest.Problem Dependency) := do
  if path = "" then return .error (.noPath name)
  let place ← Disk.absolute (x.path path)
  match ← Disk.stat place with
  | .error c => return .error (.notFound name place ⟨"stat", place, c⟩)
  | .ok _ =>
    match ← Manifest.load place with
    | .ok y => return .ok ⟨name, place, y⟩
    | .error (.unreadable p f) =>
      if f.cause = .missing then return .ok ⟨name, place, Manifest.bare place name⟩
      return .error (.unreadable p f)
    | .error p => return .error p

/-- The names and paths of a project's dependencies, by name. -/
def sorted (x : Manifest) : List (String × String) := x.dependencies.mergeSort fun a b => a.1 ≤ b.1

/-- Add dependencies to those found so far, with what each depends on before it. `inside` says how to add the
dependencies of a dependency, `active` holds the projects on the way, and `trail` their names. -/
def addAll {m : Type → Type} [Monad m] [Disk m]
    (inside : List String → List String → List Dependency → Manifest →
      m (Except Manifest.Problem (List Dependency)))
    (active trail : List String) (x : Manifest) (found : List Dependency) :
    List (String × String) → m (Except Manifest.Problem (List Dependency))
  | [] => return .ok found
  | (name, path) :: rest => do
    match ← find x name path with
    | .error p => return .error (.resolving name p)
    | .ok d =>
      if active.contains d.path then return .error (.cycle (trail ++ [name]))
      if found.any (·.path = d.path) then addAll inside active trail x found rest
      else
        match ← inside (d.path :: active) (trail ++ [name]) found d.manifest with
        | .error p => return .error p
        | .ok found => addAll inside active trail x (found ++ [d]) rest

/-- Add the dependencies of a project to those found so far. The first argument bounds how many projects may
depend on each other in a row. -/
def addDepth {m : Type → Type} [Monad m] [Disk m] : Nat → List String → List String → List Dependency →
    Manifest → m (Except Manifest.Problem (List Dependency))
  | 0, _, trail, _, _ => return .error (.cycle trail)
  | n + 1, active, trail, found, x => addAll (addDepth n) active trail x found (sorted x)

/-- The dependencies of a project in the order in which they are built. -/
def resolve {m : Type → Type} [Monad m] [Disk m] (x : Manifest) :
    m (Except Manifest.Problem (List Dependency)) := do
  addDepth ((← Disk.bound) + 2) [x.directory] [] [] x

end Dependency

end Weft

/-! ## From a manifest to a build

The settings of the build of a project together with all projects that it depends on. Their files come
first, so that their modules precede those of the project; imports are searched in the project's own
directories first.
-/

namespace Weft.Manifest

variable {m : Type → Type} [Monad m] [Disk m]

/-- A text that says something. -/
def given? (s : String) : Option String := if s = "" then none else some s

/-- The source files of dependencies in order. -/
def dependencyFiles : List Dependency → m (Except Problem (List String))
  | [] => return .ok []
  | d :: ds => do
    match ← d.manifest.sourceFiles with
    | .error p => return .error (.dependency d.name p)
    | .ok files => return (← dependencyFiles ds).map (files ++ ·)

/-- The settings of a build of some files. A dash for the error output is no path. -/
def settings (x : Manifest) (deps : List Dependency) (files : List String) : Build.Config :=
  { files,
    includes := x.includePaths ++ deps.flatMap (·.manifest.includePaths),
    cacheDir := given? (x.path x.cacheDir),
    output := given? (x.path x.output),
    workers := x.workers,
    deterministic := x.deterministic,
    encoding := x.encoding,
    defines := x.defines,
    errorFile := given? (if x.errorFile = "-" then "-" else x.path x.errorFile),
    compiler := none,
    review := fun _ => none }

/-- The settings of the build of a project. -/
def buildConfig (x : Manifest) : m (Except Problem Build.Config) := do
  match ← Dependency.resolve x with
  | .error p => return .error p
  | .ok deps =>
    match ← dependencyFiles deps with
    | .error p => return .error p
    | .ok before =>
      match ← x.sourceFiles with
      | .error p => return .error p
      | .ok own => return .ok (settings x deps (before ++ own))

end Weft.Manifest
