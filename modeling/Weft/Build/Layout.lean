import Weft.Path
import Weft.Text.Quoted

/-!
# The sources of a build

The source files of a build with the names of their modules, and how the imports of a file lead to other
files. A module is named by the path of its file below the first search directory that holds it, without
the extension; a file that no search directory holds gives its module its own path.
-/

namespace Weft.Build

/-- A source file: its path as it was given, its path from the root, and the name of its module. -/
structure Source where
  path : String
  place : String
  module : String
deriving DecidableEq, Repr, Inhabited

/-- The extension of source files. -/
def Source.extension : String := ".loom"

/-- The name of the module in a file. -/
def moduleName (includes : List String) (path place : String) : String :=
  Path.dropEnding Source.extension ((includes.findSome? fun d => Path.below? d place).getD path)

/-- The sources of a build, the directory that relative paths are looked at from, and the directories that
imports are searched in. -/
structure Layout where
  directory : String
  includes : List String
  sources : List Source
deriving Repr, Inhabited

namespace Layout

/-- The layout of some files. Of several paths to one place, the last names the module. -/
def new (directory : String) (includes files : List String) : Layout :=
  let includes := includes.map (Path.absolute directory)
  let places := files.map fun f => (Path.clean f, Path.absolute directory (Path.clean f))
  let names := places.reverse.map fun (path, place) => (place, moduleName includes path place)
  { directory, includes,
    sources := places.map fun (path, place) =>
      { path, place, module := (names.lookup place).getD path } }

/-- The places that the path of an import in a file may mean. A path that starts with a dot is looked at from
the directory of the file, any other one from the search directories in order. -/
def candidates (l : Layout) (file path : String) : List String :=
  let target := if path.endsWith Source.extension then path else path ++ Source.extension
  if path.startsWith "./" || path.startsWith "../" then
    [Path.join (Path.parent (Path.absolute l.directory file)) target]
  else l.includes.map fun d => Path.join d target

/-- The source that an import in a file means. -/
def find? (l : Layout) (file path : String) : Option Source :=
  (l.candidates file path).findSome? fun c => l.sources.find? fun s => s.place = c

/-- The name of the module that an import in a file means, or why there is none. -/
def resolve (l : Layout) (file path : String) : Except String String :=
  match l.find? file path with
  | some s => .ok s.module
  | none => .error ("no project file for import " ++ Text.quote path)

/-- The places of the sources that a file imports, unless an import means no source. The imports for which
`skip` holds are left out. -/
def dependencies? (l : Layout) (skip : String → Bool) (file : String) (imports : List String) :
    Option (List String) :=
  (imports.filter fun p => !skip p).mapM fun p => (l.find? file p).map Source.place

end Layout

end Weft.Build
