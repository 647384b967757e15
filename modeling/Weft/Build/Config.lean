import Weft.Analysis.Unit
import Weft.Artifact
import Weft.Build.Layout

/-!
# What to build

The settings of a build, and the ways in which a build itself can fail. Problems of the sources are no
failures; they are part of the result.
-/

namespace Weft.Build

/-- A hash of the bytes of a text. -/
def textHash (s : String) : UInt64 := (Text.encode s).foldl (fun h b => (h ^^^ b.toUInt64) * 0x100000001B3) 0xCBF29CE484222325

/-- The settings of a build. -/
structure Config where
  /-- The source files, in the order of the modules. -/
  files : List String
  /-- The directories that imports are searched in. -/
  includes : List String
  /-- The directory for what is kept between builds. -/
  cacheDir : Option String
  /-- The path of the artifact. -/
  output : Option String
  /-- How many parts the files are split into at most; none or fewer means one for each file. -/
  workers : Int
  /-- Whether modules are ordered by the paths of their files. -/
  deterministic : Bool
  /-- How modules are stored in the artifact. -/
  encoding : Encoding
  /-- The names that conditions on lines find defined. -/
  defines : List String
  /-- The file for problems, where a dash means the error output. -/
  errorFile : Option String
  /-- The program whose time counts as that of the compiler; the running program if none is given. -/
  compiler : Option String
  /-- A last look at a file before it is compiled, which can refuse it with a text. -/
  review : Analysis.FileUnit → Option String
  /-- What sources see without importing a file. -/
  natives : Natives := .standard
  /-- The hash that cache files are named after. -/
  hash : String → UInt64 := textHash

/-- Settings that ask for nothing. -/
def Config.empty : Config :=
  { files := [], includes := [], cacheDir := none, output := none, workers := 0, deterministic := false,
    encoding := .raw, defines := [], errorFile := none, compiler := none, review := fun _ => none }

instance : Inhabited Config := ⟨.empty⟩

/-- Whether a name is defined. -/
def Config.defined (c : Config) (name : Bytes) : Bool := c.defines.any fun d => Text.encode d = name

/-- The files in which the imports and the module of a source are kept. -/
structure CacheFiles where
  imports : String
  module : String
deriving DecidableEq, Repr

/-- The extension of files that keep lists of imports. -/
def importsExtension : String := ".imports"

/-- The extension of files that keep modules. -/
def moduleExtension : String := ".module"

/-- The cache files with a name in a directory. -/
def CacheFiles.of (directory name : String) : CacheFiles :=
  { imports := Path.join directory (name ++ importsExtension), module := Path.join directory (name ++ moduleExtension) }

/-- The name of the cache files of a source: the hash of its place in hexadecimal digits. -/
def Config.cacheName (c : Config) (s : Source) : String := Text.hexDigits 16 (c.hash s.place).toNat

/-- The cache files of a source, if there is a directory for them. -/
def Config.cacheFiles? (c : Config) (s : Source) : Option CacheFiles := c.cacheDir.map fun d => .of d (c.cacheName s)

/-- Why a build failed. -/
inductive Failure where
  | refWithoutCache
  | fault (f : Fault)
  | errorFile (path : String) (f : Fault)
  | unreferenced (module : String)
deriving Repr

/-- The text of a failure. -/
def Failure.message : Failure → String
  | refWithoutCache => "encoding ref needs a cache directory"
  | fault f => f.message
  | errorFile path f => "cannot create error file " ++ path ++ ": " ++ f.message
  | unreferenced name => "module " ++ name ++ " has no cache file to refer to"

end Weft.Build
