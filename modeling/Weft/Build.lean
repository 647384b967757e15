import Weft.Analysis.Project
import Weft.Build.Config
import Weft.Build.Freshness
import Weft.Build.Partition
import Weft.Bytecode.Compile
import Weft.Diagnostic
import Weft.Directive
import Weft.Symbol.Merge
import Weft.Tree.Parser

/-!
# Building a project

A build finds out what its files import, reads those whose cached modules cannot be used, analyzes all of
them together, compiles what has been read, checks that no name is declared twice, and writes all modules
into one artifact. A stage that finds problems is the last one; the artifact is written only if there are
none.
-/

namespace Weft.Build

open Bytecode

variable {m : Type → Type} [Monad m] [Disk m]

/-- A problem with a whole file. -/
def problem (kind : Severity) (path message : String) : Diagnostic :=
  { kind, file := path, range := .none, message }

/-! ## Imports -/

/-- What is found out about a source at first: when it was changed, its text, if it had to be read, what it
imports, and whether that was found in the text. -/
structure Scan where
  source : Source
  time : Option Int
  text : Option Bytes
  imports : List String
  scanned : Bool
  problems : List Diagnostic

/-- A source that has problems. -/
def Scan.failed (source : Source) (time : Option Int) (d : Diagnostic) : Scan :=
  { source, time, text := none, imports := [], scanned := false, problems := [d] }

/-- The text of a source with its conditions applied. -/
def readText (c : Config) (path : String) : m (Except Diagnostic Bytes) := do
  match ← Disk.read path with
  | .error f => return .error (problem .buildError path f.message)
  | .ok b =>
    match Directive.apply c.defined b with
    | .ok text => return .ok text
    | .error e => return .error (problem .syntaxError path e.message)

/-- The list of imports that was kept for a source, unless the source was changed after it. -/
def cachedImports (c : Config) (s : Source) (time : Int) : m (Option (List String)) := do
  match c.cacheFiles? s with
  | none => return none
  | some files =>
    match ← Disk.stat files.imports with
    | .error _ => return none
    | .ok kept =>
      if kept.time < time then return none
      return (← Disk.read files.imports).toOption.bind decodeImports?

/-- Keep the list of imports of a source. Where that fails, the next build scans the source again. -/
def keepImports (c : Config) (s : Source) (imports : List String) : m PUnit := do
  match c.cacheFiles? s with
  | none => return
  | some files => discard (Disk.write files.imports (encodeImports imports))

/-- Find out what a source imports. -/
def scan (c : Config) (s : Source) : m Scan := do
  match ← Disk.stat s.path with
  | .error cause =>
    return .failed s none (problem .buildError s.path (Fault.message ⟨"stat", s.path, cause⟩))
  | .ok stat =>
    match ← cachedImports c s stat.time with
    | some imports =>
      return { source := s, time := some stat.time, text := none, imports, scanned := false, problems := [] }
    | none =>
      match ← readText c s.path with
      | .error d => return .failed s (some stat.time) d
      | .ok text =>
        let imports := scanImports text
        keepImports c s imports
        return { source := s, time := some stat.time, text := some text, imports, scanned := true,
                 problems := [] }

/-! ## Freshness -/

/-- The time of the compiler, if it is known. -/
def compilerTime (c : Config) : m (Option Int) := do
  match c.compiler with
  | none => Disk.programTime
  | some p => return (← Disk.stat p).toOption.map Stat.time

/-- The time of the cached module of a source, if there is one. -/
def moduleTime (c : Config) (s : Source) : m (Option Int) := do
  match c.cacheFiles? s with
  | none => return none
  | some files => return (← Disk.stat files.module).toOption.map Stat.time

/-- What decides about the cached module of a source. The imports for which `native` holds lead to no
source. -/
def Scan.standing (c : Config) (l : Layout) (native : String → Bool) (s : Scan) : m Standing := do
  return { source := s.source, time := s.time, sound := s.problems.isEmpty,
           imports := l.dependencies? native s.source.path s.imports,
           cacheTime := ← moduleTime c s.source }

/-- The sources with whether their cached modules are fresh. -/
def judge (c : Config) (l : Layout) (native : String → Bool) (scans : List Scan) :
    m (List (Scan × Bool)) := do
  let all ← scans.mapM (Scan.standing c l native)
  let compiler ← compilerTime c
  return scans.zip (all.map (isFresh compiler all))

/-! ## Contents -/

/-- What a source holds: the tree of its text, or a module that was compiled before, with its bytes. -/
inductive Content where
  | parsed (tree : Tree.File)
  | cached (data : Bytes) (module : Compiled)

/-- Whether a source was read as a program. -/
def Content.isParsed : Content → Bool
  | parsed _ => true
  | cached .. => false

/-- A source with what it holds, if that could be found. -/
structure Loaded where
  source : Source
  content : Option Content
  problems : List Diagnostic

/-- The cached module of a source, if it can be read and is the module of the source. -/
def cachedModule (c : Config) (s : Source) : m (Option Content) := do
  match c.cacheFiles? s with
  | none => return none
  | some files =>
    match ← Disk.read files.module with
    | .error _ => return none
    | .ok data =>
      match Compiled.decode data with
      | .error _ => return none
      | .ok module => return if module.name = s.module then some (.cached data module) else none

/-- Read a source as a program. -/
def parse (c : Config) (s : Scan) : m Loaded := do
  let text ← match s.text with
    | some text => pure (.ok text)
    | none => readText c s.source.path
  match text with
  | .error d => return { source := s.source, content := none, problems := [d] }
  | .ok text =>
    let (tree, problems) := Tree.parseFile s.source.path text
    return { source := s.source, content := some (.parsed tree), problems }

/-- Find out what a source holds, from its cached module if that is fresh. A source that has problems already
is left as it is. -/
def load (c : Config) (s : Scan) (fresh : Bool) : m Loaded := do
  if !s.problems.isEmpty then return { source := s.source, content := none, problems := s.problems }
  match ← if fresh then cachedModule c s.source else pure none with
  | some content => return { source := s.source, content := some content, problems := [] }
  | none => parse c s

/-! ## Analysis -/

/-- A source with the result of its analysis. -/
structure Analyzed where
  source : Source
  content : Content
  unit : Analysis.FileUnit

/-- Each source with the first one before it that defines its module. -/
def rivals (seen : List Source) : List (Source × Content) → List (Source × Content × Option Source)
  | [] => []
  | (s, content) :: rest =>
    let rival := seen.find? fun o => o.module = s.module
    (s, content, rival) :: rivals (if rival.isSome then seen else seen ++ [s]) rest

/-- The unit of a source. -/
def unitOf (r : Registry) (s : Source) (content : Content) : Symbols Analysis.FileUnit := do
  let module ← Module.new r s.module s.path
  match content with
  | .parsed tree => return .fresh s.path tree module
  | .cached _ compiled => return .cached s.path (compiled.space.getD default) compiled.imports module

/-- Analyze all sources together. A source whose module is defined before takes no part. -/
def analyze (r : Registry) (l : Layout) (files : List (Source × Content)) :
    Symbols (List Diagnostic × List Analyzed) := do
  let all := rivals [] files
  let single := all.filterMap fun (s, content, rival) => if rival.isNone then some (s, content) else none
  let units ← single.mapM fun (s, content) => unitOf r s content
  let units ← Analysis.run r (some l.resolve) units
  let analyzed := (single.zip units).map fun ((source, content), unit) => { source, content, unit }
  let problems := all.flatMap fun (s, _, rival) =>
    match rival with
    | some o =>
      [problem .buildError s.path ("module '" ++ s.module ++ "' is also defined by " ++ o.path)]
    | none => ((units.find? fun u => u.module.name = s.module).map (·.diags)).getD []
  return (problems, analyzed)

/-! ## Modules -/

/-- A module with its bytes, or the problems that kept it from being compiled. -/
structure Product where
  source : Source
  data : Bytes
  compiled : Bool
  problems : List Diagnostic

/-- A source that could not be compiled. -/
def Product.failed (s : Source) (message : String) : Product :=
  { source := s, data := [], compiled := false, problems := [problem .buildError s.path message] }

/-- Keep the bytes of a module. Where that fails, the next build compiles the module again; it is a failure
only if the artifact refers to the file. -/
def keepModule (c : Config) (s : Source) (data : Bytes) : m (Except Failure PUnit) := do
  match c.cacheFiles? s with
  | none => return .ok ⟨⟩
  | some files =>
    match ← Disk.write files.module data with
    | .ok _ => return .ok ⟨⟩
    | .error f => return if c.encoding = .ref then .error (.fault f) else .ok ⟨⟩

/-- The module of an analyzed source. -/
def compiledModule (store : Store) (a : Analyzed) (p : Typed.Program) : Except Violation Bytes :=
  (compile store a.unit.module p).map Compiled.encode

/-- Compile an analyzed source, unless it was compiled before. -/
def produce (c : Config) (store : Store) (a : Analyzed) : m (Except Failure Product) := do
  match a.content, a.unit.program? with
  | .cached data _, _ => return .ok { source := a.source, data, compiled := false, problems := [] }
  | .parsed _, none => return .ok (.failed a.source "no program")
  | .parsed _, some p =>
    match c.review a.unit with
    | some text => return .ok (.failed a.source text)
    | none =>
      match compiledModule store a p with
      | .error v => return .ok (.failed a.source v.message)
      | .ok data =>
        match ← keepModule c a.source data with
        | .error e => return .error e
        | .ok _ => return .ok { source := a.source, data, compiled := true, problems := [] }

/-! ## Collisions -/

/-- The problem of a name that a file declares after another one. -/
def collisionProblem (store : Store) (files : List Analyzed) (a : Analyzed) (c : Collision) : Diagnostic :=
  let owner := store.moduleOf c.first
  let first := ((files.find? fun b => b.source.module = owner).map (·.source.path)).getD ""
  problem .symbolCollision a.source.path
    ("symbol '" ++ c.name ++ "' is already declared in " ++ first)

/-- The names that are declared twice. -/
def collisions (files : List Analyzed) : Symbols (List Diagnostic) := do
  let (_, found) ← Store.mergeAll (files.map fun a => a.unit.module.space)
  let store ← get
  return (files.zip found).flatMap fun (a, cs) => cs.map (collisionProblem store files a)

/-! ## Results -/

/-- How many files a build had, and how many of them it scanned for imports, read as programs, took from the
cache, and compiled. -/
structure Stats where
  files : Nat
  importScans : Nat
  parsed : Nat
  cached : Nat
  compiled : Nat
deriving DecidableEq, Repr, Inhabited

/-- The counts for the files of a build at some stage. -/
def Stats.of (scans : List Scan) (loaded : List Loaded) (products : List Product) : Stats :=
  let contents := loaded.filterMap Loaded.content
  { files := scans.length,
    importScans := scans.countP Scan.scanned,
    parsed := contents.countP Content.isParsed,
    cached := contents.countP fun x => !x.isParsed,
    compiled := products.countP Product.compiled }

/-- The result of a build: the path of the artifact, if one was written, the names of its modules in order,
and the problems that were found. -/
structure Result where
  artifact : Option String
  modules : List String
  diagnostics : List Diagnostic
  stats : Stats
deriving Repr, Inhabited

/-- The products of a build with the problems that were found. -/
structure Outcome where
  products : List Product
  problems : List Diagnostic
  stats : Stats

/-- Run the stages of a build up to the first one that finds problems. -/
def runStages (c : Config) (l : Layout) : m (Except Failure Outcome) := ExceptT.run do
  let workers := workersFor l.sources.length c.workers
  let scans ← ExceptT.mk (stage workers (fun s => do return .ok (← scan c s)) l.sources)
  let judged ← ExceptT.lift (judge c l (fun p => (c.natives.registry.lookup? p).isSome) scans)
  let loaded ← ExceptT.mk (stage workers (fun (s, fresh) => do return .ok (← load c s fresh)) judged)
  let stop := fun (products : List Product) (problems : List Diagnostic) =>
    { products, problems, stats := Stats.of scans loaded products : Outcome }
  let problems := loaded.flatMap Loaded.problems
  if !problems.isEmpty then return stop [] problems
  let contents := loaded.filterMap fun x => x.content.map fun content => (x.source, content)
  let ((problems, analyzed), store) := analyze c.natives.registry l contents c.natives.store
  if !problems.isEmpty then return stop [] problems
  let products ← ExceptT.mk (stage workers (produce c store) analyzed)
  let problems := products.flatMap Product.problems
  if !problems.isEmpty then return stop products problems
  return stop products (collisions analyzed store).1

/-- The products of a build in the order of the artifact. -/
def ordered (c : Config) (products : List Product) : List Product :=
  if c.deterministic then products.mergeSort fun a b => a.source.path ≤ b.source.path else products

/-- The entry of a product in the artifact. -/
def Product.entry (c : Config) (p : Product) : Artifact.Entry :=
  { name := Text.encode p.source.module, payload := p.data, ref := (c.cacheFiles? p.source).map CacheFiles.module }

/-- Write the artifact, if one is wanted. -/
def writeArtifact (c : Config) (products : List Product) : m (Except Failure PUnit) := do
  match c.output with
  | none => return .ok ⟨⟩
  | some path =>
    match Artifact.encode c.encoding (products.map (Product.entry c)) with
    | .error name => return .error (.unreferenced ((Text.decode? name).getD ""))
    | .ok data =>
      match ← Disk.makeDirectory (Path.parent path) with
      | .error f => return .error (.fault f)
      | .ok _ => return (← Disk.write path data).mapError .fault

/-- Write the problems to their file, if one is wanted. -/
def writeProblems (c : Config) (problems : List Diagnostic) : m (Except Failure PUnit) := do
  match c.errorFile with
  | none | some "-" => return .ok ⟨⟩
  | some path =>
    return (← Disk.write path (Text.encode (Diagnostic.jsonLines problems))).mapError (.errorFile path)

/-- Give back the result, or write the problems. -/
def conclude (c : Config) (o : Outcome) : m (Except Failure Result) := do
  if o.problems.isEmpty then
    let products := ordered c o.products
    match ← writeArtifact c products with
    | .error e => return .error e
    | .ok _ =>
      return .ok { artifact := c.output, modules := products.map (·.source.module), diagnostics := [],
                   stats := o.stats }
  else
    let problems := Diagnostic.sort o.problems
    match ← writeProblems c problems with
    | .error e => return .error e
    | .ok _ => return .ok { artifact := none, modules := [], diagnostics := problems, stats := o.stats }

/-- Make the directory for what is kept between builds, if there is one. -/
def prepareCache (c : Config) : m (Except Failure PUnit) := do
  match c.cacheDir with
  | none => return .ok ⟨⟩
  | some d => return (← Disk.makeDirectory d).mapError .fault

/-- Build a project. -/
def run (c : Config) : m (Except Failure Result) := ExceptT.run do
  if c.encoding = .ref ∧ c.cacheDir.isNone then throw .refWithoutCache
  ExceptT.mk (prepareCache c)
  let directory ← ExceptT.lift (Disk.directory : m String)
  let outcome ← ExceptT.mk (runStages c (.new directory c.includes c.files))
  ExceptT.mk (conclude c outcome)

end Weft.Build
