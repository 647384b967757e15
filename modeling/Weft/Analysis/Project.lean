import Weft.Analysis.Outline
import Weft.Analysis.Stmt
import Weft.Analysis.Types
import Weft.Typed.Node

/-!
# Analyzing a project

The analysis runs in phases, and each phase is completed for all files before the next one starts, so
that later phases see the declarations of every file.
-/

namespace Weft.Analysis

/-- The phases of an analysis. -/
inductive Phase where
  | outline | linkImports | addImports | types | bases | bodies | finalize
deriving DecidableEq, Repr

namespace Phase

/-- Every phase in order. -/
def all : List Phase := [outline, linkImports, addImports, types, bases, bodies, finalize]

/-- The name of a phase. -/
def name : Phase → String
  | outline => "outline"
  | linkImports => "link imports 1"
  | addImports => "link imports 2"
  | types => "parse types 1"
  | bases => "parse types 2"
  | bodies => "parse func bodies"
  | finalize => "finalize"

/-- The name of the phase with a number. -/
def nameOfNumber (n : Nat) : String :=
  match all[n]? with
  | some p => p.name
  | none => s!"Phase({n})"

end Phase

/-- How the path of an import in a file leads to the name of a module, or why it does not. -/
abbrev Resolver := String → String → Except String String

/-- What the units of a project share: the native modules, the resolver of imports, and the namespaces of
the modules by name. -/
structure Project where
  registry : Registry
  resolver : Option Resolver
  modules : List (String × NamespaceId)

namespace Project

/-- A project of units. Of several modules with one name, the last is found. -/
def new (registry : Registry) (resolver : Option Resolver) (units : List FileUnit) : Project :=
  { registry, resolver, modules := (units.map fun u => (u.module.name, u.module.space)).reverse }

/-- The module that an import leads to. Native modules are found by their path. -/
def import? (p : Project) (file path : String) : Except String (String × NamespaceId) :=
  match p.registry.lookup? path, p.resolver with
  | some n, _ => .ok (path, n)
  | none, none => .error "no import resolver"
  | none, some resolve => do
    let name ← resolve file path
    match p.modules.lookup name with
    | some n => .ok (name, n)
    | none => .error s!"module '{name}' not found"

end Project

/-! ## Imports -/

/-- The imports of a file that lead to other modules, each once. -/
def resolveImports (p : Project) (module : String) : List String → List Tree.Import →
    Analysis (List Imported)
  | _, [] => return []
  | seen, i :: rest => do
    match p.import? (← read).file i.path with
    | .error why =>
      report i.span (.invalidImport i.path why)
      resolveImports p module seen rest
    | .ok (name, space) =>
      if name = module then
        report i.span (.importsItself name)
        resolveImports p module seen rest
      else if name ∈ seen then
        report i.span (.importedTwice name)
        resolveImports p module seen rest
      else
        return { line := i.span.start.line, name, space } ::
          (← resolveImports p module (name :: seen) rest)

/-- Resolve the imports of a fresh unit. -/
def linkImports (p : Project) : OnUnit PUnit := do
  let u ← get
  match u.source with
  | .cached .. => return
  | .fresh tree items _ =>
    let imports ← attempt (.file u.module.space) [] (resolveImports p u.module.name [] tree.imports)
    modify ({ · with source := .fresh tree items imports })

/-- Make a module visible in a unit. -/
def addImport (name : String) (n : NamespaceId) : OnUnit PUnit := do
  let (_, module) ← (← get).module.addImport name n
  modify ({ · with module })

/-- Make the modules that a unit imports visible in it. -/
def addImports (p : Project) : OnUnit PUnit := do
  match (← get).source with
  | .fresh _ _ imports => imports.forM fun i => addImport i.name i.space
  | .cached _ imports _ =>
    imports.forM fun name => do
      match (p.registry.lookup? name).or (p.modules.lookup name) with
      | some n => addImport name n
      | none => complain s!"cached module imports missing module '{name}'"

/-- Resolve the types of the declarations of a unit. -/
def resolveDeclared : OnUnit PUnit := do
  match (← get).source with
  | .fresh _ items _ => items.forM typeItem
  | .cached _ _ pending =>
    let errors ← Pending.settle (← get).module.space pending
    errors.forM fun e => complain ("cached module is out of date: " ++ e.message)

/-! ## Bodies -/

/-- Report the calls of a chain that do not fit a yield: coroutines are called only by the last call of a
yielded chain, and that call has to be one of a coroutine. -/
def checkChain (yielded : Bool) : List Typed.Node → Analysis PUnit
  | [] => return
  | n :: rest => do
    match n.label with
    | .call a _ _ _ (some site) =>
      let terminal := yielded && rest.isEmpty
      if a.kind.isCall then
        if site.coro && !terminal then report site.span (.coroWithoutYield site.name)
        if !site.coro && terminal then report site.span (.yieldWithoutCoro site.name)
    | _ => pure ()
    checkChain yielded rest

/-- Report the calls in trees that do not fit a yield. -/
def checkYields (ns : List Typed.Node) : Analysis PUnit :=
  (Typed.forestPreorder ns).forM fun n => do
    match n.label with
    | .chain _ yielded => checkChain yielded n.kids
    | _ => return

/-- Analyze the body of a function or of a method of a class. -/
def analyzeMethod (cls : Option ClassId) (m : Method) : Analysis Method := do
  match m.decl.body with
  | none => return m
  | some block =>
    let f := (← store).func m.symbol
    let sig := f.sig.getD default
    let start := match cls with
      | some c => Body.method sig c
      | none => Body.empty sig
    let height := max (Tree.paramsHeight m.decl.params) block.height
    let ((params, ss), b) ← inBody start (frame (visit height) m.decl.params block)
    checkBody m.decl.span f.fullName b block
    checkYields (Typed.stmtNodes ss)
    return { m with
      frame := some { slots := b.slots, params, line := block.span.start.line, body := ss } }

/-- Analyze the initial value of a global variable. -/
def analyzeInit (g : GlobalId) (x : Tree.Expr) : Analysis (Option Typed.Expr) := do
  let type := ((← store).global g).type
  let ((y, t), _) ← inBody (.empty default) ((visit x.height).expr x type)
  checkAssignable x.span t type
  checkYields [y.node]
  return some y

/-- Analyze the bodies of a declaration. -/
def analyzeItem : Item → OnUnit Item
  | .func sc m => return .func sc (← attempt sc m (analyzeMethod none m))
  | .cls sc d c methods => do
    attempt sc () (checkClass d c methods)
    return .cls sc d c (← methods.mapM fun m => attempt sc m (analyzeMethod (some c) m))
  | .iface sc d i methods => return .iface sc d i methods
  | .global sc d type g init => do
    match d.init with
    | none => return .global sc d type g init
    | some x => return .global sc d type g (← attempt sc none (analyzeInit g x))

/-- Run a phase on a unit. -/
def runPhase (p : Project) : Phase → OnUnit PUnit
  | .outline => outline
  | .linkImports => linkImports p
  | .addImports => addImports p
  | .types => resolveDeclared
  | .bases => mapItems fun items => do
    items.forM linkItem
    return items
  | .bodies => mapItems fun items => items.mapM analyzeItem
  | .finalize => return

/-- Run a phase on every unit. -/
def runUnits (p : Project) (units : List FileUnit) (phase : Phase) : Symbols (List FileUnit) :=
  units.mapM fun u => do return (← (runPhase p phase).run u).2

/-- Analyze the units of a project together. -/
def run (registry : Registry) (resolver : Option Resolver) (units : List FileUnit) :
    Symbols (List FileUnit) :=
  Phase.all.foldlM (runUnits (.new registry resolver units)) units

end Weft.Analysis
