import Weft.Analysis.Context
import Weft.Symbol.Record
import Weft.Tree
import Weft.Typed

/-!
# Units

One file of a project while it is analyzed. A fresh unit carries its declarations from phase to phase; a
cached unit only declares the symbols of a record, so that other units can use them.
-/

namespace Weft.Analysis

/-- A function or method with its symbol, and its frame once its body is analyzed. -/
structure Method where
  decl : Tree.FuncDecl
  symbol : FuncId
  frame : Option Typed.Frame

/-- A declaration with its scope and its symbol. -/
inductive Item where
  | func (scope : Scope) (m : Method)
  | cls (scope : Scope) (decl : Tree.ClassDecl) (symbol : ClassId) (methods : List Method)
  | iface (scope : Scope) (decl : Tree.InterfaceDecl) (symbol : InterfaceId) (methods : List Method)
  | global (scope : Scope) (decl : Tree.VarDecl) (type : Tree.TypeExpr) (symbol : GlobalId)
      (init : Option Typed.Expr)

/-- A resolved import. -/
structure Imported where
  line : Nat
  name : String
  space : NamespaceId

/-- What a unit is made from. -/
inductive Source where
  | fresh (tree : Tree.File) (items : List Item) (imports : List Imported)
  | cached (record : NamespaceRecord) (imports : List String) (pending : List Pending)

/-- A file of a project: its module, the problems found so far, and whether its analysis broke off. -/
structure FileUnit where
  file : String
  module : Module
  diags : List Diagnostic
  broken : Bool
  source : Source

/-- A computation on a unit and on the symbols of the project. -/
abbrev OnUnit := StateT FileUnit Symbols

namespace FileUnit

/-- A unit of a file that has been read. -/
def fresh (file : String) (tree : Tree.File) (module : Module) : FileUnit :=
  { file, module, diags := [], broken := false, source := .fresh tree [] [] }

/-- A unit of a module that has been compiled before. -/
def cached (file : String) (record : NamespaceRecord) (imports : List String) (module : Module) :
    FileUnit :=
  { file, module, diags := [], broken := false, source := .cached record imports [] }

/-- A method of a typed tree. -/
def typedMethod (m : Method) : Typed.FuncDecl :=
  { line := m.decl.span.start.line, symbol := m.symbol, frame := m.frame }

/-- A declaration of a typed tree. Interfaces have no code. -/
def typedItem : Item → Option Typed.Decl
  | .func _ m => some (.func (typedMethod m))
  | .cls _ d c ms => some (.cls d.span.start.line c (ms.map typedMethod))
  | .iface .. => none
  | .global _ d _ g init => some (.global d.span.start.line g init)

/-- The typed tree of a fresh unit. -/
def program? (u : FileUnit) : Option Typed.Program :=
  match u.source with
  | .cached .. => none
  | .fresh _ items imports =>
    some { name := u.module.name,
           decls := (imports.map fun i => .importing i.line i.name) ++ items.filterMap typedItem }

/-- A problem of the build with a unit. -/
def buildError (u : FileUnit) (message : String) : Diagnostic :=
  { kind := .buildError, file := u.file, range := .none, message }

end FileUnit

/-- Report a problem of the build with a unit. -/
def complain (message : String) : OnUnit PUnit :=
  modify fun u => { u with diags := u.diags ++ [u.buildError message] }

/-- Run an analysis in a scope of a unit. One that breaks off is reported, gives a fallback, and leaves out
all further analyses of the unit. -/
def attempt {α : Type} (scope : Scope) (fallback : α) (m : Analysis α) : OnUnit α := do
  let u ← get
  if u.broken then return fallback
  let s ← getThe Store
  let ⟨(result, st), problems⟩ := m { file := u.file, scope } { store := s, bodies := [] }
  set st.store
  set { u with diags := u.diags ++ problems }
  match result with
  | .ok a => return a
  | .error e =>
    modify ({ · with broken := true })
    complain e.message
    return fallback

/-- Change the declarations of a fresh unit. -/
def mapItems (f : List Item → OnUnit (List Item)) : OnUnit PUnit := do
  match (← get).source with
  | .cached .. => return
  | .fresh tree items imports =>
    let items ← f items
    modify ({ · with source := .fresh tree items imports })

end Weft.Analysis
