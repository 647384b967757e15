import Weft.Analysis.Unit
import Weft.Symbol.Class

/-!
# Declaring the symbols of a file

The first phase makes a symbol for every declaration of a file. Types are not looked at yet.
-/

namespace Weft.Analysis

/-- Report a name that is declared a second time. -/
def unique (span : Span) (m : Symbols (Except AlreadyDefined PUnit)) : Analysis Bool := do
  match ← symbols m with
  | .ok _ => return true
  | .error e =>
    report span (.redefined e)
    return false

/-- The names of parameters. -/
def paramNames (ps : List Tree.Param) : List String := ps.map (·.name)

/-- A new function in a scope of a module. -/
def newFunc (module path : String) (fileLocal : Bool) (d : Tree.FuncDecl) : Func :=
  { Func.bare d.name none (paramNames d.params) with
    path, module, fileLocal, virtual := d.virtual, override := d.override }

/-- Declare a function. -/
def outlineFunc (module : String) (sc : Scope) (d : Tree.FuncDecl) : Analysis (Option Item) := do
  if d.virtual || d.override then report d.span .virtualFunction
  let path := ((← store).space sc.own).path
  let f ← symbols <| Store.addFunc
    { newFunc module path d.fileLocal d with virtual := false, override := false }
  if ← unique d.span (Store.define sc.own (.func f)) then
    return some (.func sc { decl := d, symbol := f, frame := none })
  return none

/-- Declare the methods of a class. -/
def outlineMethods (module path : String) (c : ClassId) : List Tree.FuncDecl → Analysis (List Method)
  | [] => return []
  | d :: rest => do
    if d.fileLocal then report d.span .staticMethod
    let f ← symbols (Store.addFunc (newFunc module path false d))
    let ok ← unique d.span (Store.defineMember c (.func f))
    let more ← outlineMethods module path c rest
    return if ok then { decl := d, symbol := f, frame := none } :: more else more

/-- Declare a class with its fields and methods. -/
def outlineClass (module : String) (sc : Scope) (d : Tree.ClassDecl) : Analysis (Option Item) := do
  let new := Class.bare d.name ((← store).space sc.own).path module d.fileLocal
  let c ← symbols (Store.addClass new)
  if ← unique d.span (Store.define sc.own (.cls c)) then
    d.fields.forM fun f => do
      let field ← symbols <| Store.addField
        { name := f.name, type := none, owner := none, index := -1, native := false }
      let _ ← unique f.span (Store.defineMember c (.field field))
    return some (.cls sc d c (← outlineMethods module new.typeName c d.methods))
  return none

/-- Declare the methods of an interface. -/
def outlineSignatures (module path : String) (i : InterfaceId) :
    List Tree.FuncDecl → Analysis (List Method)
  | [] => return []
  | d :: rest => do
    let f ← symbols <| Store.addFunc
      { newFunc module path false d with virtual := false, override := false }
    let ok ← unique d.span (Store.defineSignature i f)
    let more ← outlineSignatures module path i rest
    return if ok then { decl := d, symbol := f, frame := none } :: more else more

/-- Declare an interface with its methods. -/
def outlineInterface (module : String) (sc : Scope) (d : Tree.InterfaceDecl) :
    Analysis (Option Item) := do
  let new : Interface :=
    { name := d.name, path := ((← store).space sc.own).path, module, bases := [], members := .empty }
  let i ← symbols (Store.addInterface new)
  if ← unique d.span (Store.define sc.own (.iface i)) then
    return some (.iface sc d i (← outlineSignatures module new.typeName i d.methods))
  return none

/-- Declare an enumeration with its items. -/
def outlineEnum (module : String) (sc : Scope) (d : Tree.EnumDecl) : Analysis PUnit := do
  let e ← symbols <| Store.addEnum
    { name := d.name, path := ((← store).space sc.own).path, module, items := .empty }
  if ← unique d.span (Store.define sc.own (.enumeration e)) then
    d.items.forM fun i => do
      match ← symbols (Store.addItem e i.name i.value) with
      | .ok _ => return
      | .error err => report i.span (.redefined err)

/-- Declare a global variable, which needs a type. -/
def outlineGlobal (sc : Scope) (d : Tree.VarDecl) : Analysis (Option Item) := do
  match d.vars with
  | [(name, none)] =>
    report d.span (.globalUntyped name)
    return none
  | [(name, some type)] =>
    let g ← symbols <| Store.addGlobal
      { name, path := ((← store).space sc.own).path, module := "", fileLocal := d.fileLocal,
        type := none, index := -1 }
    if ← unique d.span (Store.define sc.own (.global g)) then return some (.global sc d type g none)
    return none
  | _ =>
    report d.span .globalCount
    return none

/-- The namespace of a dotted name inside another one. -/
def childSpace (span : Span) : NamespaceId → List String → Analysis (Option NamespaceId)
  | n, [] => return some n
  | n, name :: rest => do
    match ← symbols (Store.child n name) with
    | .ok c => childSpace span c rest
    | .error e =>
      report span (.redefined e)
      return none

mutual

/-- Declare the symbols of a declaration in a scope. -/
def outlineDecl (module : String) (sc : Scope) : Tree.Decl → Analysis (List Item)
  | .space span path decls => do
    match ← childSpace span sc.own path with
    | none => return []
    | some n => outlineDecls module (sc.nested n path) decls
  | .func d => return (← outlineFunc module sc d).toList
  | .cls d => return (← outlineClass module sc d).toList
  | .iface d => return (← outlineInterface module sc d).toList
  | .enumeration d => do
    outlineEnum module sc d
    return []
  | .var d => return (← outlineGlobal sc d).toList

/-- Declare the symbols of a list of declarations. -/
def outlineDecls (module : String) (sc : Scope) : List Tree.Decl → Analysis (List Item)
  | [] => return []
  | d :: ds => do
    let items ← outlineDecl module sc d
    return items ++ (← outlineDecls module sc ds)

end

/-- Give the global variables of a list of declarations their indexes in a module. -/
def indexGlobals (m : Module) : List Item → Symbols Module
  | [] => return m
  | .global _ _ _ g _ :: rest => do indexGlobals (← m.addGlobal g) rest
  | _ :: rest => indexGlobals m rest

/-- Declare the symbols of a unit. -/
def outline : OnUnit PUnit := do
  let u ← get
  match u.source with
  | .cached record imports _ =>
    let (result, module) ← u.module.declare record
    modify ({ · with module })
    match result with
    | .ok pending => modify ({ · with source := .cached record imports pending })
    | .error e => complain ("corrupt cached module: " ++ e.message)
  | .fresh tree _ imports =>
    let scope := Scope.file u.module.space
    let items ← attempt scope [] (outlineDecls u.module.name scope tree.decls)
    let module ← indexGlobals u.module items
    modify ({ · with module, source := .fresh tree items imports })

end Weft.Analysis
