import Weft.Symbol.Scope

/-!
# Builtins, native modules and modules

The registry holds what every program sees without declaring it: the builtin types, the native functions
and the native modules. A module is one file's share of the symbols.
-/

namespace Weft

/-- The builtin namespace, the native modules by import path, and the native functions in the order of
their numbers. -/
structure Registry where
  global : NamespaceId
  modules : List (String × NamespaceId)
  natives : List FuncId
deriving Inhabited

/-- One file's symbols: its root namespace, the modules it imports and its global variables by index. -/
structure Module where
  name : String
  file : String
  space : NamespaceId
  imports : List String
  globals : List (Option GlobalId)
deriving Inhabited

/-- Why a native function was not bound. -/
inductive NativeError where
  | paramCount (name : String) (names params : Nat)
  | alreadyDefined (e : AlreadyDefined)
deriving Inhabited

/-- The text of the problem. -/
def NativeError.message : NativeError → String
  | paramCount name n m => s!"native func {name}: {n} parameter names for {m} parameters"
  | alreadyDefined e => e.message

namespace Registry

/-- A registry of the builtin types alone. -/
def bare : Symbols Registry := do
  let g ← Store.newNamespace "" "" ""
  Builtin.named.forM fun b => do
    let _ ← Store.define g (.builtin b)
  return { global := g, modules := [], natives := [] }

/-- The native module of a path. -/
def lookup? (r : Registry) (path : String) : Option NamespaceId := r.modules.lookup path

/-- The native module of a path, which is made if there is none. -/
def nativeModule (r : Registry) (path : String) : Symbols (NamespaceId × Registry) := do
  match r.lookup? path with
  | some n => return (n, r)
  | none =>
    let n ← Store.newNamespace "" "" path
    return (n, { r with modules := r.modules ++ [(path, n)] })

/-- Bind a native function in a namespace. Native functions are numbered in the order of binding. -/
def defineFunc (r : Registry) (n : NamespaceId) (name : String) (sig : Signature)
    (params : List String) : Symbols (Except NativeError (FuncId × Registry)) := do
  if params.length ≠ sig.params.length then
    return .error (.paramCount name params.length sig.params.length)
  let space := (← get).space n
  let f ← Store.addFunc { Func.bare name (some sig) params with
    native := true, module := space.module, path := space.path, index := r.natives.length }
  match ← Store.define n (.func f) with
  | .ok () => return .ok (f, { r with natives := r.natives ++ [f] })
  | .error e => return .error (.alreadyDefined e)

/-- Bind a native class in a namespace. -/
def defineClass (n : NamespaceId) (c : ClassId) : Symbols (Except AlreadyDefined Unit) := do
  let space := (← get).space n
  Store.updateClass c ({ · with native := true, module := space.module, path := space.path })
  Store.define n (.cls c)

/-- Bind a native function whose name is free. -/
def bind (r : Registry) (n : NamespaceId) (name : String) (sig : Signature) (params : List String) :
    Symbols Registry := do
  match ← r.defineFunc n name sig params with
  | .ok (_, r) => return r
  | .error _ => return r

/-- The standard registry: the functions `trace`, `start` and `wait`, and the module `std/math`. -/
def standard : Symbols Registry := do
  let r ← bare
  let r ← r.bind r.global "trace" (.plain .void [.string]) ["msg"]
  let task : Signature := { Signature.plain .void [] with coro := true }
  let r ← r.bind r.global "start" (.plain .int [.func task]) ["fn"]
  let r ← r.bind r.global "wait" { Signature.plain .void [.float] with coro := true } ["secs"]
  let (math, r) ← r.nativeModule "std/math"
  let r ← r.bind math "Sqrt" (.plain .float [.float]) ["x"]
  let r ← r.bind math "Abs" (.plain .int [.int]) ["x"]
  r.bind math "Random" (.plain .float []) []

end Registry

/-- Whether a symbol is a namespace. -/
def Sym.isSpace : Sym → Bool
  | .space _ => true
  | _ => false

/-- What programs start from: a registry, and the store of its symbols. Its functions are native, and none of its namespaces is
in another one. -/
structure Natives where
  registry : Registry
  store : Store
  native : ∀ f ∈ store.funcs.toList, f.native = true
  flat : ∀ x ∈ store.spaces.toList, ∀ e ∈ x.members.entries, e.2.isSpace = false

/-- The standard registry with its symbols. -/
def Natives.standard : Natives where
  registry := (Registry.standard .empty).1
  store := (Registry.standard .empty).2
  native := by decide +kernel
  flat := by decide +kernel

/-- A member of a builtin collection. -/
inductive NativeMember where
  | property (f : Field)
  | method (f : Func)

/-- A native method of a builtin collection. -/
def NativeMember.call (name : String) (index : Int) (sig : Signature) (param : String) : NativeMember :=
  .method { Func.bare name (some sig) [param] with
    native := true, index, owner := some (.builtin .any) }

/-- A native property of a builtin collection that counts its elements. -/
def NativeMember.count : NativeMember :=
  .property { name := "Count", type := some .int, owner := none, index := 0, native := true }

/-- The member of an array type with a name. -/
def arrayMember? (elem : Ty) : String → Option NativeMember
  | "Count" => some .count
  | "Add" => some (.call "Add" 1 (.plain .void [elem]) "o")
  | "RemoveAt" => some (.call "RemoveAt" 2 (.plain .void [.int]) "idx")
  | "IndexOf" => some (.call "IndexOf" 3 (.plain .int [elem]) "o")
  | _ => none

/-- The member of a map type with a name. -/
def mapMember? (key : Ty) : String → Option NativeMember
  | "Count" => some .count
  | "Contains" => some (.call "Contains" 1 (.plain .bool [key]) "key")
  | "Remove" => some (.call "Remove" 2 (.plain .void [key]) "key")
  | _ => none

namespace Module

/-- A module whose names see the builtins. -/
def new (r : Registry) (name file : String) : Symbols Module := do
  let n ← Store.newNamespace "" "" name
  Store.link n r.global
  return { name, file, space := n, imports := [], globals := [] }

/-- Give a global variable the next index of a module. -/
def addGlobal (m : Module) (g : GlobalId) : Symbols Module := do
  Store.updateGlobal g ({ · with module := m.name, index := m.globals.length })
  return { m with globals := m.globals ++ [some g] }

/-- Import a module by name, unless it is imported. -/
def addImport (m : Module) (name : String) (n : NamespaceId) : Symbols (Bool × Module) := do
  if name ∈ m.imports then return (false, m)
  Store.link m.space n
  return (true, { m with imports := m.imports ++ [name] })

end Module

end Weft
