import Weft.Symbol.Class
import Weft.Symbol.Registry
import Weft.Text.Glyph
import Weft.Text.Quoted

/-!
# Portable records

The declarations of a module in a form that can be stored beside its code, so that a module that has been
compiled before takes part in name lookup again. Named types are stored by qualified name. A record is
read back in two steps: `declare` makes every symbol, and `Pending.settle` fills in the types once all
modules are declared.
-/

namespace Weft

/-- A stored type. `kind` is 0 for a builtin type, 1 for a declared type, 2 for an array, 3 for a map, 4
for a tuple and 5 for a function; `elem` is an array's element or a map's key, `value` a map's value or a
function's result, `items` a tuple's items or a function's parameters. -/
structure TypeRecord where
  kind : Nat
  name : String
  elem : Option TypeRecord
  value : Option TypeRecord
  items : List TypeRecord
  refs : List Bool
  defaults : Int
  coro : Bool
deriving Inhabited

/-- A stored declaration. `kind` is 0 for a namespace, 1 for a function, 2 for a global variable, 3 for a
class, 4 for an interface, 5 for an enumeration, 6 for a field and 7 for an item of an enumeration. The
first base is the superclass if `super` is set. A record that names no parameters is told apart from one
with an empty list of them. -/
structure SymbolRecord where
  kind : Nat
  name : String
  fileLocal : Bool
  type : Option TypeRecord
  params : Option (List String)
  index : Int
  value : Int
  virtual : Bool
  override : Bool
  bases : List TypeRecord
  super : Bool
  members : List SymbolRecord
deriving Inhabited

/-- The stored declarations of a module and the number of its global variables. -/
structure NamespaceRecord where
  members : List SymbolRecord
  globals : Int
deriving Inhabited

mutual

/-- Whether two stored types are equal. -/
def TypeRecord.equals : TypeRecord → TypeRecord → Bool
  | ⟨k, n, e, v, is, rs, d, c⟩, ⟨k', n', e', v', is', rs', d', c'⟩ =>
    k == k' && n == n' && equalOptions e e' && equalOptions v v' && equalLists is is' && rs == rs'
      && d == d' && c == c'

/-- Whether two stored types that may be missing are equal. -/
def equalOptions : Option TypeRecord → Option TypeRecord → Bool
  | none, none => true
  | some a, some b => a.equals b
  | _, _ => false

/-- Whether two lists of stored types are equal. -/
def equalLists : List TypeRecord → List TypeRecord → Bool
  | [], [] => true
  | a :: as, b :: bs => a.equals b && equalLists as bs
  | _, _ => false

end

instance : BEq TypeRecord := ⟨TypeRecord.equals⟩

mutual

/-- Whether two stored declarations are equal. -/
def SymbolRecord.equals : SymbolRecord → SymbolRecord → Bool
  | ⟨k, n, l, t, p, i, v, vi, o, b, s, m⟩, ⟨k', n', l', t', p', i', v', vi', o', b', s', m'⟩ =>
    k == k' && n == n' && l == l' && t == t' && p == p' && i == i' && v == v' && vi == vi' && o == o'
      && b == b' && s == s' && equalMembers m m'

/-- Whether two lists of stored declarations are equal. -/
def equalMembers : List SymbolRecord → List SymbolRecord → Bool
  | [], [] => true
  | a :: as, b :: bs => a.equals b && equalMembers as bs
  | _, _ => false

end

instance : BEq SymbolRecord := ⟨SymbolRecord.equals⟩

deriving instance BEq for NamespaceRecord

namespace TypeRecord

/-- A stored type of a kind with nothing else in it. -/
def bare (kind : Nat) : TypeRecord :=
  { kind, name := "", elem := none, value := none, items := [], refs := [], defaults := 0,
    coro := false }

end TypeRecord

mutual

/-- Store a type. -/
def Ty.record (s : Store) : Ty → TypeRecord
  | .builtin b => { TypeRecord.bare 0 with name := b.name }
  | .array elem => { TypeRecord.bare 2 with elem := some (elem.record s) }
  | .map key value =>
    { TypeRecord.bare 3 with elem := some (key.record s), value := some (value.record s) }
  | .tuple items => { TypeRecord.bare 4 with items := recordTypes s items }
  | .func sig => sig.record s
  | .cls c => { TypeRecord.bare 1 with name := (s.cls c).typeName }
  | .iface i => { TypeRecord.bare 1 with name := (s.iface i).typeName }
  | .enumeration e => { TypeRecord.bare 1 with name := (s.enumeration e).typeName }

/-- Store the type of a function. -/
def Signature.record (s : Store) : Signature → TypeRecord
  | ⟨returns, params, defaults, coro⟩ =>
    { TypeRecord.bare 5 with
      value := some (returns.record s), items := recordParams s params,
      refs := params.map Prod.fst, defaults, coro }

/-- Store a list of types. -/
def recordTypes (s : Store) : List Ty → List TypeRecord
  | [] => []
  | t :: ts => t.record s :: recordTypes s ts

/-- Store the types of parameters. -/
def recordParams (s : Store) : List (Bool × Ty) → List TypeRecord
  | [] => []
  | (_, t) :: ps => t.record s :: recordParams s ps

end

/-- Store a type that may be unknown. -/
def recordType (s : Store) (t : Option Ty) : TypeRecord := (t.getD .void).record s

/-- Why a stored type does not give a type. -/
inductive RecordError where
  | unknownBuiltin (name : String)
  | badKind (kind : Nat)
  | name (e : ResolveError)
  | absent
deriving DecidableEq, Repr

/-- The text of the problem. -/
def RecordError.message : RecordError → String
  | unknownBuiltin n => "unknown builtin type " ++ Text.quote n
  | badKind k => s!"bad type record kind {k}"
  | name e => e.message
  | absent => "missing type record"

/-- Mark the first parameters as references, as many as there are marks. -/
def markRefs : List Ty → List Bool → List (Bool × Ty)
  | [], _ => []
  | t :: ts, [] => (false, t) :: markRefs ts []
  | t :: ts, r :: rs => (r, t) :: markRefs ts rs

mutual

/-- The type that a stored type stands for, with names looked up in a scope. -/
def TypeRecord.resolve (s : Store) (scope : Lookup) : TypeRecord → Except RecordError Ty
  | ⟨kind, name, elem, value, items, refs, defaults, coro⟩ =>
    match kind with
    | 0 =>
      match Builtin.ofName? name with
      | some b => .ok (.builtin b)
      | none => .error (.unknownBuiltin name)
    | 1 => (s.resolveType scope (Text.pieces '.' name)).mapError .name
    | 2 => do return .array (← resolveOption s scope elem)
    | 3 => do return .map (← resolveOption s scope elem) (← resolveOption s scope value)
    | 4 => do return .tuple (← resolveRecords s scope items)
    | 5 => do
      let returns ← resolveOption s scope value
      let params ← resolveRecords s scope items
      return .func { returns, params := markRefs params refs, defaults, coro }
    | k => .error (.badKind k)

/-- The type of a stored type that has to be there. -/
def resolveOption (s : Store) (scope : Lookup) : Option TypeRecord → Except RecordError Ty
  | some r => r.resolve s scope
  | none => .error .absent

/-- The types of a list of stored types. -/
def resolveRecords (s : Store) (scope : Lookup) : List TypeRecord → Except RecordError (List Ty)
  | [] => .ok []
  | r :: rs => do return (← r.resolve s scope) :: (← resolveRecords s scope rs)

end

namespace SymbolRecord

/-- A stored declaration of a kind with a name and nothing else. -/
def bare (kind : Nat) (name : String) : SymbolRecord :=
  { kind, name, fileLocal := false, type := none, params := none, index := 0, value := 0,
    virtual := false, override := false, bases := [], super := false, members := [] }

end SymbolRecord

namespace Store

/-- Store a symbol; symbols that no module declares are left out. Nesting is followed to a depth. -/
def exportDepth (s : Store) : Nat → Sym → Option SymbolRecord
  | 0, _ => none
  | d + 1, sym =>
    let members := fun t : Table => t.symbols.filterMap (exportDepth s d)
    match sym with
    | .space n =>
      let x := s.space n
      some { SymbolRecord.bare 0 x.name with members := members x.members }
    | .func f =>
      let x := s.func f
      some { SymbolRecord.bare 1 x.name with
        fileLocal := x.fileLocal, type := some (recordType s (x.sig.map .func)), params := some x.params,
        index := x.index, virtual := x.virtual, override := x.override }
    | .global g =>
      let x := s.global g
      some { SymbolRecord.bare 2 x.name with
        fileLocal := x.fileLocal, type := some (recordType s x.type), index := x.index }
    | .field f =>
      let x := s.field f
      some { SymbolRecord.bare 6 x.name with type := some (recordType s x.type), index := x.index }
    | .cls c =>
      let x := s.cls c
      some { SymbolRecord.bare 3 x.name with
        fileLocal := x.fileLocal, members := members x.members, super := x.super.isSome,
        bases := (x.super.toList.map fun b => (Ty.cls b).record s) ++
          x.implements.map fun i => (Ty.iface i).record s }
    | .iface i =>
      let x := s.iface i
      some { SymbolRecord.bare 4 x.name with
        members := members x.members, bases := x.bases.map fun b => (Ty.iface b).record s }
    | .enumeration e =>
      let x := s.enumeration e
      some { SymbolRecord.bare 5 x.name with
        members := x.items.symbols.filterMap fun sym =>
          match sym with
          | .item i => some { SymbolRecord.bare 7 i.name with value := i.value }
          | _ => none }
    | _ => none

/-- The declarations of a module as a record. -/
def exportModule (s : Store) (m : Module) : NamespaceRecord :=
  { members := (s.space m.space).members.symbols.filterMap (s.exportDepth (s.spaces.size + 2)),
    globals := m.globals.length }

end Store

/-! ## Reading records back -/

/-- Why the symbols of a record cannot be declared. -/
inductive DeclareError where
  | alreadyDefined (e : AlreadyDefined)
  | globalIndex (name : String) (index : Int)
  | badKind (name : String) (kind : Nat)
deriving Inhabited

/-- The text of the problem. -/
def DeclareError.message : DeclareError → String
  | alreadyDefined e => e.message
  | globalIndex name i => s!"global {name}: index {i} out of range"
  | badKind name k => s!"symbol {name}: unexpected record kind {k}"

/-- A stored type that waits for all modules to be declared, and what it is the type of. -/
inductive Pending where
  | global (g : GlobalId) (type : Option TypeRecord)
  | field (f : FieldId) (type : Option TypeRecord)
  | func (f : FuncId) (type : Option TypeRecord)
  | classBase (c : ClassId) (isSuper : Bool) (type : TypeRecord)
  | interfaceBase (i : InterfaceId) (type : TypeRecord)

/-- What is known while the symbols of a record are declared. -/
structure Declaring where
  store : Store
  module : Module
  pending : List Pending

/-- A computation that declares symbols; what it declared before a failure stays declared. -/
abbrev Declare := ExceptT DeclareError (StateM Declaring)

namespace Declare

/-- Run a computation on the symbol store. -/
def symbols {α : Type} (m : Symbols α) : Declare α :=
  modifyGet fun d => let (a, s) := m d.store; (a, { d with store := s })

/-- Run a declaration that fails if the name is taken. -/
def unique {α : Type} (m : Symbols (Except AlreadyDefined α)) : Declare α := do
  match ← symbols m with
  | .ok a => return a
  | .error e => throw (.alreadyDefined e)

/-- Let a stored type wait. -/
def await (p : Pending) : Declare Unit := modify fun d => { d with pending := d.pending ++ [p] }

/-- Make the function of a record. -/
def func (r : SymbolRecord) (path : String) (fileLocal : Bool) : Declare FuncId := do
  let module := (← get).module.name
  let f ← symbols <| Store.addFunc { Func.bare r.name none (r.params.getD []) with
    index := r.index, virtual := r.virtual, override := r.override, path, module, fileLocal }
  await (.func f r.type)
  return f

/-- Make a member of a class. Records of other kinds are left out. -/
def classMember (c : ClassId) (path : String) (r : SymbolRecord) : Declare Unit := do
  match r.kind with
  | 6 =>
    let f ← symbols <| Store.addField
      { name := r.name, type := none, owner := none, index := r.index, native := false }
    await (.field f r.type)
    unique (Store.defineMember c (.field f))
  | 1 =>
    let f ← func r path false
    unique (Store.defineMember c (.func f))
  | _ => pure ()

/-- The bases of a class wait, the first one as its superclass if the record says so. -/
def classBases (c : ClassId) (super : Bool) : List TypeRecord → Declare Unit
  | [] => pure ()
  | b :: rest => do
    await (.classBase c super b)
    rest.forM fun r => await (.classBase c false r)

/-- Make the global variable of a record. -/
def global (path : String) (r : SymbolRecord) : Declare GlobalId := do
  let m := (← get).module
  if r.index < 0 ∨ (m.globals.length : Int) ≤ r.index then throw (.globalIndex r.name r.index)
  let g ← symbols <| Store.addGlobal
    { name := r.name, path, module := m.name, fileLocal := r.fileLocal, type := none, index := r.index }
  modify fun d => { d with module.globals := d.module.globals.set r.index.toNat (some g) }
  await (.global g r.type)
  return g

/-- Make the class of a record. -/
def cls (path : String) (r : SymbolRecord) : Declare ClassId := do
  let new := Class.bare r.name path (← get).module.name r.fileLocal
  let c ← symbols (Store.addClass new)
  r.members.forM (classMember c new.typeName)
  classBases c r.super r.bases
  return c

/-- Make the interface of a record. -/
def iface (path : String) (r : SymbolRecord) : Declare InterfaceId := do
  let new : Interface :=
    { name := r.name, path, module := (← get).module.name, bases := [], members := .empty }
  let i ← symbols (Store.addInterface new)
  r.members.forM fun m => do
    let f ← func m new.typeName false
    unique (Store.defineSignature i f)
  r.bases.forM fun b => await (.interfaceBase i b)
  return i

/-- Make the enumeration of a record. -/
def enumeration (path : String) (r : SymbolRecord) : Declare EnumId := do
  let e ← symbols <| Store.addEnum
    { name := r.name, path, module := (← get).module.name, items := .empty }
  r.members.forM fun m => do
    let _ ← unique (Store.addItem e m.name m.value)
  return e

/-- Make the symbol of a record that is no namespace. -/
def leaf (path : String) (r : SymbolRecord) : Declare Sym := do
  match r.kind with
  | 1 => return .func (← func r path r.fileLocal)
  | 2 => return .global (← global path r)
  | 3 => return .cls (← cls path r)
  | 4 => return .iface (← iface path r)
  | 5 => return .enumeration (← enumeration path r)
  | k => throw (.badKind r.name k)

mutual

/-- Make the symbol of a record in a namespace; a namespace is filled before it is declared. -/
def symbol (n : NamespaceId) : SymbolRecord → Declare Sym
  | ⟨kind, name, fileLocal, type, params, index, value, virtual, override, bases, super, members⟩ => do
    let path := ((← get).store.space n).path
    if kind = 0 then
      let c ← symbols (Store.newNamespace name (qualified path name) (← get).module.name)
      into c members
      return .space c
    else
      leaf path
        ⟨kind, name, fileLocal, type, params, index, value, virtual, override, bases, super, members⟩

/-- Make and declare the symbols of records in a namespace. -/
def into (n : NamespaceId) : List SymbolRecord → Declare Unit
  | [] => pure ()
  | r :: rs => do
    let sym ← symbol n r
    unique (Store.define n sym)
    into n rs

end

end Declare

/-- Declare the symbols of a record in a module. On success the stored types wait. -/
def Module.declare (m : Module) (rec : NamespaceRecord) :
    Symbols (Except DeclareError (List Pending) × Module) := fun s =>
  let start : Declaring :=
    { store := s, module := { m with globals := List.replicate rec.globals.toNat none }, pending := [] }
  match Declare.into m.space rec.members start with
  | (.ok (), d) => ((.ok d.pending, d.module), d.store)
  | (.error e, d) => ((.error e, d.module), d.store)

namespace Pending

/-- The stored type that waits. -/
def type : Pending → Option TypeRecord
  | global _ t | field _ t | func _ t => t
  | classBase _ _ t | interfaceBase _ t => some t

/-- Give what waits its type. A type of the wrong kind is left out. -/
def assign (p : Pending) (t : Ty) : Symbols Unit :=
  match p, t with
  | global g _, t => Store.updateGlobal g ({ · with type := some t })
  | field f _, t => Store.updateField f ({ · with type := some t })
  | func f _, .func sig => Store.updateFunc f ({ · with sig := some sig })
  | classBase c true _, .cls b => Store.updateClass c ({ · with super := some b })
  | classBase c _ _, .iface i => Store.updateClass c fun x => { x with implements := x.implements ++ [i] }
  | interfaceBase i _, .iface b => Store.updateInterface i fun x => { x with bases := x.bases ++ [b] }
  | _, _ => pure ()

/-- Look up the types that wait in the root namespace of their module and list what was not found. -/
def settle (n : NamespaceId) : List Pending → Symbols (List RecordError)
  | [] => return []
  | p :: rest => do
    let s ← get
    match resolveOption s (s.resolve n) p.type with
    | .ok t =>
      p.assign t
      settle n rest
    | .error e => return e :: (← settle n rest)

end Pending

end Weft
