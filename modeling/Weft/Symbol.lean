import Weft.Type

/-!
# Symbols and the symbol store

Everything that a program declares is a symbol. Symbols refer to each other in cycles, so they are
entries of one store and name each other by their identities. A table keeps the symbols of a scope in the
order of their declaration.
-/

namespace Weft

/-- A parameter or a local variable. -/
structure LocalVar where
  name : String
  type : Option Ty
  slot : Int
  ref : Bool
deriving Inhabited

/-- An item of an enumeration. -/
structure EnumItem where
  name : String
  value : Int
  owner : EnumId
deriving DecidableEq, Repr, Inhabited

/-- A reference to anything that can be declared in a scope. -/
inductive Sym where
  | builtin (b : Builtin)
  | space (n : NamespaceId)
  | func (f : FuncId)
  | global (g : GlobalId)
  | field (f : FieldId)
  | cls (c : ClassId)
  | iface (i : InterfaceId)
  | enumeration (e : EnumId)
  | item (i : EnumItem)
  | localVar (v : LocalVar)
deriving Inhabited

/-- The symbols of a scope with their names, in the order of their declaration. -/
structure Table where
  entries : List (String × Sym)
deriving Inhabited

namespace Table

/-- A scope without symbols. -/
def empty : Table := ⟨[]⟩

/-- The symbol with a name. -/
def get? (t : Table) (name : String) : Option Sym := t.entries.lookup name

/-- How many symbols a scope has. -/
def size (t : Table) : Nat := t.entries.length

/-- The symbols in the order of their declaration. -/
def symbols (t : Table) : List Sym := t.entries.map Prod.snd

/-- A scope with one more symbol at its end. -/
def push (t : Table) (name : String) (s : Sym) : Table := ⟨t.entries ++ [(name, s)]⟩

end Table

/-- What a method belongs to. The members of builtin collections belong to a builtin type. -/
inductive Owner where
  | cls (c : ClassId)
  | iface (i : InterfaceId)
  | builtin (b : Builtin)
deriving DecidableEq, Repr

/-- A function, a method or a method of an interface. The index is the number of a native function or
the slot of a method. -/
structure Func where
  name : String
  path : String
  module : String
  fileLocal : Bool
  sig : Option Signature
  params : List String
  owner : Option Owner
  virtual : Bool
  override : Bool
  native : Bool
  index : Int
deriving Inhabited

/-- A function that nothing is known of but its name, its type and its parameters. -/
def Func.bare (name : String) (sig : Option Signature) (params : List String) : Func :=
  { name, path := "", module := "", fileLocal := false, sig, params, owner := none, virtual := false,
    override := false, native := false, index := -1 }

/-- A variable of a module. -/
structure Global where
  name : String
  path : String
  module : String
  fileLocal : Bool
  type : Option Ty
  index : Int
deriving Inhabited

/-- A field of a class, or a native property of a builtin collection. -/
structure Field where
  name : String
  type : Option Ty
  owner : Option ClassId
  index : Int
  native : Bool
deriving Inhabited

/-- A named scope of declarations. The linked namespaces are searched after its own members, and only
for symbols that are not local to a file. -/
structure Namespace where
  name : String
  path : String
  module : String
  members : Table
  links : List NamespaceId
deriving Inhabited

/-- A class. Its members are the fields and methods that it declares itself. The layout, once made, holds
the fields and the method slots with those of the superclass first. -/
structure Class where
  name : String
  path : String
  module : String
  fileLocal : Bool
  native : Bool
  super : Option ClassId
  implements : List InterfaceId
  members : Table
  laidOut : Bool
  fields : List FieldId
  methods : List FuncId
deriving Inhabited

/-- A class without bases and members. -/
def Class.bare (name path module : String) (fileLocal : Bool) : Class :=
  { name, path, module, fileLocal, native := false, super := none, implements := [], members := .empty,
    laidOut := false, fields := [], methods := [] }

/-- An interface. -/
structure Interface where
  name : String
  path : String
  module : String
  bases : List InterfaceId
  members : Table
deriving Inhabited

/-- An enumeration. -/
structure Enum where
  name : String
  path : String
  module : String
  items : Table
deriving Inhabited

/-- Every symbol of a project. -/
structure Store where
  spaces : Array Namespace
  funcs : Array Func
  globals : Array Global
  fields : Array Field
  classes : Array Class
  interfaces : Array Interface
  enums : Array Enum
deriving Inhabited

/-- A computation on the symbol store. -/
abbrev Symbols := StateM Store

namespace Store

/-- The store without symbols. -/
def empty : Store := ⟨#[], #[], #[], #[], #[], #[], #[]⟩

/-- The namespace with an identity. -/
def space (s : Store) (n : NamespaceId) : Namespace := s.spaces[n.index]?.getD default

/-- The function with an identity. -/
def func (s : Store) (f : FuncId) : Func := s.funcs[f.index]?.getD default

/-- The global variable with an identity. -/
def global (s : Store) (g : GlobalId) : Global := s.globals[g.index]?.getD default

/-- The field with an identity. -/
def field (s : Store) (f : FieldId) : Field := s.fields[f.index]?.getD default

/-- The class with an identity. -/
def cls (s : Store) (c : ClassId) : Class := s.classes[c.index]?.getD default

/-- The interface with an identity. -/
def iface (s : Store) (i : InterfaceId) : Interface := s.interfaces[i.index]?.getD default

/-- The enumeration with an identity. -/
def enumeration (s : Store) (e : EnumId) : Enum := s.enums[e.index]?.getD default

/-- Add a namespace. -/
def addSpace (n : Namespace) : Symbols NamespaceId :=
  modifyGet fun s => (⟨s.spaces.size⟩, { s with spaces := s.spaces.push n })

/-- Add a function. -/
def addFunc (f : Func) : Symbols FuncId :=
  modifyGet fun s => (⟨s.funcs.size⟩, { s with funcs := s.funcs.push f })

/-- Add a global variable. -/
def addGlobal (g : Global) : Symbols GlobalId :=
  modifyGet fun s => (⟨s.globals.size⟩, { s with globals := s.globals.push g })

/-- Add a field. -/
def addField (f : Field) : Symbols FieldId :=
  modifyGet fun s => (⟨s.fields.size⟩, { s with fields := s.fields.push f })

/-- Add a class. -/
def addClass (c : Class) : Symbols ClassId :=
  modifyGet fun s => (⟨s.classes.size⟩, { s with classes := s.classes.push c })

/-- Add an interface. -/
def addInterface (i : Interface) : Symbols InterfaceId :=
  modifyGet fun s => (⟨s.interfaces.size⟩, { s with interfaces := s.interfaces.push i })

/-- Add an enumeration. -/
def addEnum (e : Enum) : Symbols EnumId :=
  modifyGet fun s => (⟨s.enums.size⟩, { s with enums := s.enums.push e })

/-- Change a namespace. -/
def updateSpace (n : NamespaceId) (f : Namespace → Namespace) : Symbols Unit :=
  modify fun s => { s with spaces := s.spaces.modify n.index f }

/-- Change a function. -/
def updateFunc (i : FuncId) (f : Func → Func) : Symbols Unit :=
  modify fun s => { s with funcs := s.funcs.modify i.index f }

/-- Change a global variable. -/
def updateGlobal (g : GlobalId) (f : Global → Global) : Symbols Unit :=
  modify fun s => { s with globals := s.globals.modify g.index f }

/-- Change a field. -/
def updateField (i : FieldId) (f : Field → Field) : Symbols Unit :=
  modify fun s => { s with fields := s.fields.modify i.index f }

/-- Change a class. -/
def updateClass (c : ClassId) (f : Class → Class) : Symbols Unit :=
  modify fun s => { s with classes := s.classes.modify c.index f }

/-- Change an interface. -/
def updateInterface (i : InterfaceId) (f : Interface → Interface) : Symbols Unit :=
  modify fun s => { s with interfaces := s.interfaces.modify i.index f }

/-- Change an enumeration. -/
def updateEnum (e : EnumId) (f : Enum → Enum) : Symbols Unit :=
  modify fun s => { s with enums := s.enums.modify e.index f }

end Store

/-- A name inside a namespace path. -/
def qualified (path name : String) : String := if path = "" then name else path ++ "." ++ name

/-- The qualified name of a function. -/
def Func.fullName (f : Func) : String := qualified f.path f.name

/-- The position of a parameter, or -1. -/
def Func.paramIndex (f : Func) (name : String) : Int :=
  match f.params.findIdx? (· = name) with
  | some i => i
  | none => -1

/-- The qualified name of a global variable. -/
def Global.fullName (g : Global) : String := qualified g.path g.name

/-- The qualified name of a class. -/
def Class.typeName (c : Class) : String := qualified c.path c.name

/-- The qualified name of an interface. -/
def Interface.typeName (i : Interface) : String := qualified i.path i.name

/-- The qualified name of an enumeration. -/
def Enum.typeName (e : Enum) : String := qualified e.path e.name

namespace Store

/-- The name of a symbol. -/
def nameOf (s : Store) : Sym → String
  | .builtin b => b.name
  | .space n => (s.space n).name
  | .func f => (s.func f).name
  | .global g => (s.global g).name
  | .field f => (s.field f).name
  | .cls c => (s.cls c).name
  | .iface i => (s.iface i).name
  | .enumeration e => (s.enumeration e).name
  | .item i => i.name
  | .localVar v => v.name

/-- Whether a symbol is local to its file. -/
def isFileLocal (s : Store) : Sym → Bool
  | .func f => (s.func f).fileLocal
  | .global g => (s.global g).fileLocal
  | .cls c => (s.cls c).fileLocal
  | _ => false

/-- The module that declared a symbol; symbols that no module declares have none. -/
def moduleOf (s : Store) : Sym → String
  | .space n => (s.space n).module
  | .func f => (s.func f).module
  | .global g => (s.global g).module
  | .cls c => (s.cls c).module
  | .iface i => (s.iface i).module
  | .enumeration e => (s.enumeration e).module
  | _ => ""

/-- The name of what a method belongs to. -/
def ownerName (s : Store) : Owner → String
  | .cls c => (s.cls c).name
  | .iface i => (s.iface i).name
  | .builtin b => b.name

/-- The type that a symbol names. -/
def typeOf? : Sym → Option Ty
  | .builtin b => some (.builtin b)
  | .cls c => some (.cls c)
  | .iface i => some (.iface i)
  | .enumeration e => some (.enumeration e)
  | _ => none

end Store

mutual

/-- The name of a type, written the way a type is. -/
def Ty.typeName (s : Store) : Ty → String
  | .builtin b => b.name
  | .array elem => "[]" ++ elem.typeName s
  | .map key value => "[" ++ key.typeName s ++ "]" ++ value.typeName s
  | .tuple items => ",".intercalate (typeNames s items)
  | .func sig => sig.typeName s
  | .cls c => (s.cls c).typeName
  | .iface i => (s.iface i).typeName
  | .enumeration e => (s.enumeration e).typeName

/-- The name of a signature. -/
def Signature.typeName (s : Store) : Signature → String
  | ⟨returns, params, _, coro⟩ =>
    (if coro then "coro " else "") ++ "func " ++ returns.typeName s ++
      "(" ++ ",".intercalate (paramTypeNames s params) ++ ")"

/-- The names of a list of types. -/
def typeNames (s : Store) : List Ty → List String
  | [] => []
  | t :: ts => t.typeName s :: typeNames s ts

/-- The names of the parameters of a signature. -/
def paramTypeNames (s : Store) : List (Bool × Ty) → List String
  | [] => []
  | (ref, t) :: ps => ((if ref then "ref " else "") ++ t.typeName s) :: paramTypeNames s ps

end

end Weft
