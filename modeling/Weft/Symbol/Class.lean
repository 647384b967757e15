import Weft.Symbol.Scope

/-!
# Classes and interfaces

Inheritance: the chain of superclasses of a class, the interfaces that an interface extends, members found
along them, and the layout that gives every field and method its slot.
-/

namespace Weft

namespace Store

/-- A class and its superclasses, nearest first, for at most a number of steps. -/
def chainOf (s : Store) : Nat → ClassId → List ClassId
  | 0, _ => []
  | n + 1, c => c :: match (s.cls c).super with
    | some b => chainOf s n b
    | none => []

/-- A class and its superclasses, nearest first. On a cycle the list comes back to a class and ends. -/
def lineage (s : Store) (c : ClassId) : List ClassId := s.chainOf (s.classes.size + 1) c

/-- Whether the superclasses of a class come back to a class. -/
def hasCycle (s : Store) (c : ClassId) : Bool := decide ¬ (s.lineage c).Nodup

/-- A member of a class or of the nearest superclass that has it. -/
def classMember? (s : Store) (c : ClassId) (name : String) : Option Sym :=
  (s.lineage c).findSome? fun b => (s.cls b).members.get? name

/-- Whether a class is another one or inherits from it. -/
def isSubclass (s : Store) (c other : ClassId) : Bool := other ∈ s.lineage c

/-- Add an interface and those it extends to a list, each before its bases and none twice; the nesting
is followed to a depth. -/
def visit (s : Store) : Nat → List InterfaceId → InterfaceId → List InterfaceId
  | 0, seen, _ => seen
  | n + 1, seen, i =>
    if i ∈ seen then seen else (s.iface i).bases.foldl (visit s n) (seen ++ [i])

/-- An interface and those it extends, each before its bases. -/
def extended (s : Store) (i : InterfaceId) : List InterfaceId := s.visit (s.interfaces.size + 1) [] i

/-- A method of an interface or of the first one in order that has it. -/
def interfaceMember? (s : Store) (i : InterfaceId) (name : String) : Option Sym :=
  (s.extended i).findSome? fun b => (s.iface b).members.get? name

/-- Whether an interface is another one or extends it. -/
def extends? (s : Store) (i other : InterfaceId) : Bool := other ∈ s.extended i

/-- Whether a class or one of its superclasses implements an interface or one that extends it. -/
def implementing (s : Store) (c : ClassId) (i : InterfaceId) : Bool :=
  (s.lineage c).any fun b => (s.cls b).implements.any fun j => s.extends? j i

/-- The methods that an interface asks for, its own first; of several with one name, the first. -/
def allMethods (s : Store) (i : InterfaceId) : List FuncId :=
  let all := (s.extended i).flatMap fun b => (s.iface b).members.symbols.filterMap fun sym =>
    match sym with
    | .func f => some f
    | _ => none
  all.foldl (fun kept f =>
    if kept.any fun g => (s.func g).name = (s.func f).name then kept else kept ++ [f]) []

/-- Declare a field or a method of a class. The layout has to be made again. -/
def defineMember (c : ClassId) (sym : Sym) : Symbols (Except AlreadyDefined Unit) := do
  match sym with
  | .field f => updateField f ({ · with owner := some c })
  | .func f => updateFunc f ({ · with owner := some (.cls c) })
  | _ => pure ()
  updateClass c ({ · with laidOut := false })
  let s ← get
  match (s.cls c).members.define (s.nameOf sym) sym with
  | .ok t =>
    updateClass c ({ · with members := t })
    return .ok ()
  | .error e => return .error e

/-- Declare a method of an interface. Its slot is its position. -/
def defineSignature (i : InterfaceId) (f : FuncId) : Symbols (Except AlreadyDefined Unit) := do
  let size := ((← get).iface i).members.size
  updateFunc f ({ · with owner := some (.iface i), index := size })
  let s ← get
  match (s.iface i).members.define (s.func f).name (.func f) with
  | .ok t =>
    updateInterface i ({ · with members := t })
    return .ok ()
  | .error e => return .error e

/-- Declare an item of an enumeration. -/
def addItem (e : EnumId) (name : String) (value : Int) : Symbols (Except AlreadyDefined EnumItem) := do
  let item : EnumItem := { name, value, owner := e }
  match ((← get).enumeration e).items.define name (.item item) with
  | .ok t =>
    updateEnum e ({ · with items := t })
    return .ok item
  | .error err => return .error err

/-- The method that a method of a class would override. -/
def inheritedMethod? (s : Store) (c : ClassId) (name : String) : Option FuncId := do
  let b ← (s.cls c).super
  if s.hasCycle b then none else
  match s.classMember? b name with
  | some (.func f) => some f
  | _ => none

/-- Give a member of a class its slot: a field the next one, a method that of the method it overrides or
the next one. -/
def layoutMember (c : ClassId) (sym : Sym) : Symbols Unit := do
  let s ← get
  let cls := s.cls c
  match sym with
  | .field f =>
    updateField f ({ · with index := cls.fields.length })
    updateClass c ({ · with fields := cls.fields ++ [f] })
  | .func f =>
    match s.inheritedMethod? c (s.func f).name with
    | some base =>
      let slot := (s.func base).index
      updateFunc f ({ · with index := slot })
      updateClass c ({ · with methods := cls.methods.set slot.toNat f })
    | none =>
      updateFunc f ({ · with index := cls.methods.length })
      updateClass c ({ · with methods := cls.methods ++ [f] })
  | _ => pure ()

/-- Lay out a class after its superclass, along a chain of at most a number of classes. -/
def layoutChain : Nat → ClassId → Symbols Unit
  | 0, _ => pure ()
  | n + 1, c => do
    let s ← get
    if (s.cls c).laidOut then return
    updateClass c ({ · with laidOut := true, fields := [], methods := [] })
    match (s.cls c).super with
    | some b =>
      if !(← get).hasCycle b then
        layoutChain n b
        let base := (← get).cls b
        updateClass c ({ · with fields := base.fields, methods := base.methods })
    | none => pure ()
    ((← get).cls c).members.symbols.forM (layoutMember c)

/-- Lay out a class, unless its layout is made. -/
def layout (c : ClassId) : Symbols Unit := do layoutChain ((← get).classes.size + 1) c

/-- The fields of a class, inherited ones first. -/
def fieldsOf (c : ClassId) : Symbols (List FieldId) := do
  layout c
  return ((← get).cls c).fields

/-- The methods of a class by slot. -/
def methodsOf (c : ClassId) : Symbols (List FuncId) := do
  layout c
  return ((← get).cls c).methods

end Store

end Weft
