import Weft.Analysis.Signature
import Weft.Analysis.Unit
import Weft.Symbol.Class

/-!
# The types of declarations

Signatures, the types of fields and global variables, and the bases of classes and interfaces.
-/

namespace Weft.Analysis

/-! ## Signatures and fields -/

/-- Resolve the signature of a function. -/
def typeMethod (m : Method) : Analysis PUnit := do
  let sig ← resolveSignature m.decl.coro m.decl.returns m.decl.params
  symbols (Store.updateFunc m.symbol ({ · with sig := some sig }))

/-- Resolve the type of a field. Types are looked up outside the class, so members never hide them. -/
def typeField (c : ClassId) (f : Tree.FieldDecl) : Analysis PUnit := do
  match ((← store).cls c).members.get? f.name with
  | some (.field id) =>
    let t := (← resolveType false f.type).getD .any
    symbols (Store.updateField id ({ · with type := some t }))
  | _ => return

/-- Resolve the types of a declaration. -/
def typeItem : Item → OnUnit PUnit
  | .func sc m => attempt sc () (typeMethod m)
  | .global sc _ type g _ => attempt sc () do
    let t := (← resolveType false type).getD .any
    symbols (Store.updateGlobal g ({ · with type := some t }))
  | .cls sc d c methods => attempt sc () do
    d.fields.forM (typeField c)
    methods.forM typeMethod
  | .iface sc _ _ methods => attempt sc () (methods.forM typeMethod)

/-! ## Bases -/

/-- Link a class to one of its bases. Only the first one may be a class. -/
def linkClassBase (c : ClassId) (i : Nat) (b : Tree.TypeExpr) : Analysis PUnit := do
  let t ← resolveType false b
  let s ← store
  match t with
  | none => return
  | some (.cls base) =>
    if base = c then report b.span .selfInheritance
    else if i ≠ 0 then report b.span (.superclassNotFirst (s.cls base).typeName)
    else if s.isSubclass base c then
      report b.span (.classCycle (s.cls base).typeName (s.cls c).typeName)
    else symbols (Store.updateClass c ({ · with super := some base }))
  | some (.iface base) =>
    if base ∈ (s.cls c).implements then
      report b.span (.implementedTwice (s.iface base).typeName)
    else
      symbols (Store.updateClass c fun x => { x with implements := x.implements ++ [base] })
  | some t => report b.span (.notInheritable (t.typeName s))

/-- Link an interface to one of its bases. -/
def linkInterfaceBase (i : InterfaceId) (b : Tree.TypeExpr) : Analysis PUnit := do
  let t ← resolveType false b
  let s ← store
  match t with
  | none => return
  | some (.iface base) =>
    if base = i then report b.span .selfInheritance
    else if s.extends? base i then
      report b.span (.interfaceCycle (s.iface base).typeName (s.iface i).typeName)
    else if base ∈ (s.iface i).bases then report b.span (.inheritedTwice (s.iface base).typeName)
    else symbols (Store.updateInterface i fun x => { x with bases := x.bases ++ [base] })
  | some _ => report b.span (.interfaceExtendsOther (s.iface i).typeName)

/-- Link a declaration to its bases. -/
def linkItem : Item → OnUnit PUnit
  | .cls sc d c _ => attempt sc () (d.bases.zipIdx.forM fun (b, i) => linkClassBase c i b)
  | .iface sc d i _ => attempt sc () (d.bases.forM (linkInterfaceBase i))
  | .func .. | .global .. => return

/-! ## Classes -/

/-- Check a method of a class against the member of the superclass that it would override. -/
def checkOverride (base : ClassId) (m : Method) : Analysis PUnit := do
  let s ← store
  let own := s.func m.symbol
  let span := m.decl.span
  match s.classMember? base own.name with
  | some (.func b) =>
    let overridden := s.func b
    if !own.override then report span (.hidesMethod own.name)
    else if !overridden.virtual && !overridden.override then report span (.baseNotVirtual own.name)
    else if !sameSignature s overridden.sig own.sig then
      report span (.overrideDiffers own.name (overridden.signatureName s) (own.signatureName s))
  | some _ => report span (.hidesField own.name)
  | none => if own.override then report span (.overridesNothing own.name)

/-- Check a class whose bases are linked, and lay it out. -/
def checkClass (d : Tree.ClassDecl) (c : ClassId) (methods : List Method) : Analysis PUnit := do
  let s ← store
  match (s.cls c).super with
  | some base =>
    methods.forM (checkOverride base)
    d.fields.forM fun f => do
      match s.classMember? base f.name with
      | some (.field _) => report f.span (.fieldInherited f.name)
      | _ => return
  | none =>
    methods.forM fun m => do
      if (s.func m.symbol).override then report m.decl.span (.overridesNothing m.decl.name)
  symbols (Store.layout c)
  ((← store).conformance c).forM fun e => report d.span (.conformance e)

end Weft.Analysis
