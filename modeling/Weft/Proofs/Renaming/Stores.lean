import Weft.Proofs.Symbol.Growth

/-!
# Other identities for the symbols

The identity of a symbol says only when it was declared. A renaming gives every symbol another identity, and replaces
the old ones wherever a type, a symbol or a scope refers to them.
-/

namespace Weft

/-- Other identities for the symbols of a store, no two of one kind the same. -/
structure Renaming where
  space : NamespaceId ↪ NamespaceId
  func : FuncId ↪ FuncId
  global : GlobalId ↪ GlobalId
  field : FieldId ↪ FieldId
  cls : ClassId ↪ ClassId
  iface : InterfaceId ↪ InterfaceId
  enumeration : EnumId ↪ EnumId

variable (σ : Renaming)

/-! ## Types -/

mutual

/-- A type with other identities. -/
def Ty.rename : Ty → Ty
  | .builtin b => .builtin b
  | .array elem => .array elem.rename
  | .map key value => .map key.rename value.rename
  | .tuple items => .tuple (renameTypes items)
  | .func sig => .func sig.rename
  | .cls c => .cls (σ.cls c)
  | .iface i => .iface (σ.iface i)
  | .enumeration e => .enumeration (σ.enumeration e)

/-- A signature with other identities. -/
def Signature.rename : Signature → Signature
  | ⟨returns, params, defaults, coro⟩ => ⟨returns.rename, renameParams params, defaults, coro⟩

/-- Types with other identities. -/
def renameTypes : List Ty → List Ty
  | [] => []
  | t :: ts => t.rename :: renameTypes ts

/-- Parameters with other identities. -/
def renameParams : List (Bool × Ty) → List (Bool × Ty)
  | [] => []
  | (ref, t) :: ps => (ref, t.rename) :: renameParams ps

end

theorem renameTypes_eq_map (ts : List Ty) : renameTypes σ ts = ts.map (Ty.rename σ) := by
  induction ts with
  | nil => rfl
  | cons t ts ih => rw [renameTypes, List.map_cons, ih]

theorem renameParams_eq_map (ps : List (Bool × Ty)) : renameParams σ ps = ps.map fun p => (p.1, p.2.rename σ) := by
  induction ps with
  | nil => rfl
  | cons p ps ih => rw [renameParams, List.map_cons, ih]

namespace Ty

@[simp] theorem rename_builtin (b : Builtin) : (Ty.builtin b).rename σ = .builtin b := rfl

@[simp] theorem rename_array (t : Ty) : (Ty.array t).rename σ = .array (t.rename σ) := rfl

@[simp] theorem rename_map (k v : Ty) : (Ty.map k v).rename σ = .map (k.rename σ) (v.rename σ) := rfl

@[simp] theorem rename_tuple (ts : List Ty) : (Ty.tuple ts).rename σ = .tuple (ts.map (rename σ)) := by
  rw [rename, renameTypes_eq_map]

@[simp] theorem rename_func (sig : Signature) : (Ty.func sig).rename σ = .func (sig.rename σ) := rfl

@[simp] theorem rename_cls (c : ClassId) : (Ty.cls c).rename σ = .cls (σ.cls c) := rfl

@[simp] theorem rename_iface (i : InterfaceId) : (Ty.iface i).rename σ = .iface (σ.iface i) := rfl

@[simp] theorem rename_enumeration (e : EnumId) : (Ty.enumeration e).rename σ = .enumeration (σ.enumeration e) := rfl

@[simp] theorem is_rename (b : Builtin) (t : Ty) : (t.rename σ).is b = t.is b := by cases t <;> simp [is]

@[simp] theorem isNumeric_rename (t : Ty) : (t.rename σ).isNumeric = t.isNumeric := by simp [isNumeric]

@[simp] theorem isEnum_rename (t : Ty) : (t.rename σ).isEnum = t.isEnum := by cases t <;> simp [isEnum]

@[simp] theorem isReference_rename (t : Ty) : (t.rename σ).isReference = t.isReference := by
  cases t <;> simp [isReference]

@[simp] theorem valueCount_rename (t : Ty) : (t.rename σ).valueCount = t.valueCount := by
  cases t with
  | builtin b => cases b <;> simp [valueCount]
  | _ => simp [valueCount]

end Ty

namespace Signature

variable (sig : Signature)

theorem rename_eq : sig.rename σ =
    ⟨sig.returns.rename σ, sig.params.map fun p => (p.1, p.2.rename σ), sig.defaults, sig.coro⟩ := by
  obtain ⟨returns, params, defaults, coro⟩ := sig
  rw [rename, renameParams_eq_map]

@[simp] theorem rename_returns : (sig.rename σ).returns = sig.returns.rename σ := by rw [rename_eq]

@[simp] theorem rename_params : (sig.rename σ).params = sig.params.map fun p => (p.1, p.2.rename σ) := by
  rw [rename_eq]

@[simp] theorem rename_defaults : (sig.rename σ).defaults = sig.defaults := by rw [rename_eq]

@[simp] theorem rename_coro : (sig.rename σ).coro = sig.coro := by rw [rename_eq]

@[simp] theorem required_rename : (sig.rename σ).required = sig.required := by simp [required]

@[simp] theorem rename_default : (default : Signature).rename σ = default := by
  rw [rename_eq]
  exact congrArg₂ (fun t ps => (⟨t, ps, 0, false⟩ : Signature)) (Ty.rename_builtin σ .void) rfl

end Signature

/-! ## Symbols -/

/-- A variable with other identities in its type. -/
def LocalVar.rename (v : LocalVar) : LocalVar := { v with type := v.type.map (Ty.rename σ) }

/-- An item of an enumeration with another identity. -/
def EnumItem.rename (i : EnumItem) : EnumItem := { i with owner := σ.enumeration i.owner }

/-- A symbol with another identity. -/
def Sym.rename : Sym → Sym
  | .builtin b => .builtin b
  | .space n => .space (σ.space n)
  | .func f => .func (σ.func f)
  | .global g => .global (σ.global g)
  | .field f => .field (σ.field f)
  | .cls c => .cls (σ.cls c)
  | .iface i => .iface (σ.iface i)
  | .enumeration e => .enumeration (σ.enumeration e)
  | .item i => .item (i.rename σ)
  | .localVar v => .localVar (v.rename σ)

/-- The symbols of a scope with other identities. -/
def Table.rename (t : Table) : Table := ⟨t.entries.map fun e => (e.1, e.2.rename σ)⟩

/-- What a method belongs to, with another identity. -/
def Owner.rename : Owner → Owner
  | .cls c => .cls (σ.cls c)
  | .iface i => .iface (σ.iface i)
  | .builtin b => .builtin b

/-- A function with other identities. -/
def Func.rename (f : Func) : Func :=
  { f with sig := f.sig.map (Signature.rename σ), owner := f.owner.map (Owner.rename σ) }

/-- A global variable with other identities. -/
def Global.rename (g : Global) : Global := { g with type := g.type.map (Ty.rename σ) }

/-- A field with other identities. -/
def Field.rename (f : Field) : Field :=
  { f with type := f.type.map (Ty.rename σ), owner := f.owner.map σ.cls }

/-- A namespace with other identities. -/
def Namespace.rename (n : Namespace) : Namespace :=
  { n with members := n.members.rename σ, links := n.links.map σ.space }

/-- A class with other identities. -/
def Class.rename (c : Class) : Class :=
  { c with super := c.super.map σ.cls, implements := c.implements.map σ.iface, members := c.members.rename σ,
           fields := c.fields.map σ.field, methods := c.methods.map σ.func }

/-- An interface with other identities. -/
def Interface.rename (i : Interface) : Interface :=
  { i with bases := i.bases.map σ.iface, members := i.members.rename σ }

/-- An enumeration with other identities. -/
def Enum.rename (e : Enum) : Enum := { e with items := e.items.rename σ }

/-- A view with other identities. -/
def View.rename (v : View) : View := { v with members := v.members.rename σ, links := v.links.map σ.space }

/-- What a lookup finds, with other identities. -/
def Found.rename : Found → Found
  | .sym a => .sym (a.rename σ)
  | .view v => .view (v.rename σ)

/-! ## Scopes -/

namespace Table

@[simp] theorem rename_empty : Table.empty.rename σ = .empty := rfl

/-- A name is found under a renaming as it is found without. -/
@[simp] theorem get?_rename (t : Table) (name : String) : (t.rename σ).get? name = (t.get? name).map (Sym.rename σ) := by
  obtain ⟨entries⟩ := t
  simp only [get?, rename]
  induction entries with
  | nil => rfl
  | cons e es ih =>
    rw [List.map_cons, List.lookup_cons, List.lookup_cons, ih]
    cases name == e.1 <;> rfl

@[simp] theorem symbols_rename (t : Table) : (t.rename σ).symbols = t.symbols.map (Sym.rename σ) := by
  simp [symbols, rename]

@[simp] theorem size_rename (t : Table) : (t.rename σ).size = t.size := by simp [size, rename]

end Table

@[simp] theorem Namespace.view_rename (n : Namespace) : (n.rename σ).view = n.view.rename σ := rfl

theorem linkOnce_rename (links : List NamespaceId) (n : NamespaceId) :
    linkOnce (links.map σ.space) (σ.space n) = (linkOnce links n).map σ.space := by
  simp only [linkOnce, List.mem_map_of_injective σ.space.injective]
  split <;> simp

theorem foldl_linkOnce_rename (ns links : List NamespaceId) :
    (ns.map σ.space).foldl linkOnce (links.map σ.space) = (ns.foldl linkOnce links).map σ.space := by
  induction ns generalizing links with
  | nil => rfl
  | cons n ns ih => rw [List.map_cons, List.foldl_cons, List.foldl_cons, linkOnce_rename, ih]

end Weft

/-!
## Stores of renamed symbols

Two stores that say the same of a symbol under its old and its new identity answer every question alike: what a name
leads to, what a type is called, and where one type can stand for another.
-/

namespace Weft

/-- The second store says of renamed symbols what the first says of the symbols, but for types, bases and layouts. -/
structure Store.Named (σ : Renaming) (s s' : Store) : Prop where
  space : ∀ n, s'.space (σ.space n) = (s.space n).rename σ
  enumeration : ∀ e, s'.enumeration (σ.enumeration e) = (s.enumeration e).rename σ
  func : ∀ f, ∃ sig index, s'.func (σ.func f) = { (s.func f).rename σ with sig, index }
  global : ∀ g, ∃ type, s'.global (σ.global g) = { (s.global g).rename σ with type }
  field : ∀ f, ∃ type index, s'.field (σ.field f) = { (s.field f).rename σ with type, index }
  cls : ∀ c, ∃ super implements laidOut fields methods,
    s'.cls (σ.cls c) = { (s.cls c).rename σ with super, implements, laidOut, fields, methods }
  iface : ∀ i, ∃ bases, s'.iface (σ.iface i) = { (s.iface i).rename σ with bases }

/-- The namespaces that enclose a declaration, with other identities. -/
def Analysis.Scope.rename (σ : Renaming) (sc : Analysis.Scope) : Analysis.Scope :=
  ⟨σ.space sc.root, sc.levels.map fun l => (l.1, σ.space l.2)⟩

namespace Store.Named

variable {σ : Renaming} {s s' : Store} {name : String}

/-! ## Names -/

theorem isFileLocal (h : s.Named σ s') (a : Sym) : s'.isFileLocal (a.rename σ) = s.isFileLocal a := by
  cases a with
  | func f =>
    obtain ⟨_, _, hf⟩ := h.func f
    simp [Sym.rename, Store.isFileLocal, hf, Func.rename]
  | global g =>
    obtain ⟨_, hg⟩ := h.global g
    simp [Sym.rename, Store.isFileLocal, hg, Global.rename]
  | cls c =>
    obtain ⟨_, _, _, _, _, hc⟩ := h.cls c
    simp [Sym.rename, Store.isFileLocal, hc, Class.rename]
  | _ => rfl

theorem nameOf (h : s.Named σ s') (a : Sym) : s'.nameOf (a.rename σ) = s.nameOf a := by
  cases a with
  | space n => simp [Sym.rename, Store.nameOf, h.space, Namespace.rename]
  | func f =>
    obtain ⟨_, _, hf⟩ := h.func f
    simp [Sym.rename, Store.nameOf, hf, Func.rename]
  | global g =>
    obtain ⟨_, hg⟩ := h.global g
    simp [Sym.rename, Store.nameOf, hg, Global.rename]
  | field f =>
    obtain ⟨_, _, hf⟩ := h.field f
    simp [Sym.rename, Store.nameOf, hf, Field.rename]
  | cls c =>
    obtain ⟨_, _, _, _, _, hc⟩ := h.cls c
    simp [Sym.rename, Store.nameOf, hc, Class.rename]
  | iface i =>
    obtain ⟨_, hi⟩ := h.iface i
    simp [Sym.rename, Store.nameOf, hi, Interface.rename]
  | enumeration e => simp [Sym.rename, Store.nameOf, h.enumeration, Enum.rename]
  | _ => rfl

theorem cls_typeName (h : s.Named σ s') (c : ClassId) : (s'.cls (σ.cls c)).typeName = (s.cls c).typeName := by
  obtain ⟨_, _, _, _, _, hc⟩ := h.cls c
  rw [hc]
  rfl

theorem iface_typeName (h : s.Named σ s') (i : InterfaceId) :
    (s'.iface (σ.iface i)).typeName = (s.iface i).typeName := by
  obtain ⟨_, hi⟩ := h.iface i
  rw [hi]
  rfl

theorem enumeration_typeName (h : s.Named σ s') (e : EnumId) :
    (s'.enumeration (σ.enumeration e)).typeName = (s.enumeration e).typeName := by
  rw [h.enumeration]
  rfl

theorem cls_members (h : s.Named σ s') (c : ClassId) : (s'.cls (σ.cls c)).members = (s.cls c).members.rename σ := by
  obtain ⟨_, _, _, _, _, hc⟩ := h.cls c
  rw [hc]
  rfl

theorem iface_members (h : s.Named σ s') (i : InterfaceId) :
    (s'.iface (σ.iface i)).members = (s.iface i).members.rename σ := by
  obtain ⟨_, hi⟩ := h.iface i
  rw [hi]
  rfl

/-! ## Lookups -/

theorem exported? (h : s.Named σ s') (n : NamespaceId) (name : String) :
    s'.exported? (σ.space n) name = (s.exported? n name).map (Sym.rename σ) := by
  unfold Store.exported?
  simp only [h.space, Namespace.rename, Table.get?_rename]
  cases (s.space n).members.get? name with
  | none => rfl
  | some a =>
    simp only [Option.map_some, h.isFileLocal]
    split <;> rfl

theorem linked (h : s.Named σ s') (own : Bool) (found links : List NamespaceId) :
    s'.linked name own (found.map σ.space) (links.map σ.space) =
      Sum.map (Sym.rename σ) (List.map σ.space) (s.linked name own found links) := by
  induction links generalizing found with
  | nil => rfl
  | cons l rest ih =>
    rw [List.map_cons]
    unfold Store.linked
    rw [h.exported?]
    cases s.exported? l name with
    | none => exact ih found
    | some a =>
      cases a with
      | space n =>
        have hmore := ih (found ++ [n])
        rw [List.map_append] at hmore
        exact hmore
      | _ =>
        simp only [Option.map_some, Sym.rename, List.isEmpty_map]
        split
        · rfl
        · exact ih found

theorem resolveIn (h : s.Named σ s') (v : View) (name : String) :
    s'.resolveIn (v.rename σ) name = (s.resolveIn v name).map (Found.rename σ) := by
  have hlinked : ∀ own, s'.linked name own [] (v.links.map σ.space) = _ := fun own => h.linked own [] v.links
  have hunion : ∀ ns : List NamespaceId, (ns.map σ.space).foldl linkOnce [] = (ns.foldl linkOnce []).map σ.space :=
    fun ns => foldl_linkOnce_rename σ ns []
  unfold Store.resolveIn
  simp only [View.rename, Table.get?_rename, hlinked]
  cases v.members.get? name with
  | none =>
    simp only [Option.map_none]
    cases s.linked name false [] v.links with
    | inl a => rfl
    | inr ns =>
      match ns with
      | [] => rfl
      | [n] => rfl
      | n :: m :: more =>
        have hns := hunion (n :: m :: more)
        simp only [List.map_cons] at hns
        simp [Sum.map, hns, h.space, Found.rename, View.rename, Namespace.rename]
  | some a =>
    cases a with
    | space own =>
      simp only [Option.map_some, Sym.rename]
      cases s.linked name true [] v.links with
      | inl a => rfl
      | inr ns =>
        cases ns with
        | nil => rfl
        | cons n more =>
          have hns := hunion (n :: more)
          simp only [List.map_cons] at hns
          simp [Sum.map, hns, h.space, Found.rename, View.rename, Namespace.rename]
    | _ => rfl

theorem resolve (h : s.Named σ s') (n : NamespaceId) (name : String) :
    s'.resolve (σ.space n) name = (s.resolve n name).map (Found.rename σ) := by
  rw [Store.resolve, Store.resolve, h.space, Namespace.view_rename, h.resolveIn]

theorem viewOf? (h : s.Named σ s') (f : Found) : s'.viewOf? (f.rename σ) = (s.viewOf? f).map (View.rename σ) := by
  cases f with
  | view v => rfl
  | sym a =>
    cases a with
    | space n =>
      change some (s'.space (σ.space n)).view = some ((s.space n).view.rename σ)
      rw [h.space, Namespace.view_rename]
    | _ => rfl

theorem followPath (h : s.Named σ s') {whole done path : List String} {f : Found} :
    s'.followPath whole (f.rename σ) done path = (s.followPath whole f done path).map (Found.rename σ) := by
  induction path generalizing f done with
  | nil => rfl
  | cons name rest ih =>
    unfold Store.followPath
    rw [h.viewOf?]
    cases s.viewOf? f with
    | none => rfl
    | some v =>
      simp only [Option.map_some, h.resolveIn]
      cases s.resolveIn v name with
      | none => rfl
      | some g => exact ih

variable {scope scope' : Lookup}

theorem resolvePath (h : s.Named σ s') (hscope : ∀ name, scope' name = (scope name).map (Found.rename σ))
    (path : List String) : s'.resolvePath scope' path = (s.resolvePath scope path).map (Found.rename σ) := by
  cases path with
  | nil => rfl
  | cons first rest =>
    rw [Store.resolvePath, Store.resolvePath, hscope]
    cases scope first with
    | none => rfl
    | some f => exact h.followPath

/-- A type is found under a renaming as it is found without. -/
theorem resolveType (h : s.Named σ s') (hscope : ∀ name, scope' name = (scope name).map (Found.rename σ))
    (path : List String) : s'.resolveType scope' path = (s.resolveType scope path).map (Ty.rename σ) := by
  unfold Store.resolveType
  rw [h.resolvePath hscope]
  cases s.resolvePath scope path with
  | error e => rfl
  | ok f =>
    cases f with
    | view v => rfl
    | sym a =>
      cases a with
      | builtin b => cases b <;> rfl
      | cls c => exact congrArg Except.ok (Ty.rename_cls σ c).symm
      | iface i => exact congrArg Except.ok (Ty.rename_iface σ i).symm
      | enumeration e => exact congrArg Except.ok (Ty.rename_enumeration σ e).symm
      | _ => rfl

theorem view (h : s.Named σ s') (sc : Analysis.Scope) (path : List String) (own : NamespaceId) :
    (sc.rename σ).view s' path (σ.space own) = (sc.view s path own).rename σ := by
  have hpath : s'.resolvePath (s'.resolve (sc.rename σ).root) path = _ := h.resolvePath (h.resolve sc.root) path
  unfold Analysis.Scope.view
  rw [hpath]
  cases s.resolvePath (s.resolve sc.root) path with
  | error e =>
    simp only [Except.map, h.space]
    rfl
  | ok f =>
    simp only [Except.map, h.viewOf?, h.space]
    cases s.viewOf? f <;> rfl

theorem innermost (h : s.Named σ s') (sc : Analysis.Scope) (name : String) (levels : List (List String × NamespaceId)) :
    (levels.map fun l => (l.1, σ.space l.2)).findSome?
        (fun (path, own) => s'.resolveIn ((sc.rename σ).view s' path own) name) =
      (levels.findSome? fun (path, own) => s.resolveIn (sc.view s path own) name).map (Found.rename σ) := by
  induction levels with
  | nil => rfl
  | cons l levels ih =>
    simp only [List.map_cons, List.findSome?_cons, h.view, h.resolveIn]
    cases s.resolveIn (sc.view s l.1 l.2) name with
    | none => exact ih
    | some f => rfl

/-- A name is found in a scope under a renaming as it is found without. -/
theorem lookup (h : s.Named σ s') (sc : Analysis.Scope) (name : String) :
    (sc.rename σ).lookup s' name = (sc.lookup s name).map (Found.rename σ) := by
  have hfound := h.innermost sc name sc.levels
  have hroot := h.resolve sc.root name
  unfold Analysis.Scope.lookup
  rw [show (sc.rename σ).levels = sc.levels.map fun l => (l.1, σ.space l.2) from rfl, hfound,
    show (sc.rename σ).root = σ.space sc.root from rfl, hroot]
  generalize sc.levels.findSome? _ = found
  cases found <;> rfl

end Store.Named

/-! ## Names of types -/

section Names

variable {σ : Renaming} {s s' : Store}

mutual

theorem Ty.typeName_rename (h : s.Named σ s') : (t : Ty) → (t.rename σ).typeName s' = t.typeName s
  | .builtin b => by rw [Ty.rename_builtin, Ty.typeName, Ty.typeName]
  | .array elem => by rw [Ty.rename_array, Ty.typeName, Ty.typeName, Ty.typeName_rename h elem]
  | .map key value => by
    rw [Ty.rename_map, Ty.typeName, Ty.typeName, Ty.typeName_rename h key, Ty.typeName_rename h value]
  | .tuple items => by rw [Ty.rename, Ty.typeName, Ty.typeName, typeNames_rename h items]
  | .func sig => by rw [Ty.rename_func, Ty.typeName, Ty.typeName, Signature.typeName_rename h sig]
  | .cls c => by rw [Ty.rename_cls, Ty.typeName, Ty.typeName, h.cls_typeName]
  | .iface i => by rw [Ty.rename_iface, Ty.typeName, Ty.typeName, h.iface_typeName]
  | .enumeration e => by rw [Ty.rename_enumeration, Ty.typeName, Ty.typeName, h.enumeration_typeName]

theorem Signature.typeName_rename (h : s.Named σ s') : (sig : Signature) → (sig.rename σ).typeName s' = sig.typeName s
  | ⟨returns, params, _, _⟩ => by
    rw [Signature.rename, Signature.typeName, Signature.typeName, Ty.typeName_rename h returns,
      paramTypeNames_rename h params]

theorem typeNames_rename (h : s.Named σ s') : (ts : List Ty) → typeNames s' (renameTypes σ ts) = typeNames s ts
  | [] => rfl
  | t :: ts => by rw [renameTypes, typeNames, typeNames, Ty.typeName_rename h t, typeNames_rename h ts]

theorem paramTypeNames_rename (h : s.Named σ s') : (ps : List (Bool × Ty)) →
    paramTypeNames s' (renameParams σ ps) = paramTypeNames s ps
  | [] => rfl
  | (_, t) :: ps => by
    rw [renameParams, paramTypeNames, paramTypeNames, Ty.typeName_rename h t, paramTypeNames_rename h ps]

end

theorem typeNameOr_rename (h : s.Named σ s') (t : Option Ty) :
    typeNameOr s' (t.map (Ty.rename σ)) = typeNameOr s t := by
  cases t with
  | none => rfl
  | some t => simp [typeNameOr, Ty.typeName_rename h]

end Names

/-! ## Stored types -/

section Records

variable {σ : Renaming} {s s' : Store}

mutual

theorem Ty.record_rename (h : s.Named σ s') : (t : Ty) → (t.rename σ).record s' = t.record s
  | .builtin b => by rw [Ty.rename_builtin, Ty.record, Ty.record]
  | .array elem => by rw [Ty.rename_array, Ty.record, Ty.record, Ty.record_rename h elem]
  | .map key value => by
    rw [Ty.rename_map, Ty.record, Ty.record, Ty.record_rename h key, Ty.record_rename h value]
  | .tuple items => by rw [Ty.rename, Ty.record, Ty.record, recordTypes_rename h items]
  | .func sig => by rw [Ty.rename_func, Ty.record, Ty.record, Signature.record_rename h sig]
  | .cls c => by rw [Ty.rename_cls, Ty.record, Ty.record, h.cls_typeName]
  | .iface i => by rw [Ty.rename_iface, Ty.record, Ty.record, h.iface_typeName]
  | .enumeration e => by rw [Ty.rename_enumeration, Ty.record, Ty.record, h.enumeration_typeName]

theorem Signature.record_rename (h : s.Named σ s') : (sig : Signature) → (sig.rename σ).record s' = sig.record s
  | ⟨returns, params, _, _⟩ => by
    have hrefs : (renameParams σ params).map Prod.fst = params.map Prod.fst := by
      rw [renameParams_eq_map, List.map_map]
      rfl
    rw [Signature.rename, Signature.record, Signature.record, Ty.record_rename h returns, recordParams_rename h params,
      hrefs]

theorem recordTypes_rename (h : s.Named σ s') : (ts : List Ty) → recordTypes s' (renameTypes σ ts) = recordTypes s ts
  | [] => rfl
  | t :: ts => by rw [renameTypes, recordTypes, recordTypes, Ty.record_rename h t, recordTypes_rename h ts]

theorem recordParams_rename (h : s.Named σ s') : (ps : List (Bool × Ty)) →
    recordParams s' (renameParams σ ps) = recordParams s ps
  | [] => rfl
  | (_, t) :: ps => by
    rw [renameParams, recordParams, recordParams, Ty.record_rename h t, recordParams_rename h ps]

end

theorem recordType_rename (h : s.Named σ s') (t : Option Ty) : recordType s' (t.map (Ty.rename σ)) = recordType s t := by
  cases t with
  | none => rw [Option.map_none, recordType, recordType, Option.getD_none, Ty.void, Ty.record, Ty.record]
  | some t => exact Ty.record_rename h t

variable {scope scope' : Lookup}

end Records

/-! ## Bases and types -/

/-- The second store says of renamed symbols what the first says of the symbols, but for layouts. It may have more
symbols; the walks through the hierarchy of the first end by themselves. -/
structure Store.Mirrors (σ : Renaming) (s s' : Store) : Prop where
  classes : s.classes.size ≤ s'.classes.size
  interfaces : s.interfaces.size ≤ s'.interfaces.size
  acyclic : s.Acyclic
  space : ∀ n, s'.space (σ.space n) = (s.space n).rename σ
  enumeration : ∀ e, s'.enumeration (σ.enumeration e) = (s.enumeration e).rename σ
  global : ∀ g, s'.global (σ.global g) = (s.global g).rename σ
  iface : ∀ i, s'.iface (σ.iface i) = (s.iface i).rename σ
  func : ∀ f, ∃ index, s'.func (σ.func f) = { (s.func f).rename σ with index }
  field : ∀ f, ∃ index, s'.field (σ.field f) = { (s.field f).rename σ with index }
  cls : ∀ c, ∃ laidOut fields methods, s'.cls (σ.cls c) = { (s.cls c).rename σ with laidOut, fields, methods }

namespace Store.Mirrors

variable {σ : Renaming} {s s' : Store} {name : String}

/-- Stores that agree on types agree on names. -/
theorem named (h : s.Mirrors σ s') : s.Named σ s' where
  space := h.space
  enumeration := h.enumeration
  func f := by
    obtain ⟨i, hf⟩ := h.func f
    exact ⟨_, i, hf⟩
  global g := ⟨_, h.global g⟩
  field f := by
    obtain ⟨i, hf⟩ := h.field f
    exact ⟨_, i, hf⟩
  cls c := by
    obtain ⟨l, fs, ms, hc⟩ := h.cls c
    exact ⟨_, _, l, fs, ms, hc⟩
  iface i := ⟨_, h.iface i⟩

section Symbols

theorem func_sig (h : s.Mirrors σ s') (f : FuncId) :
    (s'.func (σ.func f)).sig = (s.func f).sig.map (Signature.rename σ) := by
  obtain ⟨_, hf⟩ := h.func f
  rw [hf]
  rfl

/-- The signature that a call takes for granted. -/
theorem func_signature (h : s.Mirrors σ s') (f : FuncId) :
    (s'.func (σ.func f)).sig.getD default = ((s.func f).sig.getD default).rename σ := by
  rw [h.func_sig]
  cases (s.func f).sig with
  | none => exact (Signature.rename_default σ).symm
  | some sig => rfl

theorem func_name (h : s.Mirrors σ s') (f : FuncId) : (s'.func (σ.func f)).name = (s.func f).name := by
  obtain ⟨_, hf⟩ := h.func f
  rw [hf]
  rfl

theorem func_fullName (h : s.Mirrors σ s') (f : FuncId) : (s'.func (σ.func f)).fullName = (s.func f).fullName := by
  obtain ⟨_, hf⟩ := h.func f
  rw [hf]
  rfl

theorem func_params (h : s.Mirrors σ s') (f : FuncId) : (s'.func (σ.func f)).params = (s.func f).params := by
  obtain ⟨_, hf⟩ := h.func f
  rw [hf]
  rfl

theorem func_override (h : s.Mirrors σ s') (f : FuncId) : (s'.func (σ.func f)).override = (s.func f).override := by
  obtain ⟨_, hf⟩ := h.func f
  rw [hf]
  rfl

theorem func_virtual (h : s.Mirrors σ s') (f : FuncId) : (s'.func (σ.func f)).virtual = (s.func f).virtual := by
  obtain ⟨_, hf⟩ := h.func f
  rw [hf]
  rfl

theorem func_owner (h : s.Mirrors σ s') (f : FuncId) :
    (s'.func (σ.func f)).owner = (s.func f).owner.map (Owner.rename σ) := by
  obtain ⟨_, hf⟩ := h.func f
  rw [hf]
  rfl

theorem field_type (h : s.Mirrors σ s') (f : FieldId) :
    (s'.field (σ.field f)).type = (s.field f).type.map (Ty.rename σ) := by
  obtain ⟨_, hf⟩ := h.field f
  rw [hf]
  rfl

theorem field_native (h : s.Mirrors σ s') (f : FieldId) : (s'.field (σ.field f)).native = (s.field f).native := by
  obtain ⟨_, hf⟩ := h.field f
  rw [hf]
  rfl

theorem cls_super (h : s.Mirrors σ s') (c : ClassId) : (s'.cls (σ.cls c)).super = (s.cls c).super.map σ.cls := by
  obtain ⟨_, _, _, hc⟩ := h.cls c
  rw [hc]
  rfl

theorem cls_implements (h : s.Mirrors σ s') (c : ClassId) :
    (s'.cls (σ.cls c)).implements = (s.cls c).implements.map σ.iface := by
  obtain ⟨_, _, _, hc⟩ := h.cls c
  rw [hc]
  rfl

end Symbols

/-! ### The hierarchy -/

theorem chainOf (h : s.Mirrors σ s') (n : Nat) (c : ClassId) :
    s'.chainOf n (σ.cls c) = (s.chainOf n c).map σ.cls := by
  induction n generalizing c with
  | zero => rfl
  | succ n ih =>
    unfold Store.chainOf
    rw [h.cls_super]
    cases (s.cls c).super with
    | none => rfl
    | some b => exact congrArg _ (ih b)

theorem lineage (h : s.Mirrors σ s') (c : ClassId) : s'.lineage (σ.cls c) = (s.lineage c).map σ.cls := by
  have hends := Store.chainOf_eq_lineage h.acyclic (Nat.lt_succ_of_le h.classes) c
  rw [Store.lineage, h.chainOf]
  exact congrArg _ hends

theorem hasCycle (h : s.Mirrors σ s') (c : ClassId) : s'.hasCycle (σ.cls c) = s.hasCycle c := by
  simp [Store.hasCycle, h.lineage, List.nodup_map_iff σ.cls.injective]

theorem isSubclass (h : s.Mirrors σ s') (c d : ClassId) :
    s'.isSubclass (σ.cls c) (σ.cls d) = s.isSubclass c d := by
  simp [Store.isSubclass, h.lineage]

theorem classMember? (h : s.Mirrors σ s') (c : ClassId) (name : String) :
    s'.classMember? (σ.cls c) name = (s.classMember? c name).map (Sym.rename σ) := by
  unfold Store.classMember?
  rw [h.lineage]
  induction s.lineage c with
  | nil => rfl
  | cons b bs ih =>
    rw [List.map_cons, List.findSome?_cons, List.findSome?_cons, h.named.cls_members, Table.get?_rename]
    cases (s.cls b).members.get? name with
    | none => exact ih
    | some a => rfl

theorem iface_bases (h : s.Mirrors σ s') (i : InterfaceId) :
    (s'.iface (σ.iface i)).bases = (s.iface i).bases.map σ.iface := by
  rw [h.iface]
  rfl

theorem visit (h : s.Mirrors σ s') (n : Nat) (seen : List InterfaceId) (i : InterfaceId) :
    s'.visit n (seen.map σ.iface) (σ.iface i) = (s.visit n seen i).map σ.iface := by
  induction n generalizing seen i with
  | zero => rfl
  | succ n ih =>
    have hfold : ∀ (is seen : List InterfaceId),
        (is.map σ.iface).foldl (s'.visit n) (seen.map σ.iface) = (is.foldl (s.visit n) seen).map σ.iface := by
      intro is
      induction is with
      | nil => exact fun _ => rfl
      | cons b is ihs =>
        intro seen
        rw [List.map_cons, List.foldl_cons, List.foldl_cons, ih, ihs]
    have hmore := hfold (s.iface i).bases (seen ++ [i])
    rw [List.map_append] at hmore
    unfold Store.visit
    simp only [List.mem_map_of_injective σ.iface.injective, h.iface_bases]
    split
    · rfl
    · exact hmore

theorem extended (h : s.Mirrors σ s') (i : InterfaceId) : s'.extended (σ.iface i) = (s.extended i).map σ.iface := by
  have hends := Store.visit_eq_extended (Nat.lt_succ_of_le h.interfaces) i
  rw [Store.extended]
  exact (h.visit _ [] i).trans (congrArg _ hends)

theorem extends? (h : s.Mirrors σ s') (i j : InterfaceId) : s'.extends? (σ.iface i) (σ.iface j) = s.extends? i j := by
  simp [Store.extends?, h.extended]

theorem interfaceMember? (h : s.Mirrors σ s') (i : InterfaceId) (name : String) :
    s'.interfaceMember? (σ.iface i) name = (s.interfaceMember? i name).map (Sym.rename σ) := by
  unfold Store.interfaceMember?
  rw [h.extended]
  induction s.extended i with
  | nil => rfl
  | cons b bs ih =>
    rw [List.map_cons, List.findSome?_cons, List.findSome?_cons, h.named.iface_members, Table.get?_rename]
    cases (s.iface b).members.get? name with
    | none => exact ih
    | some a => rfl

theorem implementing (h : s.Mirrors σ s') (c : ClassId) (i : InterfaceId) :
    s'.implementing (σ.cls c) (σ.iface i) = s.implementing c i := by
  simp [Store.implementing, h.lineage, List.any_map, Function.comp_def, h.cls_implements, h.extends?]

theorem methodsOf (h : s.Mirrors σ s') (is : List InterfaceId) :
    ((is.map σ.iface).flatMap fun b => (s'.iface b).members.symbols.filterMap fun sym =>
        match sym with
        | .func f => some f
        | _ => none) =
      (is.flatMap fun b => (s.iface b).members.symbols.filterMap fun sym =>
        match sym with
        | .func f => some f
        | _ => none).map σ.func := by
  rw [List.flatMap_map, List.map_flatMap]
  congr 1
  funext b
  rw [h.named.iface_members, Table.symbols_rename, List.filterMap_map, List.map_filterMap]
  congr 1
  funext a
  cases a <;> rfl

theorem allMethods (h : s.Mirrors σ s') (i : InterfaceId) :
    s'.allMethods (σ.iface i) = (s.allMethods i).map σ.func := by
  have hfold : ∀ (all kept : List FuncId),
      (all.map σ.func).foldl (fun kept f =>
          if kept.any fun g => (s'.func g).name = (s'.func f).name then kept else kept ++ [f]) (kept.map σ.func) =
        (all.foldl (fun kept f =>
          if kept.any fun g => (s.func g).name = (s.func f).name then kept else kept ++ [f]) kept).map σ.func := by
    intro all
    induction all with
    | nil => exact fun _ => rfl
    | cons f all ih =>
      intro kept
      have hany : ((kept.map σ.func).any fun g => (s'.func g).name = (s'.func (σ.func f)).name) =
          kept.any fun g => (s.func g).name = (s.func f).name := by
        simp [List.any_map, Function.comp_def, h.func_name]
      rw [List.map_cons, List.foldl_cons, List.foldl_cons, hany]
      split
      · exact ih kept
      · have hmore := ih (kept ++ [f])
        rw [List.map_append] at hmore
        exact hmore
  unfold Store.allMethods
  rw [h.extended]
  exact (congrArg _ (h.methodsOf _)).trans (hfold _ [])

/-! ### Types that fit -/

theorem identical (h : s.Mirrors σ s') (a b : Ty) : (a.rename σ).identical s' (b.rename σ) = a.identical s b := by
  have ha := Ty.typeName_rename h.named a
  have hb := Ty.typeName_rename h.named b
  unfold Ty.identical
  cases a <;> cases b <;> simp_all

theorem assignable (h : s.Mirrors σ s') (a b : Ty) : (a.rename σ).assignable s' (b.rename σ) = a.assignable s b := by
  unfold Ty.assignable
  simp only [h.identical, Ty.is_rename, Ty.isReference_rename]
  cases a <;> cases b <;> simp [h.isSubclass, h.implementing, h.extends?]

theorem castable (h : s.Mirrors σ s') (a b : Ty) : (a.rename σ).castable s' (b.rename σ) = a.castable s b := by
  unfold Ty.castable
  simp only [h.assignable, Ty.is_rename, Ty.isNumeric_rename, Ty.isEnum_rename]
  cases a <;> cases b <;> simp

theorem identicalTypes (h : s.Mirrors σ s') (a b : Option Ty) :
    Weft.identicalTypes s' (a.map (Ty.rename σ)) (b.map (Ty.rename σ)) = Weft.identicalTypes s a b := by
  cases a <;> cases b <;> simp [Weft.identicalTypes, h.identical]

theorem unusable (h : s.Mirrors σ s') (a b : Ty) :
    Analysis.unusable s' (a.rename σ) (b.rename σ) = Analysis.unusable s a b := by
  have hsame := h.identical a b
  unfold Analysis.unusable
  cases a <;> simp_all [Ty.is]

theorem binaryResult? (h : s.Mirrors σ s') (op : BinaryOp) (a b : Ty) :
    op.result? s' (a.rename σ) (b.rename σ) = (op.result? s a b).map (Ty.rename σ) := by
  unfold BinaryOp.result?
  simp only [h.assignable, Ty.is_rename, Ty.isNumeric_rename, Ty.isEnum_rename]
  cases op <;> simp only [] <;> split_ifs <;> simp

theorem binaryResult (h : s.Mirrors σ s') (op : BinaryOp) (a b : Ty) :
    op.result s' (a.rename σ) (b.rename σ) = (op.result s a b).map (Ty.rename σ) := by
  unfold BinaryOp.result
  rw [h.binaryResult?]
  cases op.result? s a b with
  | none =>
    simp only [Option.map_none, Ty.typeName_rename h.named]
    rfl
  | some t => rfl

theorem unaryResult (h : s.Mirrors σ s') (op : UnaryOp) (a : Ty) :
    op.result s' (a.rename σ) = (op.result s a).map (Ty.rename σ) := by
  unfold UnaryOp.result
  simp only [Ty.is_rename, Ty.isNumeric_rename, Ty.typeName_rename h.named]
  cases op <;> (simp only []; split <;> rfl)

theorem sameSignature (h : s.Mirrors σ s') (a b : Option Signature) :
    Weft.sameSignature s' (a.map (Signature.rename σ)) (b.map (Signature.rename σ)) = Weft.sameSignature s a b := by
  cases a <;> cases b <;> simp [Weft.sameSignature, Signature.typeName_rename h.named]

theorem signatureName (h : s.Mirrors σ s') (f : FuncId) :
    (s'.func (σ.func f)).signatureName s' = (s.func f).signatureName s := by
  unfold Func.signatureName
  rw [h.func_sig]
  cases (s.func f).sig with
  | none => rfl
  | some sig => simp [Signature.typeName_rename h.named]

/-- A class fails its interfaces in the same way. -/
theorem conformance (h : s.Mirrors σ s') (c : ClassId) : s'.conformance (σ.cls c) = s.conformance c := by
  unfold Store.conformance
  simp only [h.cls_implements, List.flatMap_map, h.allMethods, List.filterMap_map]
  congr 1
  funext i
  congr 1
  funext m
  simp only [Function.comp_apply, h.func_name, h.classMember?, h.named.cls_typeName, h.named.iface_typeName,
    h.signatureName]
  cases s.classMember? c (s.func m).name with
  | none => rfl
  | some a =>
    cases a with
    | func f => simp only [Option.map_some, Sym.rename, h.func_sig, h.sameSignature, h.signatureName]
    | _ => rfl

end Store.Mirrors

end Weft
