import Weft.Proofs.Symbol.Merging

/-!
# The members of classes

A class declares each name once, and what it declares belongs to it. A name leads to a method of the class itself, or to
one of the nearest superclass that declares it.
-/

namespace Weft

theorem Table.symbols_push (t : Table) (name : String) (x : Sym) : (t.push name x).symbols = t.symbols ++ [x] := by
  simp [Table.push, Table.symbols]

/-- A name that is declared the first time goes to the end. -/
theorem Table.define_ok {t t' : Table} {name : String} {x : Sym} (h : t.define name x = .ok t') :
    t.get? name = none ∧ t' = t.push name x := by
  unfold Table.define at h
  cases hg : t.get? name with
  | none =>
    rw [hg] at h
    cases h
    exact ⟨rfl, rfl⟩
  | some existing =>
    rw [hg] at h
    cases h

namespace Store

/-- A store that is about to declare a member of a class. -/
def claimed (s : Store) (c : ClassId) (x : Sym) : Store :=
  let owned : Store := match x with
    | .field f => (updateField f ({ · with owner := some c }) s).2
    | .func f => (updateFunc f ({ · with owner := some (.cls c) }) s).2
    | _ => s
  (updateClass c ({ · with laidOut := false }) owned).2

private theorem declare_apply (s : Store) (c : ClassId) (x : Sym) :
    (get >>= fun s : Store => match (s.cls c).members.define (s.nameOf x) x with
      | .ok t => do
        updateClass c ({ · with members := t })
        return .ok ()
      | .error e => return .error e : Symbols (Except AlreadyDefined Unit)) s =
    match (s.cls c).members.define (s.nameOf x) x with
      | .ok t => (.ok (), (updateClass c ({ · with members := t }) s).2)
      | .error e => (.error e, s) := by
  rw [get_bind_apply]
  cases (s.cls c).members.define (s.nameOf x) x <;> rfl

theorem defineMember_apply (s : Store) (c : ClassId) (x : Sym) :
    defineMember c x s = match ((s.claimed c x).cls c).members.define ((s.claimed c x).nameOf x) x with
      | .ok t => (.ok (), (updateClass c ({ · with members := t }) (s.claimed c x)).2)
      | .error e => (.error e, s.claimed c x) := by
  cases x <;> exact declare_apply _ c _

/-- A store that is about to declare a method of an interface. -/
def signing (s : Store) (i : InterfaceId) (f : FuncId) : Store :=
  (updateFunc f ({ · with owner := some (.iface i), index := (s.iface i).members.size }) s).2

private theorem sign_apply (s : Store) (i : InterfaceId) (f : FuncId) :
    (get >>= fun s : Store => match (s.iface i).members.define (s.func f).name (.func f) with
      | .ok t => do
        updateInterface i ({ · with members := t })
        return .ok ()
      | .error e => return .error e : Symbols (Except AlreadyDefined Unit)) s =
    match (s.iface i).members.define (s.func f).name (.func f) with
      | .ok t => (.ok (), (updateInterface i ({ · with members := t }) s).2)
      | .error e => (.error e, s) := by
  rw [get_bind_apply]
  cases (s.iface i).members.define (s.func f).name (.func f) <;> rfl

/-- A method is declared in the interface after it was given its owner and its slot. -/
theorem defineSignature_apply (s : Store) (i : InterfaceId) (f : FuncId) :
    defineSignature i f s =
      match ((s.signing i f).iface i).members.define ((s.signing i f).func f).name (.func f) with
      | .ok t => (.ok (), (updateInterface i ({ · with members := t }) (s.signing i f)).2)
      | .error e => (.error e, s.signing i f) := sign_apply (s.signing i f) i f

/-- The members of a class are its own, each once. -/
structure Houses (s : Store) (c : ClassId) : Prop where
  funcs : ∀ f, .func f ∈ (s.cls c).members.symbols → (s.func f).owner = some (.cls c)
  fields : ∀ f, .field f ∈ (s.cls c).members.symbols → (s.field f).owner = some c
  nodup : (s.cls c).members.symbols.Nodup

namespace Houses

variable {s t : Store} {c : ClassId}

/-- What counts is who the members are and whom they belong to. -/
theorem congr (h : s.Houses c) (hc : (t.cls c).members = (s.cls c).members)
    (hf : ∀ f, .func f ∈ (s.cls c).members.symbols → (t.func f).owner = (s.func f).owner)
    (hd : ∀ f, .field f ∈ (s.cls c).members.symbols → (t.field f).owner = (s.field f).owner) : t.Houses c where
  funcs f hmem := by
    rw [hc] at hmem
    rw [hf f hmem, h.funcs f hmem]
  fields f hmem := by
    rw [hc] at hmem
    rw [hd f hmem, h.fields f hmem]
  nodup := by
    rw [hc]
    exact h.nodup

theorem func_notMem (h : s.Houses c) {f : FuncId} (hf : (s.func f).owner = none) :
    .func f ∉ (s.cls c).members.symbols := by
  intro hmem
  rw [h.funcs f hmem] at hf
  cases hf

theorem field_notMem (h : s.Houses c) {f : FieldId} (hf : (s.field f).owner = none) :
    .field f ∉ (s.cls c).members.symbols := by
  intro hmem
  rw [h.fields f hmem] at hf
  cases hf

end Houses

/-- What a class declares is its own, under different names, and methods under theirs. -/
structure Declared (s : Store) (c : ClassId) : Prop extends s.Houses c where
  names : ∀ n f, (n, .func f) ∈ (s.cls c).members.entries → (s.func f).name = n
  keys : ((s.cls c).members.entries.map Prod.fst).Nodup

/-! ## Methods and fields that a class declares -/

/-- The method that a class declares itself under a name. -/
def method? (s : Store) (c : ClassId) (n : String) : Option FuncId :=
  match (s.cls c).members.get? n with
  | some (.func f) => some f
  | _ => none

/-- The method of a name that the most derived of a class and its superclasses declares. -/
def methodMember? (s : Store) (c : ClassId) (n : String) : Option FuncId := (s.lineage c).findSome? (s.method? · n)

/-- The methods among symbols. -/
def methodsIn (xs : List Sym) : List FuncId := xs.filterMap fun
  | .func f => some f
  | _ => none

/-- The fields among symbols. -/
def fieldsIn (xs : List Sym) : List FieldId := xs.filterMap fun
  | .field f => some f
  | _ => none

theorem mem_methodsIn {xs : List Sym} {f : FuncId} : f ∈ methodsIn xs ↔ .func f ∈ xs := by
  rw [methodsIn, List.mem_filterMap]
  constructor
  · rintro ⟨x, hx, h⟩
    cases x with
    | func g =>
      cases h
      exact hx
    | _ => cases h
  · exact fun h => ⟨_, h, rfl⟩

theorem mem_fieldsIn {xs : List Sym} {f : FieldId} : f ∈ fieldsIn xs ↔ .field f ∈ xs := by
  rw [fieldsIn, List.mem_filterMap]
  constructor
  · rintro ⟨x, hx, h⟩
    cases x with
    | field g =>
      cases h
      exact hx
    | _ => cases h
  · exact fun h => ⟨_, h, rfl⟩

namespace Declared

variable {s : Store} {c : ClassId} {n : String} {f : FuncId}

theorem method?_iff (h : s.Declared c) : s.method? c n = some f ↔ (n, .func f) ∈ (s.cls c).members.entries := by
  rw [method?]
  constructor
  · intro hm
    split at hm
    · next g hg =>
      cases hm
      exact Table.get?_mem hg
    · cases hm
  · intro hmem
    rw [get?_of_mem h.keys hmem]

theorem name_of_method? (h : s.Declared c) (hm : s.method? c n = some f) : (s.func f).name = n :=
  h.names n f (h.method?_iff.mp hm)

theorem owner_of_method? (h : s.Declared c) (hm : s.method? c n = some f) : (s.func f).owner = some (.cls c) :=
  h.funcs f (List.mem_map.mpr ⟨_, h.method?_iff.mp hm, rfl⟩)

theorem method?_of_mem (h : s.Declared c) (hmem : .func f ∈ (s.cls c).members.symbols) :
    s.method? c (s.func f).name = some f := by
  obtain ⟨⟨n, x⟩, he, rfl⟩ := List.mem_map.mp hmem
  rw [h.names n f he, h.method?_iff]
  exact he

theorem mem_of_method? (h : s.Declared c) (hm : s.method? c n = some f) : .func f ∈ (s.cls c).members.symbols :=
  List.mem_map.mpr ⟨_, h.method?_iff.mp hm, rfl⟩

end Declared

/-! ## Members under another layout -/

namespace Relaid

variable {s s' : Store} (h : s.Relaid s')
include h

theorem members (c : ClassId) : (s'.cls c).members = (s.cls c).members := by
  obtain ⟨_, _, _, hc⟩ := h.cls c
  rw [hc]

theorem super (c : ClassId) : (s'.cls c).super = (s.cls c).super := by
  obtain ⟨_, _, _, hc⟩ := h.cls c
  rw [hc]

theorem func_name (f : FuncId) : (s'.func f).name = (s.func f).name := by
  obtain ⟨_, hf⟩ := h.func f
  rw [hf]

theorem func_owner (f : FuncId) : (s'.func f).owner = (s.func f).owner := by
  obtain ⟨_, hf⟩ := h.func f
  rw [hf]

theorem func_sig (f : FuncId) : (s'.func f).sig = (s.func f).sig := by
  obtain ⟨_, hf⟩ := h.func f
  rw [hf]

theorem field_owner (f : FieldId) : (s'.field f).owner = (s.field f).owner := by
  obtain ⟨_, hf⟩ := h.field f
  rw [hf]

theorem method? (c : ClassId) (n : String) : s'.method? c n = s.method? c n := by
  rw [Store.method?, Store.method?, h.members]

theorem declared {c : ClassId} (hd : s.Declared c) : s'.Declared c where
  toHouses := hd.toHouses.congr (h.members c) (fun f _ => h.func_owner f) fun f _ => h.field_owner f
  names n f he := by
    rw [h.members] at he
    rw [h.func_name, hd.names n f he]
  keys := by
    rw [h.members]
    exact hd.keys

end Relaid

end Store

/-! ## Type names under another layout -/

section TypeNames

variable {s s' : Store}

mutual

theorem Ty.typeName_relaid (h : s.Relaid s') : (t : Ty) → t.typeName s' = t.typeName s
  | .builtin b => by rw [Ty.typeName, Ty.typeName]
  | .array elem => by rw [Ty.typeName, Ty.typeName, Ty.typeName_relaid h elem]
  | .map key value => by rw [Ty.typeName, Ty.typeName, Ty.typeName_relaid h key, Ty.typeName_relaid h value]
  | .tuple items => by rw [Ty.typeName, Ty.typeName, typeNames_relaid h items]
  | .func sig => by rw [Ty.typeName, Ty.typeName, Signature.typeName_relaid h sig]
  | .cls c => by
    obtain ⟨_, _, _, hc⟩ := h.cls c
    rw [Ty.typeName, Ty.typeName, hc]
    rfl
  | .iface i => by rw [Ty.typeName, Ty.typeName, Store.iface, Store.iface, h.interfaces]
  | .enumeration e => by rw [Ty.typeName, Ty.typeName, Store.enumeration, Store.enumeration, h.enums]

theorem Signature.typeName_relaid (h : s.Relaid s') : (sig : Signature) → sig.typeName s' = sig.typeName s
  | ⟨returns, params, _, _⟩ => by
    rw [Signature.typeName, Signature.typeName, Ty.typeName_relaid h returns, paramTypeNames_relaid h params]

theorem typeNames_relaid (h : s.Relaid s') : (ts : List Ty) → typeNames s' ts = typeNames s ts
  | [] => rfl
  | t :: ts => by rw [typeNames, typeNames, Ty.typeName_relaid h t, typeNames_relaid h ts]

theorem paramTypeNames_relaid (h : s.Relaid s') : (ps : List (Bool × Ty)) → paramTypeNames s' ps = paramTypeNames s ps
  | [] => rfl
  | (_, t) :: ps => by rw [paramTypeNames, paramTypeNames, Ty.typeName_relaid h t, paramTypeNames_relaid h ps]

end

end TypeNames

end Weft
