import Weft.Proofs.Renaming.Stores
import Weft.Proofs.Symbol.Members

/-!
# Renamings of blocks

The symbols that one file declares get new identities, one after the other. When files are declared in another order,
or when a file declares its symbols in another order, the identities are those of a list, in the order of the list.
-/

namespace Weft

/-! ## Numbers in the order of lists -/

section Numbers

variable {M b i j : Nat} {L : List Nat} {ps : List (List Nat × Nat)}

/-- The numbers of each list become the ones that follow a start, in the order of the list. All other numbers go beyond a
bound. -/
private def place (M : Nat) : List (List Nat × Nat) → Nat → Nat
  | [], i => M + i
  | (L, b) :: ps, i => if i ∈ L then b + L.idxOf i else place M ps i

/-- A number that is in none of the lists goes beyond the bound, the others to the places of their lists. -/
private theorem place_cases (M : Nat) (ps : List (List Nat × Nat)) (i : Nat) : (i ∉ ps.flatMap Prod.fst ∧ place M ps i = M + i) ∨
    ∃ p ∈ ps, i ∈ p.1 ∧ p.2 ≤ place M ps i ∧ place M ps i < p.2 + p.1.length := by
  induction ps with
  | nil => exact .inl ⟨List.not_mem_nil, rfl⟩
  | cons p ps ih =>
    obtain ⟨L, b⟩ := p
    rw [place, List.flatMap_cons, List.mem_append]
    by_cases hi : i ∈ L
    · rw [if_pos hi]
      have hlt := List.idxOf_lt_length_iff.mpr hi
      exact .inr ⟨(L, b), List.mem_cons_self, hi, by simp, by simpa using hlt⟩
    · rw [if_neg hi]
      rcases ih with ⟨hout, heq⟩ | ⟨p, hp, hip⟩
      · exact .inl ⟨by simp [hi, hout], heq⟩
      · exact .inr ⟨p, List.mem_cons_of_mem _ hp, hip⟩

/-- Places of different lists do not overlap. -/
abbrev Disjointed (ps : List (List Nat × Nat)) : Prop :=
  ps.Pairwise fun p q => p.2 + p.1.length ≤ q.2 ∨ q.2 + q.1.length ≤ p.2

private theorem place_injective (hnew : Disjointed ps) (hM : ∀ p ∈ ps, p.2 + p.1.length ≤ M) :
    Function.Injective (place M ps) := by
  induction ps with
  | nil => exact fun i j h => Nat.add_left_cancel h
  | cons p ps ih =>
    obtain ⟨L, b⟩ := p
    obtain ⟨hfirst, hrest⟩ := List.pairwise_cons.mp hnew
    have hinj := ih hrest fun p hp => hM p (List.mem_cons_of_mem _ hp)
    have hb : b + L.length ≤ M := hM _ List.mem_cons_self
    -- A number of the list stays apart from all others.
    have hapart : ∀ {i j}, i ∈ L → b + L.idxOf i ≠ place M ps j := by
      intro i j hi heq
      have hlt := List.idxOf_lt_length_iff.mpr hi
      rcases place_cases M ps j with ⟨-, hj⟩ | ⟨q, hq, -, hle, hlt'⟩
      · omega
      · have hdis := hfirst q hq
        simp only at hdis
        omega
    intro i j h
    simp only [place] at h
    split at h <;> split at h
    · next hi hj =>
      have hidx := Nat.add_left_cancel h
      exact (List.idxOf_inj hi).mp hidx
    · next hi hj => exact absurd h (hapart hi)
    · next hi hj => exact absurd h.symm (hapart hj)
    · exact hinj h

private theorem place_getElem (hold : (ps.flatMap Prod.fst).Nodup) {p : List Nat × Nat} (hp : p ∈ ps)
    (h : j < p.1.length) : place M ps p.1[j] = p.2 + j := by
  induction ps with
  | nil => cases hp
  | cons q ps ih =>
    obtain ⟨L, b⟩ := q
    rw [List.flatMap_cons, List.nodup_append] at hold
    obtain ⟨hL, hps, hdis⟩ := hold
    rw [place]
    rcases List.mem_cons.mp hp with rfl | hp
    · rw [if_pos (List.getElem_mem _), hL.idxOf_getElem]
    · have hmem : p.1[j] ∈ ps.flatMap Prod.fst := List.mem_flatMap.mpr ⟨p, hp, List.getElem_mem _⟩
      rw [if_neg fun hin => hdis _ hin _ hmem rfl]
      exact ih hps hp

/-- The numbers of lists can be given the places of the lists, and all others places beyond a bound. -/
theorem exists_embedding (hold : (ps.flatMap Prod.fst).Nodup) (hnew : Disjointed ps)
    (hM : ∀ p ∈ ps, p.2 + p.1.length ≤ M) :
    ∃ e : Nat ↪ Nat, (∀ p ∈ ps, ∀ j (h : j < p.1.length), e p.1[j] = p.2 + j) ∧
      ∀ i, i ∉ ps.flatMap Prod.fst → M ≤ e i := by
  refine ⟨⟨place M ps, place_injective hnew hM⟩, fun p hp j h => place_getElem hold hp h, fun i hi => ?_⟩
  change M ≤ place M ps i
  rcases place_cases M ps i with ⟨-, heq⟩ | ⟨p, hp, hip, -⟩
  · omega
  · exact absurd (List.mem_flatMap.mpr ⟨p, hp, hip⟩) hi

end Numbers

/-! ## Renamings by number -/

namespace Renaming

/-- What a renaming does with the numbers of the identities of a kind. -/
def index (σ : Renaming) : SymKind → Nat → Nat
  | .space => fun i => (σ.space ⟨i⟩).index
  | .func => fun i => (σ.func ⟨i⟩).index
  | .global => fun i => (σ.global ⟨i⟩).index
  | .field => fun i => (σ.field ⟨i⟩).index
  | .cls => fun i => (σ.cls ⟨i⟩).index
  | .iface => fun i => (σ.iface ⟨i⟩).index
  | .enumeration => fun i => (σ.enumeration ⟨i⟩).index

variable (σ : Renaming)

theorem index_injective (k : SymKind) : Function.Injective (σ.index k) := by
  intro i j h
  cases k
  · exact congrArg NamespaceId.index (σ.space.injective (congrArg NamespaceId.mk h))
  · exact congrArg FuncId.index (σ.func.injective (congrArg FuncId.mk h))
  · exact congrArg GlobalId.index (σ.global.injective (congrArg GlobalId.mk h))
  · exact congrArg FieldId.index (σ.field.injective (congrArg FieldId.mk h))
  · exact congrArg ClassId.index (σ.cls.injective (congrArg ClassId.mk h))
  · exact congrArg InterfaceId.index (σ.iface.injective (congrArg InterfaceId.mk h))
  · exact congrArg EnumId.index (σ.enumeration.injective (congrArg EnumId.mk h))

/-- The renaming that changes the numbers of every kind. -/
def ofIndexes (e : SymKind → Nat ↪ Nat) : Renaming where
  space := ⟨fun n => ⟨e .space n.index⟩, fun _ _ h => congrArg NamespaceId.mk ((e .space).injective (NamespaceId.mk.inj h))⟩
  func := ⟨fun n => ⟨e .func n.index⟩, fun _ _ h => congrArg FuncId.mk ((e .func).injective (FuncId.mk.inj h))⟩
  global := ⟨fun n => ⟨e .global n.index⟩, fun _ _ h => congrArg GlobalId.mk ((e .global).injective (GlobalId.mk.inj h))⟩
  field := ⟨fun n => ⟨e .field n.index⟩, fun _ _ h => congrArg FieldId.mk ((e .field).injective (FieldId.mk.inj h))⟩
  cls := ⟨fun n => ⟨e .cls n.index⟩, fun _ _ h => congrArg ClassId.mk ((e .cls).injective (ClassId.mk.inj h))⟩
  iface := ⟨fun n => ⟨e .iface n.index⟩, fun _ _ h => congrArg InterfaceId.mk ((e .iface).injective (InterfaceId.mk.inj h))⟩
  enumeration := ⟨fun n => ⟨e .enumeration n.index⟩, fun _ _ h =>
    congrArg EnumId.mk ((e .enumeration).injective (EnumId.mk.inj h))⟩

theorem index_ofIndexes (e : SymKind → Nat ↪ Nat) (k : SymKind) (i : Nat) : (ofIndexes e).index k i = e k i := by
  cases k <;> rfl

/-- Some symbols, of each kind in an order, and the identities that they get, which follow each other from a start on. -/
structure Block where
  old : SymKind → List Nat
  start : SymKind → Nat

/-- What is renamed block by block can be renamed so that all other symbols go beyond a bound. -/
theorem exists_renaming (bs : List Block) {M : SymKind → Nat} (hold : ∀ k, (bs.flatMap fun b => b.old k).Nodup)
    (hnew : bs.Pairwise fun b c => ∀ k, b.start k + (b.old k).length ≤ c.start k ∨ c.start k + (c.old k).length ≤ b.start k)
    (hM : ∀ b ∈ bs, ∀ k, b.start k + (b.old k).length ≤ M k) :
    ∃ σ : Renaming, (∀ b ∈ bs, ∀ k j (h : j < (b.old k).length), σ.index k (b.old k)[j] = b.start k + j) ∧
      ∀ k i, (i ∉ bs.flatMap fun b => b.old k) → M k ≤ σ.index k i := by
  have hflat : ∀ k, (bs.map fun b => (b.old k, b.start k)).flatMap Prod.fst = bs.flatMap fun b => b.old k := fun k => by
    rw [List.flatMap_map]
  have hdis : ∀ k, Disjointed (bs.map fun b => (b.old k, b.start k)) := fun k =>
    List.pairwise_map.mpr (hnew.imp fun h => h k)
  have hbound : ∀ k, ∀ p ∈ bs.map fun b => (b.old k, b.start k), p.2 + p.1.length ≤ M k := by
    intro k p hp
    obtain ⟨b, hb, rfl⟩ := List.mem_map.mp hp
    exact hM b hb k
  choose e he using fun k => exists_embedding ((hflat k).symm ▸ hold k) (hdis k) (hbound k)
  refine ⟨ofIndexes e, fun b hb k j h => ?_, fun k i hi => ?_⟩
  · rw [index_ofIndexes]
    exact (he k).1 (b.old k, b.start k) (List.mem_map.mpr ⟨b, hb, rfl⟩) j h
  · rw [index_ofIndexes]
    exact (he k).2 i ((hflat k).symm ▸ hi)

end Renaming

/-! ## Copied entries -/

/-- The entries that someone owns have copies in another array, under other numbers. -/
def Copies {α : Type} (e : Nat → Nat) (r : α → α) (own : Nat → Prop) (xs xs' : Array α) : Prop :=
  ∀ i, own i → xs'[e i]? = xs[i]?.map r

namespace Copies

variable {α : Type} {e : Nat → Nat} {r : α → α} {own : Nat → Prop} {xs xs' : Array α}

/-- One more entry on both sides. -/
theorem push (h : Copies e r own xs xs') {x x' : α} (hx : x' = r x) (hlast : ∀ i, own i → (e i = xs'.size ↔ i = xs.size)) :
    Copies e r own (xs.push x) (xs'.push x') := by
  intro i hi
  rw [Array.getElem?_push, Array.getElem?_push, h i hi, hx]
  simp only [hlast i hi]
  split <;> rfl

/-- A change of an entry and its copy. -/
theorem modify (h : Copies e r own xs xs') (he : Function.Injective e) {i : Nat} {f f' : α → α}
    (hf : ∀ x, f' (r x) = r (f x)) : Copies e r own (xs.modify i f) (xs'.modify (e i) f') := by
  intro j hj
  rw [Array.getElem?_modify, Array.getElem?_modify, h j hj]
  by_cases hij : i = j
  · rw [if_pos hij, if_pos (congrArg e hij)]
    cases xs[j]? with
    | none => rfl
    | some x => exact congrArg some (hf x)
  · rw [if_neg hij, if_neg fun heq => hij (he heq)]

end Copies

/-- The symbols that someone owns have copies in another store, under other identities. -/
structure Store.Copied (σ : Renaming) (own : SymKind → Nat → Prop) (s s' : Store) : Prop where
  spaces : Copies (σ.index .space) (Namespace.rename σ) (own .space) s.spaces s'.spaces
  funcs : Copies (σ.index .func) (Func.rename σ) (own .func) s.funcs s'.funcs
  globals : Copies (σ.index .global) (Global.rename σ) (own .global) s.globals s'.globals
  fields : Copies (σ.index .field) (Field.rename σ) (own .field) s.fields s'.fields
  classes : Copies (σ.index .cls) (Class.rename σ) (own .cls) s.classes s'.classes
  interfaces : Copies (σ.index .iface) (Interface.rename σ) (own .iface) s.interfaces s'.interfaces
  enums : Copies (σ.index .enumeration) (Enum.rename σ) (own .enumeration) s.enums s'.enums

end Weft

/-!
## The symbols of one file

The declarations of a file make new symbols and reach none but these from the root namespace of the file. Two stores in
which the same file is declared, each after other files, go on alike, with other identities for the new symbols.
-/

namespace Weft

/-! ## Symbols that someone owns -/

/-- The identity of a symbol is owned; symbols without one belong to everyone. -/
def Sym.In (own : SymKind → Nat → Prop) : Sym → Prop
  | .space n => own .space n.index
  | .func f => own .func f.index
  | .global g => own .global g.index
  | .field f => own .field f.index
  | .cls c => own .cls c.index
  | .iface i => own .iface i.index
  | .enumeration e => own .enumeration e.index
  | .builtin _ | .item _ | .localVar _ => True

/-- What a file may declare symbols in: its root namespace, and the symbols that are new in one store and there in a
later one. -/
def Region (root : NamespaceId) (a hi : Store) (k : SymKind) (i : Nat) : Prop :=
  (a.count k ≤ i ∧ i < hi.count k) ∨ k = .space ∧ i = root.index

namespace Store

/-! ## Copied symbols -/

namespace Copied

variable {σ : Renaming} {own : SymKind → Nat → Prop} {s s' : Store}

theorem space (h : s.Copied σ own s') {n : NamespaceId} (hn : own .space n.index) :
    s'.space (σ.space n) = (s.space n).rename σ := by
  have hcopy := h.spaces n.index hn
  change s'.spaces[(σ.space n).index]? = _ at hcopy
  rw [Store.space, Store.space, hcopy]
  cases s.spaces[n.index]? <;> rfl

theorem func (h : s.Copied σ own s') {f : FuncId} (hf : own .func f.index) :
    s'.func (σ.func f) = (s.func f).rename σ := by
  have hcopy := h.funcs f.index hf
  change s'.funcs[(σ.func f).index]? = _ at hcopy
  rw [Store.func, Store.func, hcopy]
  cases s.funcs[f.index]? <;> rfl

theorem global (h : s.Copied σ own s') {g : GlobalId} (hg : own .global g.index) :
    s'.global (σ.global g) = (s.global g).rename σ := by
  have hcopy := h.globals g.index hg
  change s'.globals[(σ.global g).index]? = _ at hcopy
  rw [Store.global, Store.global, hcopy]
  cases s.globals[g.index]? <;> rfl

theorem field (h : s.Copied σ own s') {f : FieldId} (hf : own .field f.index) :
    s'.field (σ.field f) = (s.field f).rename σ := by
  have hcopy := h.fields f.index hf
  change s'.fields[(σ.field f).index]? = _ at hcopy
  rw [Store.field, Store.field, hcopy]
  cases s.fields[f.index]? <;> rfl

theorem cls (h : s.Copied σ own s') {c : ClassId} (hc : own .cls c.index) :
    s'.cls (σ.cls c) = (s.cls c).rename σ := by
  have hcopy := h.classes c.index hc
  change s'.classes[(σ.cls c).index]? = _ at hcopy
  rw [Store.cls, Store.cls, hcopy]
  cases s.classes[c.index]? <;> rfl

theorem iface (h : s.Copied σ own s') {i : InterfaceId} (hi : own .iface i.index) :
    s'.iface (σ.iface i) = (s.iface i).rename σ := by
  have hcopy := h.interfaces i.index hi
  change s'.interfaces[(σ.iface i).index]? = _ at hcopy
  rw [Store.iface, Store.iface, hcopy]
  cases s.interfaces[i.index]? <;> rfl

theorem enumeration (h : s.Copied σ own s') {e : EnumId} (he : own .enumeration e.index) :
    s'.enumeration (σ.enumeration e) = (s.enumeration e).rename σ := by
  have hcopy := h.enums e.index he
  change s'.enums[(σ.enumeration e).index]? = _ at hcopy
  rw [Store.enumeration, Store.enumeration, hcopy]
  cases s.enums[e.index]? <;> rfl

theorem nameOf (h : s.Copied σ own s') {a : Sym} (ha : a.In own) : s'.nameOf (a.rename σ) = s.nameOf a := by
  cases a with
  | space n => exact (congrArg Namespace.name (h.space ha)).trans rfl
  | func f => exact (congrArg Func.name (h.func ha)).trans rfl
  | global g => exact (congrArg Global.name (h.global ha)).trans rfl
  | field f => exact (congrArg Field.name (h.field ha)).trans rfl
  | cls c => exact (congrArg Class.name (h.cls ha)).trans rfl
  | iface i => exact (congrArg Interface.name (h.iface ha)).trans rfl
  | enumeration e => exact (congrArg Enum.name (h.enumeration ha)).trans rfl
  | _ => rfl

end Copied

end Store

/-! ## Two stores in which a file is declared -/

/-- A renaming that gives the new symbols of a file the identities that come next in another store. -/
structure Renaming.Fits (σ : Renaming) (root root' : NamespaceId) (a a' hi : Store) : Prop where
  roots : σ.space root = root'
  left : root.index < a.spaces.size
  right : root'.index < a'.spaces.size
  shift : ∀ k i, a.count k ≤ i → i < hi.count k → σ.index k i + a.count k = a'.count k + i

/-- Two stores in which a file has declared the same symbols under its root namespace, and nothing else has changed. -/
structure Outlined (σ : Renaming) (root root' : NamespaceId) (a a' hi s s' : Store) : Prop where
  left : a.Kept [root] s
  right : a'.Kept [root'] s'
  size : ∀ k, s'.count k + a.count k = a'.count k + s.count k
  copied : s.Copied σ (Region root a hi) s'
  nested : ∀ n : NamespaceId, Region root a hi .space n.index →
    ∀ x ∈ (s.space n).members.symbols, x.In (Region root a hi)
  members : ∀ c : ClassId, Region root a hi .cls c.index → ∀ x ∈ (s.cls c).members.symbols, x.In (Region root a hi)

theorem Table.rename_push (σ : Renaming) (t : Table) (name : String) (x : Sym) :
    (t.push name x).rename σ = (t.rename σ).push name (x.rename σ) := by
  simp [Table.push, Table.rename]

/-- The outcome of a declaration, with other identities. -/
def renameDefined (σ : Renaming) {α β : Type} (f : α → β) : Except AlreadyDefined α → Except AlreadyDefined β
  | .ok a => .ok (f a)
  | .error e => .error ⟨e.name, e.existing.rename σ⟩

theorem Table.define_rename (σ : Renaming) (t : Table) (name : String) (x : Sym) :
    (t.rename σ).define name (x.rename σ) = renameDefined σ (Table.rename σ) (t.define name x) := by
  rw [Table.define, Table.define, Table.get?_rename]
  cases t.get? name with
  | none => exact congrArg Except.ok (Table.rename_push σ t name x).symm
  | some y => rfl

namespace Outlined

variable {σ : Renaming} {root root' : NamespaceId} {a a' hi s s' : Store}

/-- Before anything is declared. -/
theorem start (hσ : σ.Fits root root' a a' hi) (hroot : a'.space root' = (a.space root).rename σ)
    (hempty : (a.space root).members = .empty) :
    Outlined σ root root' a a' hi a a' := by
  have hnew : ∀ {α : Type} {k : SymKind} {r : α → α} {xs xs' : Array α}, xs.size = a.count k → xs'.size = a'.count k →
      k ≠ .space → Copies (σ.index k) r (Region root a hi k) xs xs' := by
    intro α k r xs xs' hxs hxs' hk i hi
    obtain ⟨hle, hlt⟩ := hi.resolve_right fun h => hk h.1
    have hshift := hσ.shift k i hle hlt
    rw [Array.getElem?_eq_none (by omega), Array.getElem?_eq_none (by omega), Option.map_none]
  have hnone : ∀ n : NamespaceId, a.count .space ≤ n.index → a.spaces[n.index]? = none :=
    fun n hn => Array.getElem?_eq_none hn
  refine ⟨.refl _, .refl _, fun k => rfl, ?_, ?_, ?_⟩
  · refine ⟨?_, hnew rfl rfl (by decide), hnew rfl rfl (by decide), hnew rfl rfl (by decide), hnew rfl rfl (by decide),
      hnew rfl rfl (by decide), hnew rfl rfl (by decide)⟩
    rintro i (⟨hle, hlt⟩ | ⟨-, rfl⟩)
    · have hshift := hσ.shift .space i hle hlt
      rw [Array.getElem?_eq_none (by change a'.count .space ≤ _; omega), hnone ⟨i⟩ hle, Option.map_none]
    · change a'.spaces[(σ.space root).index]? = _
      rw [hσ.roots, Array.getElem?_eq_getElem hσ.left, Array.getElem?_eq_getElem hσ.right]
      simp only [Store.space, Array.getElem?_eq_getElem hσ.left, Array.getElem?_eq_getElem hσ.right,
        Option.getD_some] at hroot
      rw [hroot]
      rfl
  · rintro n (⟨hle, -⟩ | ⟨-, hn⟩) x hx
    · rw [Store.space, hnone n hle] at hx
      cases hx
    · obtain rfl : n = root := congrArg NamespaceId.mk hn
      rw [hempty] at hx
      cases hx
  · intro c hc x hx
    have hnone : a.classes[c.index]? = none := Array.getElem?_eq_none (hc.resolve_right fun h => by cases h.1).1
    rw [Store.cls, hnone] at hx
    cases hx

variable (h : Outlined σ root root' a a' hi s s') (hσ : σ.Fits root root' a a' hi)
include h hσ

theorem next {k : SymKind} (hk : s.count k < hi.count k) : σ.index k (s.count k) = s'.count k := by
  have hshift := hσ.shift k (s.count k) (h.left.below k) hk
  have hsize := h.size k
  omega

theorem last {k : SymKind} (i : Nat) (hi' : Region root a hi k i) : σ.index k i = s'.count k ↔ i = s.count k := by
  have hsize := h.size k
  rcases hi' with ⟨hle, hlt⟩ | ⟨rfl, rfl⟩
  · have hshift := hσ.shift k i hle hlt
    omega
  · have hleft := h.left.below .space
    have hright := h.right.below .space
    have hroot : σ.index .space root.index = root'.index := congrArg NamespaceId.index hσ.roots
    have h₁ : root.index < a.count .space := hσ.left
    have h₂ : root'.index < a'.count .space := hσ.right
    omega

/-! ### New symbols -/

theorem addSpace {x x' : Namespace} (hx : x' = x.rename σ) (hempty : x.members = .empty) :
    Outlined σ root root' a a' hi (Store.addSpace x s).2 (Store.addSpace x' s').2 where
  left := { h.left with spaces := h.left.spaces.push x }
  right := { h.right with spaces := h.right.spaces.push x' }
  size k := by
    rw [Store.count_addSpace, Store.count_addSpace, Nat.add_right_comm, h.size, Nat.add_assoc]
  copied := { h.copied with spaces := h.copied.spaces.push hx (h.last hσ) }
  nested n hn y hy := by
    rw [Store.space_addSpace] at hy
    split at hy
    · rw [hempty] at hy
      cases hy
    · exact h.nested n hn y hy
  members := h.members

theorem addFunc {x x' : Func} (hx : x' = x.rename σ) :
    Outlined σ root root' a a' hi (Store.addFunc x s).2 (Store.addFunc x' s').2 where
  left := { h.left with funcs := h.left.funcs.push x }
  right := { h.right with funcs := h.right.funcs.push x' }
  size k := by
    rw [Store.count_addFunc, Store.count_addFunc, Nat.add_right_comm, h.size, Nat.add_assoc]
  copied := { h.copied with funcs := h.copied.funcs.push hx (h.last hσ) }
  nested := h.nested
  members := h.members

theorem addGlobal {x x' : Global} (hx : x' = x.rename σ) :
    Outlined σ root root' a a' hi (Store.addGlobal x s).2 (Store.addGlobal x' s').2 where
  left := { h.left with globals := h.left.globals.push x }
  right := { h.right with globals := h.right.globals.push x' }
  size k := by
    rw [Store.count_addGlobal, Store.count_addGlobal, Nat.add_right_comm, h.size, Nat.add_assoc]
  copied := { h.copied with globals := h.copied.globals.push hx (h.last hσ) }
  nested := h.nested
  members := h.members

theorem addField {x x' : Field} (hx : x' = x.rename σ) :
    Outlined σ root root' a a' hi (Store.addField x s).2 (Store.addField x' s').2 where
  left := { h.left with fields := h.left.fields.push x }
  right := { h.right with fields := h.right.fields.push x' }
  size k := by
    rw [Store.count_addField, Store.count_addField, Nat.add_right_comm, h.size, Nat.add_assoc]
  copied := { h.copied with fields := h.copied.fields.push hx (h.last hσ) }
  nested := h.nested
  members := h.members

theorem addClass {x x' : Class} (hx : x' = x.rename σ) (hempty : x.members = .empty) :
    Outlined σ root root' a a' hi (Store.addClass x s).2 (Store.addClass x' s').2 where
  left := { h.left with classes := h.left.classes.push x }
  right := { h.right with classes := h.right.classes.push x' }
  size k := by
    rw [Store.count_addClass, Store.count_addClass, Nat.add_right_comm, h.size, Nat.add_assoc]
  copied := { h.copied with classes := h.copied.classes.push hx (h.last hσ) }
  nested := h.nested
  members c hc y hy := by
    rw [Store.cls_addClass] at hy
    split at hy
    · rw [hempty] at hy
      cases hy
    · exact h.members c hc y hy

theorem addInterface {x x' : Interface} (hx : x' = x.rename σ) :
    Outlined σ root root' a a' hi (Store.addInterface x s).2 (Store.addInterface x' s').2 where
  left := { h.left with interfaces := h.left.interfaces.push x }
  right := { h.right with interfaces := h.right.interfaces.push x' }
  size k := by
    rw [Store.count_addInterface, Store.count_addInterface, Nat.add_right_comm, h.size, Nat.add_assoc]
  copied := { h.copied with interfaces := h.copied.interfaces.push hx (h.last hσ) }
  nested := h.nested
  members := h.members

theorem addEnum {x x' : Enum} (hx : x' = x.rename σ) :
    Outlined σ root root' a a' hi (Store.addEnum x s).2 (Store.addEnum x' s').2 where
  left := { h.left with enums := h.left.enums.push x }
  right := { h.right with enums := h.right.enums.push x' }
  size k := by
    rw [Store.count_addEnum, Store.count_addEnum, Nat.add_right_comm, h.size, Nat.add_assoc]
  copied := { h.copied with enums := h.copied.enums.push hx (h.last hσ) }
  nested := h.nested
  members := h.members

/-! ### Changed symbols -/

theorem updateSpace {n : NamespaceId} {f w : Namespace → Namespace} (hn : Region root a hi .space n.index)
    (hf : ∀ x, w (x.rename σ) = (f x).rename σ)
    (hmembers : ∀ x ∈ (f (s.space n)).members.symbols, x.In (Region root a hi)) :
    Outlined σ root root' a a' hi (Store.updateSpace n f s).2 (Store.updateSpace (σ.space n) w s').2 where
  left := by
    refine { h.left with spaces := h.left.spaces.modify ?_ }
    rcases hn with ⟨hle, -⟩ | ⟨-, hn⟩
    · exact .inr hle
    · exact .inl (List.mem_singleton.mpr (congrArg NamespaceId.mk hn))
  right := by
    refine { h.right with spaces := h.right.spaces.modify ?_ }
    rcases hn with ⟨hle, hlt⟩ | ⟨-, hn⟩
    · have hshift : (σ.space n).index + a.count .space = a'.count .space + n.index := hσ.shift .space n.index hle hlt
      have hle' : a'.count .space ≤ (σ.space n).index := by omega
      exact .inr hle'
    · obtain rfl : n = root := congrArg NamespaceId.mk hn
      rw [hσ.roots]
      exact .inl (List.mem_singleton.mpr rfl)
  size k := by
    rw [Store.count_updateSpace, Store.count_updateSpace]
    exact h.size k
  copied := { h.copied with spaces := h.copied.spaces.modify (σ.index_injective .space) hf }
  nested m hm x hx := by
    rw [Store.space_updateSpace] at hx
    split at hx
    · next heq =>
      obtain rfl := heq.1
      exact hmembers x hx
    · exact h.nested m hm x hx
  members := h.members

theorem updateFunc {i : FuncId} {f w : Func → Func} (hown : Region root a hi .func i.index)
    (hf : ∀ x, w (x.rename σ) = (f x).rename σ) :
    Outlined σ root root' a a' hi (Store.updateFunc i f s).2 (Store.updateFunc (σ.func i) w s').2 := by
  obtain ⟨hle, hlt⟩ := hown.resolve_right nofun
  have hshift : (σ.func i).index + a.count .func = a'.count .func + i.index := hσ.shift .func i.index hle hlt
  have hle' : a'.count .func ≤ (σ.func i).index := by omega
  exact {
    left := { h.left with funcs := h.left.funcs.modify (.inr hle) }
    right := { h.right with funcs := h.right.funcs.modify (.inr hle') }
    size := fun k => by
      rw [Store.count_updateFunc, Store.count_updateFunc]
      exact h.size k
    copied := { h.copied with funcs := h.copied.funcs.modify (σ.index_injective .func) hf }
    nested := h.nested
    members := h.members }

theorem updateGlobal {g : GlobalId} {f w : Global → Global} (hown : Region root a hi .global g.index)
    (hf : ∀ x, w (x.rename σ) = (f x).rename σ) :
    Outlined σ root root' a a' hi (Store.updateGlobal g f s).2 (Store.updateGlobal (σ.global g) w s').2 := by
  obtain ⟨hle, hlt⟩ := hown.resolve_right nofun
  have hshift : (σ.global g).index + a.count .global = a'.count .global + g.index := hσ.shift .global g.index hle hlt
  have hle' : a'.count .global ≤ (σ.global g).index := by omega
  exact {
    left := { h.left with globals := h.left.globals.modify (.inr hle) }
    right := { h.right with globals := h.right.globals.modify (.inr hle') }
    size := fun k => by
      rw [Store.count_updateGlobal, Store.count_updateGlobal]
      exact h.size k
    copied := { h.copied with globals := h.copied.globals.modify (σ.index_injective .global) hf }
    nested := h.nested
    members := h.members }

theorem updateField {i : FieldId} {f w : Field → Field} (hown : Region root a hi .field i.index)
    (hf : ∀ x, w (x.rename σ) = (f x).rename σ) :
    Outlined σ root root' a a' hi (Store.updateField i f s).2 (Store.updateField (σ.field i) w s').2 := by
  obtain ⟨hle, hlt⟩ := hown.resolve_right nofun
  have hshift : (σ.field i).index + a.count .field = a'.count .field + i.index := hσ.shift .field i.index hle hlt
  have hle' : a'.count .field ≤ (σ.field i).index := by omega
  exact {
    left := { h.left with fields := h.left.fields.modify (.inr hle) }
    right := { h.right with fields := h.right.fields.modify (.inr hle') }
    size := fun k => by
      rw [Store.count_updateField, Store.count_updateField]
      exact h.size k
    copied := { h.copied with fields := h.copied.fields.modify (σ.index_injective .field) hf }
    nested := h.nested
    members := h.members }

theorem updateClass {c : ClassId} {f w : Class → Class} (hown : Region root a hi .cls c.index)
    (hf : ∀ x, w (x.rename σ) = (f x).rename σ)
    (hmembers : ∀ x ∈ (f (s.cls c)).members.symbols, x.In (Region root a hi)) :
    Outlined σ root root' a a' hi (Store.updateClass c f s).2 (Store.updateClass (σ.cls c) w s').2 := by
  obtain ⟨hle, hlt⟩ := hown.resolve_right nofun
  have hshift : (σ.cls c).index + a.count .cls = a'.count .cls + c.index := hσ.shift .cls c.index hle hlt
  have hle' : a'.count .cls ≤ (σ.cls c).index := by omega
  exact {
    left := { h.left with classes := h.left.classes.modify (.inr hle) }
    right := { h.right with classes := h.right.classes.modify (.inr hle') }
    size := fun k => by
      rw [Store.count_updateClass, Store.count_updateClass]
      exact h.size k
    copied := { h.copied with classes := h.copied.classes.modify (σ.index_injective .cls) hf }
    nested := h.nested
    members := fun d hd x hx => by
      rw [Store.cls_updateClass] at hx
      split at hx
      · next heq =>
        obtain rfl := heq.1
        exact hmembers x hx
      · exact h.members d hd x hx }

theorem updateInterface {i : InterfaceId} {f w : Interface → Interface} (hown : Region root a hi .iface i.index)
    (hf : ∀ x, w (x.rename σ) = (f x).rename σ) :
    Outlined σ root root' a a' hi (Store.updateInterface i f s).2 (Store.updateInterface (σ.iface i) w s').2 := by
  obtain ⟨hle, hlt⟩ := hown.resolve_right nofun
  have hshift : (σ.iface i).index + a.count .iface = a'.count .iface + i.index := hσ.shift .iface i.index hle hlt
  have hle' : a'.count .iface ≤ (σ.iface i).index := by omega
  exact {
    left := { h.left with interfaces := h.left.interfaces.modify (.inr hle) }
    right := { h.right with interfaces := h.right.interfaces.modify (.inr hle') }
    size := fun k => by
      rw [Store.count_updateInterface, Store.count_updateInterface]
      exact h.size k
    copied := { h.copied with interfaces := h.copied.interfaces.modify (σ.index_injective .iface) hf }
    nested := h.nested
    members := h.members }

theorem updateEnum {e : EnumId} {f w : Enum → Enum} (hown : Region root a hi .enumeration e.index)
    (hf : ∀ x, w (x.rename σ) = (f x).rename σ) :
    Outlined σ root root' a a' hi (Store.updateEnum e f s).2 (Store.updateEnum (σ.enumeration e) w s').2 := by
  obtain ⟨hle, hlt⟩ := hown.resolve_right nofun
  have hshift : (σ.enumeration e).index + a.count .enumeration = a'.count .enumeration + e.index :=
    hσ.shift .enumeration e.index hle hlt
  have hle' : a'.count .enumeration ≤ (σ.enumeration e).index := by omega
  exact {
    left := { h.left with enums := h.left.enums.modify (.inr hle) }
    right := { h.right with enums := h.right.enums.modify (.inr hle') }
    size := fun k => by
      rw [Store.count_updateEnum, Store.count_updateEnum]
      exact h.size k
    copied := { h.copied with enums := h.copied.enums.modify (σ.index_injective .enumeration) hf }
    nested := h.nested
    members := h.members }

/-! ### Declared symbols -/

/-- A symbol of the file is declared in one of its namespaces, unless its name is taken. -/
theorem define {n : NamespaceId} {x : Sym} (hn : Region root a hi .space n.index) (hx : x.In (Region root a hi)) :
    (Store.define (σ.space n) (x.rename σ) s').1 = renameDefined σ id (Store.define n x s).1 ∧
      Outlined σ root root' a a' hi (Store.define n x s).2 (Store.define (σ.space n) (x.rename σ) s').2 := by
  have hspace := h.copied.space hn
  rw [Store.define, Store.get_bind_apply, Store.define, Store.get_bind_apply, h.copied.nameOf hx, hspace]
  simp only [Namespace.rename, Table.define_rename]
  cases hdef : (s.space n).members.define (s.nameOf x) x with
  | error e => exact ⟨rfl, h⟩
  | ok t =>
    refine ⟨rfl, h.updateSpace hσ (w := ({ · with members := t.rename σ })) hn (fun _ => rfl) fun y hy => ?_⟩
    obtain ⟨-, rfl⟩ := Table.define_ok hdef
    simp only [Table.symbols_push, List.mem_append, List.mem_singleton] at hy
    rcases hy with hy | rfl
    · exact h.nested n hn y hy
    · exact hx

/-- A member is about to be declared in a class of the file. -/
theorem claimed {c : ClassId} {x : Sym} (hc : Region root a hi .cls c.index) (hx : x.In (Region root a hi)) :
    Outlined σ root root' a a' hi (s.claimed c x) (s'.claimed (σ.cls c) (x.rename σ)) := by
  have hclass : ∀ {t t' : Store}, Outlined σ root root' a a' hi t t' →
      Outlined σ root root' a a' hi (Store.updateClass c ({ · with laidOut := false }) t).2
        (Store.updateClass (σ.cls c) ({ · with laidOut := false }) t').2 :=
    fun ht => ht.updateClass hσ hc (fun _ => rfl) (ht.members c hc)
  cases x with
  | field f => exact hclass (h.updateField hσ hx fun _ => rfl)
  | func f => exact hclass (h.updateFunc hσ hx fun _ => rfl)
  | _ => exact hclass h

/-- A member is declared in a class of the file, unless its name is taken. -/
theorem defineMember {c : ClassId} {x : Sym} (hc : Region root a hi .cls c.index) (hx : x.In (Region root a hi)) :
    (Store.defineMember (σ.cls c) (x.rename σ) s').1 = renameDefined σ id (Store.defineMember c x s).1 ∧
      Outlined σ root root' a a' hi (Store.defineMember c x s).2 (Store.defineMember (σ.cls c) (x.rename σ) s').2 := by
  have hclaimed := h.claimed hσ hc hx
  rw [Store.defineMember_apply, Store.defineMember_apply, hclaimed.copied.nameOf hx, hclaimed.copied.cls hc]
  simp only [Class.rename, Table.define_rename]
  cases hdef : ((s.claimed c x).cls c).members.define ((s.claimed c x).nameOf x) x with
  | error e => exact ⟨rfl, hclaimed⟩
  | ok t =>
    refine ⟨rfl, hclaimed.updateClass hσ (w := ({ · with members := t.rename σ })) hc (fun _ => rfl) fun y hy => ?_⟩
    obtain ⟨-, rfl⟩ := Table.define_ok hdef
    simp only [Table.symbols_push, List.mem_append, List.mem_singleton] at hy
    rcases hy with hy | rfl
    · exact hclaimed.members c hc y hy
    · exact hx

/-- A method is declared in an interface of the file, unless its name is taken. -/
theorem defineSignature {i : InterfaceId} {f : FuncId} (hi' : Region root a hi .iface i.index)
    (hf : Region root a hi .func f.index) :
    (Store.defineSignature (σ.iface i) (σ.func f) s').1 = renameDefined σ id (Store.defineSignature i f s).1 ∧
      Outlined σ root root' a a' hi (Store.defineSignature i f s).2
        (Store.defineSignature (σ.iface i) (σ.func f) s').2 := by
  have hsize : (s'.iface (σ.iface i)).members.size = (s.iface i).members.size := by
    rw [h.copied.iface hi']
    exact Table.size_rename σ _
  have hsigning : Outlined σ root root' a a' hi (s.signing i f) (s'.signing (σ.iface i) (σ.func f)) :=
    h.updateFunc hσ hf fun x => by rw [hsize]; rfl
  have hdefine := Table.define_rename σ ((s.signing i f).iface i).members ((s.signing i f).func f).name (.func f)
  rw [Sym.rename] at hdefine
  rw [Store.defineSignature_apply, Store.defineSignature_apply, hsigning.copied.iface hi', hsigning.copied.func hf]
  simp only [Interface.rename, Func.rename, hdefine]
  cases ((s.signing i f).iface i).members.define ((s.signing i f).func f).name (.func f) with
  | error e => exact ⟨rfl, hsigning⟩
  | ok t => exact ⟨rfl, hsigning.updateInterface hσ (w := ({ · with members := t.rename σ })) hi' fun _ => rfl⟩

/-- An item is declared in an enumeration of the file, unless its name is taken. -/
theorem addItem {e : EnumId} {name : String} {value : Int} (he : Region root a hi .enumeration e.index) :
    (Store.addItem (σ.enumeration e) name value s').1 =
        renameDefined σ (EnumItem.rename σ) (Store.addItem e name value s).1 ∧
      Outlined σ root root' a a' hi (Store.addItem e name value s).2
        (Store.addItem (σ.enumeration e) name value s').2 := by
  have hdefine := Table.define_rename σ (s.enumeration e).items name (.item { name, value, owner := e })
  rw [Sym.rename, EnumItem.rename] at hdefine
  rw [Store.addItem, Store.get_bind_apply, Store.addItem, Store.get_bind_apply, h.copied.enumeration he]
  simp only [Enum.rename, hdefine]
  cases (s.enumeration e).items.define name (.item { name, value, owner := e }) with
  | error err => exact ⟨rfl, h⟩
  | ok t => exact ⟨rfl, h.updateEnum hσ (w := ({ · with items := t.rename σ })) he fun _ => rfl⟩

/-- The nested namespace of a name is found or made, unless the name is taken. -/
theorem child {n : NamespaceId} {name : String} (hn : Region root a hi .space n.index)
    (hbelow : (Store.child n name s).2.Below hi) :
    (Store.child (σ.space n) name s').1 = renameDefined σ σ.space (Store.child n name s).1 ∧
      (∀ c, (Store.child n name s).1 = .ok c → Region root a hi .space c.index) ∧
      Outlined σ root root' a a' hi (Store.child n name s).2 (Store.child (σ.space n) name s').2 := by
  have hspace := h.copied.space hn
  have hget : (s'.space (σ.space n)).members.get? name = ((s.space n).members.get? name).map (Sym.rename σ) := by
    rw [hspace]
    exact Table.get?_rename σ _ name
  rw [Store.child_apply] at hbelow ⊢
  rw [Store.child_apply, hget]
  cases hg : (s.space n).members.get? name with
  | none =>
    rw [hg] at hbelow
    have hlt : s.count .space < hi.count .space := by
      have hle := hbelow .space
      rw [Store.count_updateSpace, Store.count_addSpace, if_pos rfl] at hle
      exact hle
    have hnext : σ.space ⟨s.spaces.size⟩ = ⟨s'.spaces.size⟩ := congrArg NamespaceId.mk (h.next hσ hlt)
    have hregion : Region root a hi .space s.spaces.size := .inl ⟨h.left.below .space, hlt⟩
    have hadd : Outlined σ root root' a a' hi (Store.addSpace (s.nested n name) s).2
        (Store.addSpace (s'.nested (σ.space n) name) s').2 := by
      refine h.addSpace hσ ?_ rfl
      simp only [Store.nested, hspace]
      rfl
    refine ⟨congrArg Except.ok hnext.symm, fun c hc => ?_, ?_⟩
    · cases hc
      exact hregion
    · simp only [Option.map_none, ← hnext]
      refine hadd.updateSpace hσ hn (fun x => ?_) fun x hx => ?_
      · simp only [Namespace.rename, Table.rename_push]
        rfl
      · simp only [Table.symbols_push, List.mem_append, List.mem_singleton] at hx
        rcases hx with hx | rfl
        · exact hadd.nested n hn x hx
        · exact hregion
  | some x =>
    cases x with
    | space m =>
      refine ⟨rfl, fun c hc => ?_, h⟩
      cases hc
      exact h.nested n hn _ (List.mem_map.mpr ⟨_, Table.get?_mem hg, rfl⟩)
    | _ =>
      refine ⟨rfl, fun c hc => ?_, h⟩
      cases hc

end Outlined

end Weft
