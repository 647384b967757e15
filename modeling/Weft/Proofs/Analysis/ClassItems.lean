import Weft.Proofs.Analysis.Linking
import Weft.Proofs.Analysis.TrustedUnits
import Weft.Proofs.Symbol.Layouts

/-!
# Classes and their declarations

The declarations of a file that is read without a problem make new symbols and change no others. Every new class comes
with a declaration that has all its methods, and its members are declared as they are written: each once, and each its
own.
-/

namespace Weft

namespace Store

/-! ## One more member -/

/-- A member was declared in a class. -/
structure Gains (s : Store) (c : ClassId) (x : Sym) (t : Store) : Prop where
  classCount : t.classes.size = s.classes.size
  funcCount : t.funcs.size = s.funcs.size
  fieldCount : t.fields.size = s.fields.size
  free : (s.cls c).members.get? (s.nameOf x) = none
  cls : t.cls c = { s.cls c with laidOut := false, members := (s.cls c).members.push (s.nameOf x) x }
  others : ∀ d, d ≠ c → t.cls d = s.cls d
  ownFunc : ∀ f, x = .func f → t.func f = { s.func f with owner := some (.cls c) }
  func : ∀ f, x ≠ .func f → t.func f = s.func f
  ownField : ∀ y, x = .field y → t.field y = { s.field y with owner := some c }
  field : ∀ y, x ≠ .field y → t.field y = s.field y

/-- A field or a method that is in the store and belongs to nothing yet. -/
inductive Unowned (s : Store) : Sym → Prop
  | func {f : FuncId} (owner : (s.func f).owner = none) (inStore : f.index < s.funcs.size) : Unowned s (.func f)
  | field {x : FieldId} (owner : (s.field x).owner = none) (inStore : x.index < s.fields.size) : Unowned s (.field x)

section Gains

variable {s t : Store} {c : ClassId} {x : Sym} {v : PUnit}

theorem Unowned.name_claimed (hx : s.Unowned x) : (s.claimed c x).nameOf x = s.nameOf x := by
  cases hx with
  | func =>
    change ((updateFunc _ _ s).2.func _).name = _
    rw [func_updateFunc]
    split <;> rfl
  | field =>
    change ((updateField _ _ s).2.field _).name = _
    rw [field_updateField]
    split <;> rfl

/-- A member whose name is free is declared. -/
theorem Unowned.gains (hx : s.Unowned x) (hc : c.index < s.classes.size) (hok : (defineMember c x s).1 = .ok v) :
    s.Gains c x (defineMember c x s).2 := by
  have hclaimed : ∀ d, (s.claimed c x).cls d = if c = d ∧ d.index < s.classes.size then { s.cls d with laidOut := false }
      else s.cls d := by
    cases hx <;> exact fun d => cls_updateClass
  have hsize : (s.claimed c x).classes.size = s.classes.size := by
    cases hx <;> exact Array.size_modify ..
  have hfuncs : (s.claimed c x).funcs.size = s.funcs.size := by
    cases hx
    · exact Array.size_modify ..
    · rfl
  have hfields : (s.claimed c x).fields.size = s.fields.size := by
    cases hx
    · rfl
    · exact Array.size_modify ..
  have hmembers : ((s.claimed c x).cls c).members = (s.cls c).members := by
    rw [hclaimed, if_pos ⟨rfl, hc⟩]
  rw [defineMember_apply, hx.name_claimed, hmembers] at hok ⊢
  cases hdef : (s.cls c).members.define (s.nameOf x) x with
  | error e =>
    rw [hdef] at hok
    cases hok
  | ok t =>
    obtain ⟨hfree, rfl⟩ := Table.define_ok hdef
    refine ⟨(Array.size_modify ..).trans hsize, hfuncs, hfields, hfree, ?_, fun d hd => ?_, ?_, ?_, ?_, ?_⟩
    · change (updateClass c _ (s.claimed c x)).2.cls c = _
      rw [cls_updateClass, if_pos ⟨rfl, hsize ▸ hc⟩, hclaimed, if_pos ⟨rfl, hc⟩]
    · change (updateClass c _ (s.claimed c x)).2.cls d = _
      rw [cls_updateClass, if_neg fun heq => hd heq.1.symm, hclaimed, if_neg fun heq => hd heq.1.symm]
    · rintro f rfl
      cases hx with
      | func _ hlt =>
        change (updateFunc f ({ · with owner := some (.cls c) }) s).2.func f = _
        rw [func_updateFunc, if_pos ⟨rfl, hlt⟩]
    · intro f hf
      cases hx with
      | @func g =>
        change (updateFunc g ({ · with owner := some (.cls c) }) s).2.func f = _
        rw [func_updateFunc, if_neg]
        exact fun heq => hf (congrArg Sym.func heq.1)
      | field => rfl
    · rintro y rfl
      cases hx with
      | field _ hlt =>
        change (updateField y ({ · with owner := some c }) s).2.field y = _
        rw [field_updateField, if_pos ⟨rfl, hlt⟩]
    · intro y hy
      cases hx with
      | func => rfl
      | @field z =>
        change (updateField z ({ · with owner := some c }) s).2.field y = _
        rw [field_updateField, if_neg]
        exact fun heq => hy (congrArg Sym.field heq.1)

theorem Gains.symbols (h : s.Gains c x t) : (t.cls c).members.symbols = (s.cls c).members.symbols ++ [x] := by
  rw [h.cls]
  exact Table.symbols_push _ _ _

/-- A class with one more member that belonged to nothing. -/
theorem Gains.declared (h : s.Gains c x t) (hx : s.Unowned x) (hd : s.Declared c) : t.Declared c := by
  have hnew : x ∉ (s.cls c).members.symbols := by
    cases hx with
    | func howner => exact hd.toHouses.func_notMem howner
    | field howner => exact hd.toHouses.field_notMem howner
  have hname : ∀ f, (t.func f).name = (s.func f).name := by
    intro f
    by_cases hxf : x = .func f
    · rw [h.ownFunc f hxf]
    · rw [h.func f hxf]
  have hentries : (t.cls c).members.entries = (s.cls c).members.entries ++ [(s.nameOf x, x)] := by
    rw [h.cls]
    rfl
  refine ⟨⟨fun f hf => ?_, fun y hy => ?_, ?_⟩, ?_, ?_⟩
  · by_cases hxf : x = .func f
    · rw [h.ownFunc f hxf]
    · rw [h.symbols, List.mem_append, List.mem_singleton] at hf
      rw [h.func f hxf, hd.funcs f (hf.resolve_right fun heq => hxf heq.symm)]
  · by_cases hxy : x = .field y
    · rw [h.ownField y hxy]
    · rw [h.symbols, List.mem_append, List.mem_singleton] at hy
      rw [h.field y hxy, hd.fields y (hy.resolve_right fun heq => hxy heq.symm)]
  · rw [h.symbols, List.nodup_append]
    refine ⟨hd.nodup, List.nodup_singleton x, fun y hy z hz heq => ?_⟩
    rw [List.mem_singleton.mp hz] at heq
    exact hnew (heq ▸ hy)
  · intro n f he
    rw [hentries, List.mem_append, List.mem_singleton] at he
    rw [hname]
    rcases he with he | he
    · exact hd.names n f he
    · cases he
      rfl
  · have hfree := h.free
    rw [Table.get?, List.lookup_eq_none_iff] at hfree
    rw [hentries, List.map_append, List.nodup_append]
    refine ⟨hd.keys, List.nodup_singleton _, fun n hn m hm heq => ?_⟩
    obtain ⟨e, he, rfl⟩ := List.mem_map.mp hn
    rw [List.map_singleton, List.mem_singleton] at hm
    exact absurd (hfree e he) (by simp [heq, hm])

end Gains

end Store

namespace Analysis

open Store (Declared)

/-! ## New symbols -/

/-- A declaration of a class that has all its methods. -/
def Item.Lists (s : Store) (c : ClassId) : Item → Prop
  | .cls _ _ d ms => d = c ∧ ∀ f, .func f ∈ (s.cls c).members.symbols → ∃ m ∈ ms, m.symbol = f
  | _ => False

/-- The class and the functions and methods of a declaration are not in a store yet. -/
structure Item.After (s : Store) (i : Item) : Prop where
  cls : ∀ sc d c ms, i = .cls sc d c ms → s.classes.size ≤ c.index
  methods : ∀ m ∈ i.methods, s.funcs.size ≤ m.symbol.index

/-- The classes, functions and fields of a store are in another one as they were. -/
structure Stays (s s' : Store) : Prop where
  classCount : s.classes.size ≤ s'.classes.size
  funcCount : s.funcs.size ≤ s'.funcs.size
  fieldCount : s.fields.size ≤ s'.fields.size
  cls : ∀ c : ClassId, c.index < s.classes.size → s'.cls c = s.cls c
  func : ∀ f : FuncId, f.index < s.funcs.size → s'.func f = s.func f
  field : ∀ x : FieldId, x.index < s.fields.size → s'.field x = s.field x

/-- Symbols were declared, the classes among them with their declarations. -/
structure Adds (s s' : Store) (items : List Item) : Prop where
  stays : Stays s s'
  super : ∀ c : ClassId, s.classes.size ≤ c.index → (s'.cls c).super = none
  laidOut : ∀ c : ClassId, s.classes.size ≤ c.index → (s'.cls c).laidOut = false
  declared : ∀ c : ClassId, s.classes.size ≤ c.index → s'.Declared c
  listed : ∀ c : ClassId, s.classes.size ≤ c.index → c.index < s'.classes.size → ∃ i ∈ items, i.Lists s' c
  after : ∀ i ∈ items, i.After s
  within : ∀ i ∈ items, ∀ m ∈ i.methods, m.symbol.index < s'.funcs.size

section Adds

variable {s s' s'' : Store} {items items' : List Item} {c : ClassId}

theorem Stays.refl (s : Store) : Stays s s :=
  ⟨Nat.le_refl _, Nat.le_refl _, Nat.le_refl _, fun _ _ => rfl, fun _ _ => rfl, fun _ _ => rfl⟩

theorem Stays.trans (h : Stays s s') (h' : Stays s' s'') : Stays s s'' where
  classCount := h.classCount.trans h'.classCount
  funcCount := h.funcCount.trans h'.funcCount
  fieldCount := h.fieldCount.trans h'.fieldCount
  cls c hc := (h'.cls c (Nat.lt_of_lt_of_le hc h.classCount)).trans (h.cls c hc)
  func f hf := (h'.func f (Nat.lt_of_lt_of_le hf h.funcCount)).trans (h.func f hf)
  field x hx := (h'.field x (Nat.lt_of_lt_of_le hx h.fieldCount)).trans (h.field x hx)

/-- A class declares what it declared, as long as its members are still there. -/
theorem Stays.declared (h : Stays s s') (hmembers : (s'.cls c).members = (s.cls c).members) (hd : s.Declared c) :
    s'.Declared c := by
  have hfunc : ∀ f, .func f ∈ (s.cls c).members.symbols → s'.func f = s.func f :=
    fun f hf => h.func f (Store.func_inRange (hd.funcs f hf))
  refine ⟨hd.toHouses.congr hmembers (fun f hf => by rw [hfunc f hf]) fun x hx => ?_, fun n f he => ?_,
    hmembers ▸ hd.keys⟩
  · rw [h.field x (Store.field_inRange (hd.fields x hx))]
  · rw [hmembers] at he
    rw [hfunc f (List.mem_map.mpr ⟨_, he, rfl⟩), hd.names n f he]

theorem declared_of_size_le (hc : s.classes.size ≤ c.index) : s.Declared c := by
  have hentries : (s.cls c).members.entries = [] := by
    rw [Store.cls_of_size_le hc]
    rfl
  have hsymbols : (s.cls c).members.symbols = [] := by rw [Table.symbols, hentries, List.map_nil]
  refine ⟨⟨?_, ?_, ?_⟩, ?_, ?_⟩ <;> simp [hentries, hsymbols]

theorem Adds.trans (h : Adds s s' items) (h' : Adds s' s'' items') : Adds s s'' (items ++ items') := by
  refine ⟨h.stays.trans h'.stays, fun c hc => ?_, fun c hc => ?_, fun c hc => ?_, fun c hc hlt => ?_, fun i hi => ?_,
    fun i hi m hm => ?_⟩
  · by_cases hlt : c.index < s'.classes.size
    · rw [h'.stays.cls c hlt, h.super c hc]
    · exact h'.super c (by omega)
  · by_cases hlt : c.index < s'.classes.size
    · rw [h'.stays.cls c hlt, h.laidOut c hc]
    · exact h'.laidOut c (by omega)
  · by_cases hlt : c.index < s'.classes.size
    · exact h'.stays.declared (by rw [h'.stays.cls c hlt]) (h.declared c hc)
    · exact h'.declared c (by omega)
  · by_cases hlt' : c.index < s'.classes.size
    · obtain ⟨i, hi, hlists⟩ := h.listed c hc hlt'
      refine ⟨i, List.mem_append_left _ hi, ?_⟩
      cases i with
      | cls sc d b ms =>
        rw [Item.Lists, h'.stays.cls c hlt']
        exact hlists
      | _ => exact hlists
    · obtain ⟨i, hi, hlists⟩ := h'.listed c (by omega) hlt
      exact ⟨i, List.mem_append_right _ hi, hlists⟩
  · rcases List.mem_append.mp hi with hi | hi
    · exact h.after i hi
    · have hnew := h'.after i hi
      exact ⟨fun sc d c ms heq => h.stays.classCount.trans (hnew.cls sc d c ms heq),
        fun m hm => h.stays.funcCount.trans (hnew.methods m hm)⟩
  · rcases List.mem_append.mp hi with hi | hi
    · exact Nat.lt_of_lt_of_le (h.within i hi m hm) h'.stays.funcCount
    · exact h'.within i hi m hm

/-- Without new classes. -/
theorem Adds.ofClasses (h : Stays s s') (hsize : s'.classes.size = s.classes.size) (hafter : ∀ i ∈ items, i.After s)
    (hwithin : ∀ i ∈ items, ∀ m ∈ i.methods, m.symbol.index < s'.funcs.size) : Adds s s' items := by
  have hdefault : ∀ {c : ClassId}, s.classes.size ≤ c.index → s'.cls c = default :=
    fun hc => Store.cls_of_size_le (hsize ▸ hc)
  refine ⟨h, fun c hc => ?_, fun c hc => ?_, fun c hc => declared_of_size_le (hsize ▸ hc), fun c hc hlt => ?_, hafter,
    hwithin⟩
  · rw [hdefault hc]
    rfl
  · rw [hdefault hc]
    rfl
  · exact absurd (hsize ▸ hlt) (Nat.not_lt_of_le hc)

end Adds

/-! ## Classes that are being declared -/

/-- A class is new, and some of its methods are declared. -/
structure Building (s₀ : Store) (c : ClassId) (s : Store) (fs : List FuncId) : Prop where
  id : c.index = s₀.classes.size
  classCount : s.classes.size = s₀.classes.size + 1
  stays : Stays s₀ s
  super : (s.cls c).super = none
  laidOut : (s.cls c).laidOut = false
  declared : s.Declared c
  methods : ∀ f, .func f ∈ (s.cls c).members.symbols → f ∈ fs
  after : ∀ f ∈ fs, s₀.funcs.size ≤ f.index
  within : ∀ f ∈ fs, f.index < s.funcs.size

section Building

variable {s₀ s s' : Store} {c : ClassId} {fs : List FuncId}

/-- Nothing changes for the class when other symbols are made. -/
theorem Building.stays_on (h : Building s₀ c s fs) (hs : Stays s s') (hsize : s'.classes.size = s.classes.size) :
    Building s₀ c s' fs := by
  have hcls : s'.cls c = s.cls c := hs.cls c (by rw [h.classCount, h.id]; omega)
  refine ⟨h.id, hsize.trans h.classCount, h.stays.trans hs, ?_, ?_, hs.declared (by rw [hcls]) h.declared, ?_, h.after,
    fun f hf => Nat.lt_of_lt_of_le (h.within f hf) hs.funcCount⟩
  · rw [hcls, h.super]
  · rw [hcls, h.laidOut]
  · rw [hcls]
    exact h.methods

/-- The class gets one more member, which is a new symbol. -/
theorem Building.gains (h : Building s₀ c s fs) {x : Sym} (hx : s.Unowned x) (hg : s.Gains c x s')
    (hfunc : ∀ f, x = .func f → s₀.funcs.size ≤ f.index) (hfield : ∀ y, x = .field y → s₀.fields.size ≤ y.index) :
    Building s₀ c s' (fs ++ Store.methodsIn [x]) := by
  refine ⟨h.id, hg.classCount.trans h.classCount, ?_, ?_, ?_, hg.declared hx h.declared, fun f hf => ?_, fun f hf => ?_,
    fun f hf => ?_⟩
  · refine ⟨hg.classCount ▸ h.stays.classCount, hg.funcCount ▸ h.stays.funcCount, hg.fieldCount ▸ h.stays.fieldCount,
      fun d hd => ?_, fun f hf => ?_, fun y hy => ?_⟩
    · have hdc : d ≠ c := by
        rintro rfl
        exact absurd h.id (by omega)
      rw [hg.others d hdc, h.stays.cls d hd]
    · rw [hg.func f fun heq => absurd (hfunc f heq) (by omega), h.stays.func f hf]
    · rw [hg.field y fun heq => absurd (hfield y heq) (by omega), h.stays.field y hy]
  · rw [hg.cls]
    exact h.super
  · rw [hg.cls]
  · rw [hg.symbols, List.mem_append] at hf
    rw [List.mem_append, Store.mem_methodsIn]
    exact hf.imp_left (h.methods f)
  · rw [List.mem_append, Store.mem_methodsIn, List.mem_singleton] at hf
    exact hf.elim (h.after f) fun heq => hfunc f heq.symm
  · rw [List.mem_append, Store.mem_methodsIn, List.mem_singleton] at hf
    rw [hg.funcCount]
    rcases hf with hf | rfl
    · exact h.within f hf
    · cases hx
      assumption

/-- A class that is declared comes with its declaration. -/
theorem Building.adds (h : Building s₀ c s fs) {sc : Scope} {d : Tree.ClassDecl} {ms : List Method}
    (hms : ms.map (·.symbol) = fs) : Adds s₀ s [.cls sc d c ms] := by
  have hcases : ∀ {b : ClassId}, s₀.classes.size ≤ b.index → b = c ∨ s.classes.size ≤ b.index := by
    intro b hb
    rw [h.classCount]
    by_cases heq : b.index = c.index
    · exact .inl (congrArg ClassId.mk heq)
    · have hid := h.id
      exact .inr (by omega)
  refine ⟨h.stays, fun b hb => ?_, fun b hb => ?_, fun b hb => ?_, fun b hb hlt => ?_, fun i hi => ?_, fun i hi m hm => ?_⟩
  · rcases hcases hb with rfl | hb
    · exact h.super
    · rw [Store.cls_of_size_le hb]
      rfl
  · rcases hcases hb with rfl | hb
    · exact h.laidOut
    · rw [Store.cls_of_size_le hb]
      rfl
  · rcases hcases hb with rfl | hb
    · exact h.declared
    · exact declared_of_size_le hb
  · obtain rfl := (hcases hb).resolve_right (Nat.not_le_of_lt hlt)
    refine ⟨_, List.mem_cons_self, rfl, fun f hf => ?_⟩
    obtain ⟨m, hm, heq⟩ := List.mem_map.mp (hms ▸ h.methods f hf)
    exact ⟨m, hm, heq⟩
  · obtain rfl := List.mem_singleton.mp hi
    refine ⟨fun sc d b ms heq => ?_, fun m hm => h.after _ (hms ▸ List.mem_map_of_mem hm)⟩
    cases heq
    exact h.id.ge
  · obtain rfl := List.mem_singleton.mp hi
    exact h.within _ (hms ▸ List.mem_map_of_mem hm)

end Building

/-! ## Steps of an outline -/

/-- No class, function or field is made or changed. -/
structure Idle (s s' : Store) : Prop where
  classes : s'.classes = s.classes
  funcs : s'.funcs = s.funcs
  fields : s'.fields = s.fields

instance : Std.Refl Idle := ⟨fun _ => ⟨rfl, rfl, rfl⟩⟩

instance : IsTrans Store Idle :=
  ⟨fun _ _ _ h h' => ⟨h'.classes.trans h.classes, h'.funcs.trans h.funcs, h'.fields.trans h.fields⟩⟩

theorem scopeMoves_idle : ScopeMoves Idle where
  addSpace _ _ := ⟨rfl, rfl, rfl⟩
  addGlobal _ _ := ⟨rfl, rfl, rfl⟩
  addEnum _ _ := ⟨rfl, rfl, rfl⟩
  updateSpace _ _ _ := ⟨rfl, rfl, rfl⟩
  updateGlobal _ _ _ := ⟨rfl, rfl, rfl⟩
  updateEnum _ _ _ := ⟨rfl, rfl, rfl⟩

section Outline

variable {s s' : Store} {pl : Place} {st st' : State}

theorem Idle.stays (h : Idle s s') : Stays s s' where
  classCount := by rw [h.classes]
  funcCount := by rw [h.funcs]
  fieldCount := by rw [h.fields]
  cls c _ := by rw [Store.cls, Store.cls, h.classes]
  func f _ := by rw [Store.func, Store.func, h.funcs]
  field x _ := by rw [Store.field, Store.field, h.fields]

theorem Idle.adds (h : Idle s s') : Adds s s' [] := .ofClasses h.stays (by rw [h.classes]) (by simp) (by simp)

theorem Adds.idle {s'' : Store} {items : List Item} (h : Adds s s' items) (hi : Idle s' s'') : Adds s s'' items := by
  simpa using h.trans hi.adds

theorem Idle.classCount (h : Idle s s') : s'.classes.size = s.classes.size := by rw [h.classes]

theorem size_addFunc {x : Func} : (Store.addFunc x s).2.funcs.size = s.funcs.size + 1 := Array.size_push _

theorem stays_addFunc {x : Func} : Stays s (Store.addFunc x s).2 :=
  { Stays.refl s with
    funcCount := size_addFunc.symm ▸ Nat.le_succ _
    func := fun f hf => by rw [Store.func_addFunc, if_neg (by omega)] }

theorem stays_addField {x : Field} : Stays s (Store.addField x s).2 :=
  { Stays.refl s with
    fieldCount := by
      change s.fields.size ≤ (s.fields.push x).size
      rw [Array.size_push]
      omega
    field := fun y hy => by rw [Store.field_addField, if_neg (by omega)] }

theorem stays_addClass {x : Class} : Stays s (Store.addClass x s).2 :=
  { Stays.refl s with
    classCount := by
      change s.classes.size ≤ (s.classes.push x).size
      rw [Array.size_push]
      omega
    cls := fun c hc => by rw [Store.cls_addClass, if_neg (by omega)] }

/-- A new function may be changed. -/
theorem Stays.updateFunc (h : Stays s s') {f : FuncId} (hf : s.funcs.size ≤ f.index) {change : Func → Func} :
    Stays s (Store.updateFunc f change s').2 :=
  { h with
    funcCount := by
      change s.funcs.size ≤ (s'.funcs.modify f.index change).size
      rw [Array.size_modify]
      exact h.funcCount
    func := fun g hg => by
      rw [Store.func_updateFunc, if_neg, h.func g hg]
      rintro ⟨rfl, -⟩
      omega }

/-- A new function becomes a method of an interface. -/
theorem Stays.defineSignature (h : Stays s s') {f : FuncId} (hf : s.funcs.size ≤ f.index) (i : InterfaceId) :
    Stays s (Store.defineSignature i f s').2 ∧ (Store.defineSignature i f s').2.classes.size = s'.classes.size ∧
      (Store.defineSignature i f s').2.funcs.size = s'.funcs.size := by
  have hsigning : Stays s (s'.signing i f) := h.updateFunc hf
  have hsize : (s'.signing i f).funcs.size = s'.funcs.size := Array.size_modify ..
  rw [Store.defineSignature_apply]
  split
  · exact ⟨⟨hsigning.1, hsigning.2, hsigning.3, hsigning.4, hsigning.5, hsigning.6⟩, rfl, hsize⟩
  · exact ⟨hsigning, rfl, hsize⟩

theorem accepts_unique {span : Span} {m : Symbols (Except AlreadyDefined PUnit)} {b : Bool} :
    Accepts (unique span m) pl st b st' ↔
      b = true ∧ (∃ v, (m st.store).1 = .ok v) ∧ st' = { st with store := (m st.store).2 } := by
  rw [unique, accepts_bind]
  constructor
  · rintro ⟨r, st₁, hr, h⟩
    obtain ⟨rfl, rfl⟩ := accepts_symbols.mp hr
    split at h
    · next v hv =>
      obtain ⟨rfl, rfl⟩ := accepts_pure.mp h
      exact ⟨rfl, ⟨v, hv⟩, rfl⟩
    · simp at h
  · rintro ⟨rfl, ⟨v, hv⟩, rfl⟩
    refine ⟨_, _, accepts_symbols.mpr ⟨rfl, rfl⟩, ?_⟩
    rw [hv]
    exact accepts_pure.mpr ⟨rfl, rfl⟩

theorem Moves.accepted {R : Store → Store → Prop} {α : Type} {m : Analysis α} (h : Moves R m) {a : α}
    (ha : Accepts m pl st a st') : R st.store st'.store := by
  have hmoves := h pl st
  rwa [show m pl st = _ from ha] at hmoves

theorem adds_outlineFunc {module : String} {sc : Scope} {d : Tree.FuncDecl} {r : Option Item}
    (h : Accepts (outlineFunc module sc d) pl st r st') : Adds st.store st'.store r.toList := by
  simp only [outlineFunc, accepts_guard, accepts_store_bind] at h
  obtain ⟨f, st₁, hf, h⟩ := accepts_bind.mp h.2
  obtain ⟨rfl, rfl⟩ := accepts_symbols.mp hf
  obtain ⟨ok, st₂, hok, h⟩ := accepts_bind.mp h
  obtain ⟨rfl, -, rfl⟩ := accepts_unique.mp hok
  rw [if_pos rfl] at h
  obtain ⟨rfl, rfl⟩ := accepts_pure.mp h
  refine (Adds.ofClasses stays_addFunc rfl (fun i hi => ?_) fun i hi m hm => ?_).idle (moves_define scopeMoves_idle _)
  · obtain rfl := List.mem_singleton.mp hi
    refine ⟨fun sc d c ms h => ?_, fun m hm => ?_⟩
    · cases h
    · rw [List.mem_singleton.mp hm]
      exact Nat.le_refl _
  · obtain rfl := List.mem_singleton.mp hi
    rw [List.mem_singleton.mp hm]
    exact size_addFunc.symm ▸ Nat.lt_succ_self _

/-- A new class has no members. -/
theorem Building.start {x : Class} (hsuper : x.super = none) (hlaidOut : x.laidOut = false)
    (hmembers : x.members = .empty) : Building s ⟨s.classes.size⟩ (Store.addClass x s).2 [] := by
  have hcls : (Store.addClass x s).2.cls ⟨s.classes.size⟩ = x := by rw [Store.cls_addClass, if_pos rfl]
  have hentries : ((Store.addClass x s).2.cls ⟨s.classes.size⟩).members.entries = [] := by
    rw [hcls, hmembers]
    rfl
  have hsymbols : ((Store.addClass x s).2.cls ⟨s.classes.size⟩).members.symbols = [] := by
    rw [Table.symbols, hentries, List.map_nil]
  refine ⟨rfl, Array.size_push .., stays_addClass, by rw [hcls, hsuper], by rw [hcls, hlaidOut], ⟨⟨?_, ?_, ?_⟩, ?_, ?_⟩,
    ?_, ?_, ?_⟩ <;> simp [hentries, hsymbols]

/-- A new field is declared in the class. -/
theorem Building.field {s₀ : Store} {c : ClassId} {fs : List FuncId} {span : Span} {x : Field} {y : FieldId} {b : Bool}
    {st₁ : State} (hb : Building s₀ c st.store fs) (hx : x.owner = none)
    (hy : Accepts (symbols (Store.addField x)) pl st y st₁)
    (h : Accepts (unique span (Store.defineMember c (.field y))) pl st₁ b st') : Building s₀ c st'.store fs := by
  obtain ⟨rfl, rfl⟩ := accepts_symbols.mp hy
  obtain ⟨-, ⟨v, hv⟩, rfl⟩ := accepts_unique.mp h
  have hadded := hb.stays_on (stays_addField (x := x)) rfl
  have hnew : (Store.addField x st.store).2.Unowned (.field ⟨st.store.fields.size⟩) := by
    refine .field ?_ ?_
    · rw [Store.field_addField, if_pos rfl]
      exact hx
    · change st.store.fields.size < (st.store.fields.push x).size
      rw [Array.size_push]
      exact Nat.lt_succ_self _
  have hc : c.index < (Store.addField x st.store).2.classes.size := by rw [hadded.classCount, hadded.id]; omega
  have hgained := hadded.gains hnew (hnew.gains hc hv) nofun fun z hz => by
    cases hz
    exact hb.stays.fieldCount
  exact List.append_nil fs ▸ hgained

/-- A new method is declared in the class. -/
theorem Building.method {s₀ : Store} {c : ClassId} {fs : List FuncId} {span : Span} {x : Func} {f : FuncId} {b : Bool}
    {st₁ : State} (hb : Building s₀ c st.store fs) (hx : x.owner = none)
    (hf : Accepts (symbols (Store.addFunc x)) pl st f st₁)
    (h : Accepts (unique span (Store.defineMember c (.func f))) pl st₁ b st') :
    b = true ∧ Building s₀ c st'.store (fs ++ [f]) := by
  obtain ⟨rfl, rfl⟩ := accepts_symbols.mp hf
  obtain ⟨rfl, ⟨v, hv⟩, rfl⟩ := accepts_unique.mp h
  have hadded := hb.stays_on (stays_addFunc (x := x)) rfl
  have hnew : (Store.addFunc x st.store).2.Unowned (.func ⟨st.store.funcs.size⟩) := by
    refine .func ?_ ?_
    · rw [Store.func_addFunc, if_pos rfl]
      exact hx
    · exact size_addFunc.symm ▸ Nat.lt_succ_self _
  have hc : c.index < (Store.addFunc x st.store).2.classes.size := by rw [hadded.classCount, hadded.id]; omega
  refine ⟨rfl, hadded.gains hnew (hnew.gains hc hv) (fun g hg => ?_) nofun⟩
  cases hg
  exact hb.stays.funcCount

theorem Building.outlineMethods {s₀ : Store} {c : ClassId} {fs : List FuncId} {module path : String}
    {ds : List Tree.FuncDecl} {ms : List Method} (hb : Building s₀ c st.store fs)
    (h : Accepts (Analysis.outlineMethods module path c ds) pl st ms st') :
    Building s₀ c st'.store (fs ++ ms.map (·.symbol)) := by
  induction ds generalizing st ms fs with
  | nil =>
    obtain ⟨rfl, rfl⟩ := accepts_pure.mp h
    simpa using hb
  | cons d ds ih =>
    simp only [Analysis.outlineMethods, accepts_guard] at h
    obtain ⟨f, st₁, hf, h⟩ := accepts_bind.mp h.2
    obtain ⟨ok, st₂, hok, h⟩ := accepts_bind.mp h
    obtain ⟨more, st₃, hmore, h⟩ := accepts_bind.mp h
    obtain ⟨rfl, rfl⟩ := accepts_pure.mp h
    obtain ⟨rfl, hnext⟩ := hb.method rfl hf hok
    simpa using ih hnext hmore

theorem adds_outlineClass {module : String} {sc : Scope} {d : Tree.ClassDecl} {r : Option Item}
    (h : Accepts (outlineClass module sc d) pl st r st') : Adds st.store st'.store r.toList := by
  simp only [outlineClass, accepts_store_bind] at h
  obtain ⟨c, st₁, hc, h⟩ := accepts_bind.mp h
  obtain ⟨rfl, rfl⟩ := accepts_symbols.mp hc
  obtain ⟨ok, st₂, hok, h⟩ := accepts_bind.mp h
  obtain ⟨rfl, -, rfl⟩ := accepts_unique.mp hok
  rw [if_pos rfl] at h
  obtain ⟨_, st₃, hfields, h⟩ := accepts_bind.mp h
  obtain ⟨ms, st₄, hms, h⟩ := accepts_bind.mp h
  obtain ⟨rfl, rfl⟩ := accepts_pure.mp h
  have hidle : ∀ s, Idle s (Store.define sc.own (.cls ⟨st.store.classes.size⟩) s).2 := moves_define scopeMoves_idle
  have hloop := accepts_forM
    (R := fun st₁ st₂ => Building st.store ⟨st.store.classes.size⟩ st₁.store [] →
      Building st.store ⟨st.store.classes.size⟩ st₂.store [])
    (fun _ => id) (fun h h' hb => h' (h hb)) (fun f st₁ st₂ h hb => by
      obtain ⟨y, st₃, hy, h⟩ := accepts_bind.mp h
      obtain ⟨ok, st₄, hok, h⟩ := accepts_bind.mp h
      obtain ⟨-, rfl⟩ := accepts_pure.mp h
      exact hb.field rfl hy hok) hfields
    ((Building.start rfl rfl rfl).stays_on (hidle _).stays (hidle _).classCount)
  exact (hloop.outlineMethods hms).adds rfl

/-- New methods of an interface. -/
theorem outlined_signatures {module path : String} {i : InterfaceId} {ds : List Tree.FuncDecl} {ms : List Method}
    (h : Accepts (outlineSignatures module path i ds) pl st ms st') :
    Stays st.store st'.store ∧ st'.store.classes.size = st.store.classes.size ∧
      ∀ m ∈ ms, st.store.funcs.size ≤ m.symbol.index ∧ m.symbol.index < st'.store.funcs.size := by
  induction ds generalizing st ms with
  | nil =>
    obtain ⟨rfl, rfl⟩ := accepts_pure.mp h
    exact ⟨.refl _, rfl, by simp⟩
  | cons d ds ih =>
    simp only [outlineSignatures] at h
    obtain ⟨f, st₁, hf, h⟩ := accepts_bind.mp h
    obtain ⟨rfl, rfl⟩ := accepts_symbols.mp hf
    obtain ⟨ok, st₂, hok, h⟩ := accepts_bind.mp h
    obtain ⟨rfl, -, rfl⟩ := accepts_unique.mp hok
    obtain ⟨more, st₃, hmore, h⟩ := accepts_bind.mp h
    obtain ⟨rfl, rfl⟩ := accepts_pure.mp h
    obtain ⟨hsigned, hsize, hcount⟩ := stays_addFunc.defineSignature (Nat.le_refl _) i
    obtain ⟨hmore, hsize', hnew⟩ := ih hmore
    refine ⟨hsigned.trans hmore, hsize'.trans hsize, fun m hm => ?_⟩
    rcases List.mem_cons.mp hm with rfl | hm
    · have hlt := Nat.lt_of_lt_of_eq (Nat.lt_succ_self _) (hcount.trans size_addFunc).symm
      exact ⟨Nat.le_refl _, Nat.lt_of_lt_of_le hlt hmore.funcCount⟩
    · exact ⟨hsigned.funcCount.trans (hnew m hm).1, (hnew m hm).2⟩

theorem idle_declared {x : Interface} {n : NamespaceId} {sym : Sym} :
    Idle s (Store.define n sym (Store.addInterface x s).2).2 :=
  IsTrans.trans _ _ _ (show Idle s (Store.addInterface x s).2 from ⟨rfl, rfl, rfl⟩) (moves_define scopeMoves_idle _)

theorem adds_outlineInterface {module : String} {sc : Scope} {d : Tree.InterfaceDecl} {r : Option Item}
    (h : Accepts (outlineInterface module sc d) pl st r st') : Adds st.store st'.store r.toList := by
  simp only [outlineInterface, accepts_store_bind] at h
  obtain ⟨i, st₁, hi, h⟩ := accepts_bind.mp h
  obtain ⟨rfl, rfl⟩ := accepts_symbols.mp hi
  obtain ⟨ok, st₂, hok, h⟩ := accepts_bind.mp h
  obtain ⟨rfl, -, rfl⟩ := accepts_unique.mp hok
  rw [if_pos rfl] at h
  obtain ⟨ms, st₃, hms, h⟩ := accepts_bind.mp h
  obtain ⟨rfl, rfl⟩ := accepts_pure.mp h
  obtain ⟨hstays, hsize, hnew⟩ := outlined_signatures hms
  refine .ofClasses (idle_declared.stays.trans hstays) (hsize.trans idle_declared.classCount) (fun i hi => ?_)
    fun i hi m hm => ?_
  · obtain rfl := List.mem_singleton.mp hi
    exact ⟨nofun, fun m hm => idle_declared.stays.funcCount.trans (hnew m hm).1⟩
  · obtain rfl := List.mem_singleton.mp hi
    exact (hnew m hm).2

theorem adds_outlineGlobal {sc : Scope} {d : Tree.VarDecl} {r : Option Item}
    (h : Accepts (outlineGlobal sc d) pl st r st') : Adds st.store st'.store r.toList := by
  have hidle : Idle st.store st'.store := (moves_outlineGlobal scopeMoves_idle).accepted h
  have hglobal : ∀ i ∈ r.toList, ∃ sc d t g x, i = .global sc d t g x := by
    intro i hi
    unfold outlineGlobal at h
    split at h
    · simp at h
    · simp only [accepts_store_bind] at h
      obtain ⟨g, st₁, -, h⟩ := accepts_bind.mp h
      obtain ⟨ok, st₂, -, h⟩ := accepts_bind.mp h
      split at h
      · obtain ⟨rfl, rfl⟩ := accepts_pure.mp h
        exact ⟨_, _, _, _, _, List.mem_singleton.mp hi⟩
      · obtain ⟨rfl, rfl⟩ := accepts_pure.mp h
        cases hi
    · simp at h
  refine .ofClasses hidle.stays hidle.classCount (fun i hi => ?_) fun i hi => ?_
  · obtain ⟨_, _, _, _, _, rfl⟩ := hglobal i hi
    refine ⟨fun sc d c ms h => ?_, fun m hm => ?_⟩
    · cases h
    · cases hm
  · obtain ⟨_, _, _, _, _, rfl⟩ := hglobal i hi
    intro m hm
    cases hm

mutual

theorem adds_outlineDecl {module : String} {sc : Scope} {st st' : State} : (d : Tree.Decl) → {r : List Item} →
    Accepts (outlineDecl module sc d) pl st r st' → Adds st.store st'.store r
  | .space span path decls, r, h => by
    rw [outlineDecl] at h
    obtain ⟨n, st₁, hn, h⟩ := accepts_bind.mp h
    have hspace : Idle st.store st₁.store := (moves_childSpace scopeMoves_idle).accepted hn
    split at h
    · obtain ⟨rfl, rfl⟩ := accepts_pure.mp h
      exact hspace.adds
    · exact hspace.adds.trans (adds_outlineDecls decls h)
  | .func d, r, h => by
    rw [outlineDecl] at h
    obtain ⟨o, st₁, ho, h⟩ := accepts_bind.mp h
    obtain ⟨rfl, rfl⟩ := accepts_pure.mp h
    exact adds_outlineFunc ho
  | .cls d, r, h => by
    rw [outlineDecl] at h
    obtain ⟨o, st₁, ho, h⟩ := accepts_bind.mp h
    obtain ⟨rfl, rfl⟩ := accepts_pure.mp h
    exact adds_outlineClass ho
  | .iface d, r, h => by
    rw [outlineDecl] at h
    obtain ⟨o, st₁, ho, h⟩ := accepts_bind.mp h
    obtain ⟨rfl, rfl⟩ := accepts_pure.mp h
    exact adds_outlineInterface ho
  | .enumeration d, r, h => by
    rw [outlineDecl] at h
    obtain ⟨o, st₁, ho, h⟩ := accepts_bind.mp h
    obtain ⟨rfl, rfl⟩ := accepts_pure.mp h
    have hidle : Idle st.store st'.store := (moves_outlineEnum scopeMoves_idle).accepted ho
    exact hidle.adds
  | .var d, r, h => by
    rw [outlineDecl] at h
    obtain ⟨o, st₁, ho, h⟩ := accepts_bind.mp h
    obtain ⟨rfl, rfl⟩ := accepts_pure.mp h
    exact adds_outlineGlobal ho

/-- The declarations of a file add their symbols. -/
theorem adds_outlineDecls {module : String} {sc : Scope} {st st' : State} : (ds : List Tree.Decl) → {r : List Item} →
    Accepts (outlineDecls module sc ds) pl st r st' → Adds st.store st'.store r
  | [], r, h => by
    rw [outlineDecls] at h
    obtain ⟨rfl, rfl⟩ := accepts_pure.mp h
    have hidle : Idle st'.store st'.store := ⟨rfl, rfl, rfl⟩
    exact hidle.adds
  | d :: ds, r, h => by
    rw [outlineDecls] at h
    obtain ⟨items, st₁, hitems, h⟩ := accepts_bind.mp h
    obtain ⟨more, st₂, hmore, h⟩ := accepts_bind.mp h
    obtain ⟨rfl, rfl⟩ := accepts_pure.mp h
    exact (adds_outlineDecl d hitems).trans (adds_outlineDecls ds hmore)

end

end Outline

/-! ## Units -/

/-- The declarations of a unit, as far as they are analyzed. -/
def FileUnit.items (u : FileUnit) : List Item :=
  match u.source with
  | .fresh _ items _ => items
  | .cached .. => []

section Units

variable {p : Project} {us us' : List FileUnit} {u u' : FileUnit} {s s' : Store}

theorem FileUnit.items_eq {tree : Tree.File} {items : List Item} {imports : List Imported}
    (hsrc : u.source = .fresh tree items imports) : u.items = items := by rw [FileUnit.items, hsrc]

theorem goes_outline_adds (hu : u.IsFresh) (h : Goes outline u s () u' s') : Adds s s' u'.items ∧ u'.IsFresh := by
  obtain ⟨tree, items, imports, hsrc⟩ := hu
  obtain ⟨items', st, hitems, rfl, rfl⟩ := goes_outline_fresh hsrc h
  exact ⟨(adds_outlineDecls _ hitems).idle (moves_indexGlobals scopeMoves_idle _), tree, items', imports, rfl⟩

/-- The outline of all units adds the symbols of their declarations. -/
theorem sweep_outline_adds (hus : ∀ u ∈ us, u.IsFresh) (h : Sweep p .outline us s us' s') :
    Adds s s' (us'.flatMap FileUnit.items) ∧ ∀ u ∈ us', u.IsFresh := by
  induction h with
  | nil =>
    have hidle : ∀ s, Idle s s := fun _ => ⟨rfl, rfl, rfl⟩
    exact ⟨(hidle _).adds, by simp⟩
  | cons head tail ih =>
    obtain ⟨hhead, hfresh⟩ := goes_outline_adds (hus _ List.mem_cons_self) head
    obtain ⟨htail, hall⟩ := ih fun v hv => hus v (List.mem_cons_of_mem _ hv)
    exact ⟨hhead.trans htail, List.forall_mem_cons.mpr ⟨hfresh, hall⟩⟩

end Units

end Analysis

end Weft
