import Weft.Proofs.Symbol.Slots

/-!
# Laying classes out

Laying a class out gives it and its superclasses the layout that their members call for, and keeps the layout of all
other classes. The members of a class get their slots one after the other, so the invariant of the loop is the layout
of the members that are done.
-/

namespace Weft.Store

/-! ## Positions -/

section Positions

variable {α : Type} {xs : List α} {x : α} {index : α → Int} (index' : α → Int)

/-- One more entry knows its position. -/
theorem index_append (h : ∀ (i : Nat) y, xs[i]? = some y → index y = i) (hold : ∀ y ∈ xs, index' y = index y)
    (hx : index' x = xs.length) (i : Nat) (y : α) (hy : (xs ++ [x])[i]? = some y) : index' y = i := by
  rcases Nat.lt_trichotomy i xs.length with hi | rfl | hi
  · rw [List.getElem?_append_left hi] at hy
    rw [hold y (List.mem_of_getElem? hy), h i y hy]
  · rw [List.getElem?_concat_length] at hy
    exact Option.some.inj hy ▸ hx
  · rw [List.getElem?_eq_none (by rw [List.length_append, List.length_singleton]; omega)] at hy
    cases hy

/-- An entry that takes the place of another knows it. -/
theorem index_set {k : Nat} (h : ∀ (i : Nat) y, xs[i]? = some y → index y = i) (hold : ∀ y ∈ xs, index' y = index y)
    (hx : index' x = k) (i : Nat) (y : α) (hy : (xs.set k x)[i]? = some y) : index' y = i := by
  rw [List.getElem?_set] at hy
  split at hy
  · next hki =>
    split at hy
    · exact hki ▸ Option.some.inj hy ▸ hx
    · cases hy
  · rw [hold y (List.mem_of_getElem? hy), h i y hy]

end Positions

section Members

variable {s s₀ t : Store} {c : ClassId} {n : String} {f g : FuncId} {x : FieldId} {done rest : List Sym}

theorem func_inRange {o : Owner} (h : (s.func f).owner = some o) : f.index < s.funcs.size := by
  by_contra hout
  rw [func, Array.getElem?_eq_none (by omega)] at h
  cases h

theorem field_inRange (h : (s.field x).owner = some c) : x.index < s.fields.size := by
  by_contra hout
  rw [field, Array.getElem?_eq_none (by omega)] at h
  cases h

/-! ## Names among members -/

/-- The method of a name among symbols. -/
def methodNamed (s : Store) (xs : List Sym) (n : String) : Option FuncId :=
  (methodsIn xs).find? fun f => (s.func f).name = n

theorem methodNamed_append {y : FuncId} :
    s.methodNamed (done ++ [Sym.func y]) n = (s.methodNamed done n).or (if (s.func y).name = n then some y else none) := by
  rw [methodNamed, methodsIn, List.filterMap_append, List.find?_append, ← methodsIn, ← methodNamed]
  congr 1
  by_cases hn : (s.func y).name = n <;> simp [hn]

/-- A name leads to one method among all members of a class. -/
theorem Declared.methodNamed_eq (h : s.Declared c) : s.methodNamed (s.cls c).members.symbols n = s.method? c n := by
  cases hm : s.methodNamed (s.cls c).members.symbols n with
  | some f =>
    have hname : (s.func f).name = n := by simpa using List.find?_some hm
    exact (hname ▸ h.method?_of_mem (mem_methodsIn.mp (List.mem_of_find?_eq_some hm))).symm
  | none =>
    cases hf : s.method? c n with
    | none => rfl
    | some f =>
      have hno := List.find?_eq_none.mp hm f (mem_methodsIn.mpr (h.mem_of_method? hf))
      exact absurd (h.name_of_method? hf) (by simpa using hno)

/-! ## Slots for the members of a class -/

/-- A class that has the layout of its superclass and gets its own members next. -/
structure Ready (s : Store) (c : ClassId) : Prop where
  inStore : c.index < s.classes.size
  declared : s.Declared c
  fieldIndex : ∀ (i : Nat) x, (s.cls c).fields[i]? = some x → (s.field x).index = i
  methodIndex : ∀ (i : Nat) f, (s.cls c).methods[i]? = some f → (s.func f).index = i
  foreignFields : ∀ x ∈ (s.cls c).fields, .field x ∉ (s.cls c).members.symbols
  foreignMethods : ∀ f ∈ (s.cls c).methods, .func f ∉ (s.cls c).members.symbols
  inherited : ∀ f, .func f ∈ (s.cls c).members.symbols → ∀ g,
    s.inheritedMethod? c (s.func f).name = some g ↔ g ∈ (s.cls c).methods ∧ (s.func g).name = (s.func f).name

/-- Some members of a class have got their slots. -/
structure Filling (s : Store) (c : ClassId) (done : List Sym) (t : Store) : Prop where
  relaid : s.Relaid t
  cls : ∀ d, d ≠ c → t.cls d = s.cls d
  laidOut : (t.cls c).laidOut = (s.cls c).laidOut
  func : ∀ f, .func f ∉ done → t.func f = s.func f
  field : ∀ x, .field x ∉ done → t.field x = s.field x
  fields : (t.cls c).fields = (s.cls c).fields ++ fieldsIn done
  methods : (t.cls c).methods = (s.cls c).methods.map (fun f => (s.methodNamed done (s.func f).name).getD f) ++
    (methodsIn done).filter fun f => (s.inheritedMethod? c (s.func f).name).isNone
  fieldIndex : ∀ (i : Nat) x, (t.cls c).fields[i]? = some x → (t.field x).index = i
  methodIndex : ∀ (i : Nat) f, (t.cls c).methods[i]? = some f → (t.func f).index = i

namespace Filling

/-- Before any member has got its slot. -/
theorem start (hr : s.Ready c) : s.Filling c [] s where
  relaid := .refl s
  cls _ _ := rfl
  laidOut := rfl
  func _ _ := rfl
  field _ _ := rfl
  fields := (List.append_nil _).symm
  methods := by simp [methodNamed, methodsIn]
  fieldIndex := hr.fieldIndex
  methodIndex := hr.methodIndex

variable (hr : s.Ready c) (h : s.Filling c done t)
include hr h

theorem field_notMem (hmem : .field x ∈ (s.cls c).members.symbols) (hnew : .field x ∉ done) : x ∉ (t.cls c).fields := by
  rw [h.fields, List.mem_append, mem_fieldsIn, not_or]
  exact ⟨fun hx => hr.foreignFields x hx hmem, hnew⟩

/-- The methods so far are inherited or done. -/
theorem func_notMem (hmem : .func f ∈ (s.cls c).members.symbols) (hnew : .func f ∉ done) : f ∉ (t.cls c).methods := by
  rw [h.methods, List.mem_append, not_or]
  constructor
  · intro hf
    obtain ⟨g, hg, hgf⟩ := List.mem_map.mp hf
    cases hm : s.methodNamed done (s.func g).name with
    | none =>
      rw [hm, Option.getD_none] at hgf
      exact hr.foreignMethods g hg (hgf ▸ hmem)
    | some g' =>
      rw [hm, Option.getD_some] at hgf
      exact hnew (mem_methodsIn.mp (hgf ▸ List.mem_of_find?_eq_some hm))
  · exact fun hf => hnew (mem_methodsIn.mp (List.mem_filter.mp hf).1)

theorem inStore : c.index < t.classes.size := by
  rw [h.relaid.classCount]
  exact hr.inStore

/-- A field gets the next slot. -/
theorem next_field (hmem : .field x ∈ (s.cls c).members.symbols) (hnew : .field x ∉ done) :
    s.Filling c (done ++ [Sym.field x]) (layoutMember c (.field x) t).2 := by
  have hrun : (layoutMember c (.field x) t).2 = (updateClass c ({ · with fields := (t.cls c).fields ++ [x] })
      (updateField x ({ · with index := (t.cls c).fields.length }) t).2).2 := rfl
  have hcls : ∀ d, (layoutMember c (.field x) t).2.cls d =
      if d = c then { t.cls c with fields := (t.cls c).fields ++ [x] } else t.cls d := by
    intro d
    rw [hrun, cls_updateClass]
    by_cases hd : d = c
    · subst hd
      rw [if_pos ⟨rfl, show d.index < t.classes.size from h.inStore hr⟩, if_pos rfl]
      rfl
    · rw [if_neg fun heq => hd heq.1.symm, if_neg hd]
      rfl
  have hfield : ∀ y, (layoutMember c (.field x) t).2.field y =
      if x = y then { t.field y with index := (t.cls c).fields.length } else t.field y := by
    intro y
    change (updateField x _ t).2.field y = _
    rw [field_updateField]
    by_cases hy : x = y
    · subst hy
      have howner : (t.field x).owner = some c := (h.relaid.field_owner x).trans (hr.declared.fields x hmem)
      rw [if_pos ⟨rfl, field_inRange howner⟩, if_pos rfl]
    · rw [if_neg fun heq => hy heq.1, if_neg hy]
  refine ⟨h.relaid.trans (relays_layoutMember t), fun d hd => ?_, ?_, fun f hf => ?_, fun y hy => ?_, ?_, ?_, ?_, ?_⟩
  · rw [hcls, if_neg hd, h.cls d hd]
  · rw [hcls, if_pos rfl]
    exact h.laidOut
  · exact h.func f fun hdone => hf (List.mem_append_left _ hdone)
  · rw [hfield, if_neg fun heq => hy (by simp [heq])]
    exact h.field y fun hdone => hy (List.mem_append_left _ hdone)
  · rw [hcls, if_pos rfl, fieldsIn, List.filterMap_append, ← fieldsIn, ← List.append_assoc, ← h.fields]
    rfl
  · have hmethods : methodsIn (done ++ [Sym.field x]) = methodsIn done := by
      rw [methodsIn, List.filterMap_append, ← methodsIn]
      exact List.append_nil _
    rw [hcls, if_pos rfl]
    simpa only [methodNamed, hmethods] using h.methods
  · rw [hcls, if_pos rfl]
    refine index_append _ h.fieldIndex (fun y hy => ?_) ?_
    · rw [hfield, if_neg]
      rintro rfl
      exact h.field_notMem hr hmem hnew hy
    · rw [hfield, if_pos rfl]
  · rw [hcls, if_pos rfl]
    exact h.methodIndex

/-- A method gets a slot in the table. -/
private theorem next_func (hmem : .func f ∈ (s.cls c).members.symbols) {k : Nat} {methods : List FuncId}
    (hmethods : methods = (s.cls c).methods.map (fun g => (s.methodNamed (done ++ [Sym.func f]) (s.func g).name).getD g) ++
      (methodsIn (done ++ [Sym.func f])).filter fun g => (s.inheritedMethod? c (s.func g).name).isNone)
    (hindex : ∀ (i : Nat) g, methods[i]? = some g → (if f = g then (k : Int) else (t.func g).index) = i)
    (hrun : (layoutMember c (.func f) t).2 =
      (updateClass c ({ · with methods }) (updateFunc f ({ · with index := k }) t).2).2) :
    s.Filling c (done ++ [Sym.func f]) (layoutMember c (.func f) t).2 := by
  have hcls : ∀ d, (layoutMember c (.func f) t).2.cls d = if d = c then { t.cls c with methods } else t.cls d := by
    intro d
    rw [hrun, cls_updateClass]
    by_cases hd : d = c
    · subst hd
      rw [if_pos ⟨rfl, show d.index < t.classes.size from h.inStore hr⟩, if_pos rfl]
      rfl
    · rw [if_neg fun heq => hd heq.1.symm, if_neg hd]
      rfl
  have hfunc : ∀ g, (layoutMember c (.func f) t).2.func g =
      if f = g then { t.func g with index := k } else t.func g := by
    intro g
    rw [hrun]
    change (updateFunc f _ t).2.func g = _
    rw [func_updateFunc]
    by_cases hfg : f = g
    · subst hfg
      have howner := (h.relaid.func_owner f).trans (hr.declared.funcs f hmem)
      rw [if_pos ⟨rfl, func_inRange howner⟩, if_pos rfl]
    · rw [if_neg fun heq => hfg heq.1, if_neg hfg]
  have hfields : fieldsIn (done ++ [Sym.func f]) = fieldsIn done := by
    rw [fieldsIn, List.filterMap_append, ← fieldsIn]
    exact List.append_nil _
  have hfield : ∀ x, (layoutMember c (.func f) t).2.field x = t.field x := fun x => by rw [hrun]; rfl
  refine ⟨h.relaid.trans (relays_layoutMember t), fun d hd => ?_, ?_, fun g hg => ?_, fun x hx => ?_, ?_, ?_, ?_, ?_⟩
  · rw [hcls, if_neg hd, h.cls d hd]
  · rw [hcls, if_pos rfl]
    exact h.laidOut
  · rw [hfunc, if_neg fun heq => hg (by simp [heq])]
    exact h.func g fun hdone => hg (List.mem_append_left _ hdone)
  · rw [hfield]
    exact h.field x fun hdone => hx (List.mem_append_left _ hdone)
  · rw [hcls, if_pos rfl, hfields]
    exact h.fields
  · rw [hcls, if_pos rfl]
    exact hmethods
  · intro i x hx
    rw [hcls, if_pos rfl] at hx
    rw [hfield]
    exact h.fieldIndex i x hx
  · intro i g hg
    rw [hcls, if_pos rfl] at hg
    rw [← hindex i g hg, hfunc]
    split <;> rfl

/-- A method that overrides another takes its slot. -/
theorem next_override (hmem : .func f ∈ (s.cls c).members.symbols) (hnew : .func f ∉ done)
    (hdone : done ⊆ (s.cls c).members.symbols) (hg : s.inheritedMethod? c (s.func f).name = some g) :
    s.Filling c (done ++ [Sym.func f]) (layoutMember c (.func f) t).2 := by
  obtain ⟨hbase, hname⟩ := (hr.inherited f hmem g).mp hg
  obtain ⟨k, hk⟩ := List.mem_iff_getElem?.mp hbase
  have hslot : (t.func g).index = k := by
    rw [h.func g fun hg => hr.foreignMethods g hbase (hdone hg)]
    exact hr.methodIndex k g hk
  have hrun : (layoutMember c (.func f) t).2 = (updateClass c ({ · with methods := (t.cls c).methods.set k f })
      (updateFunc f ({ · with index := k }) t).2).2 := by
    have hin : t.inheritedMethod? c (t.func f).name = some g := by
      rw [h.relaid.inheritedMethod?, h.relaid.func_name, hg]
    rw [layoutMember, get_bind_apply]
    simp only [hin, hslot]
    rfl
  refine h.next_func hr hmem ?_ (index_set (fun y => if f = y then (k : Int) else (t.func y).index) h.methodIndex
    (fun y hy => ?_) (if_pos rfl)) hrun
  · have hlt : k < (s.cls c).methods.length := (List.getElem?_eq_some_iff.mp hk).1
    have hfilter : (methodsIn (done ++ [Sym.func f])).filter (fun g => (s.inheritedMethod? c (s.func g).name).isNone) =
        (methodsIn done).filter fun g => (s.inheritedMethod? c (s.func g).name).isNone := by
      rw [methodsIn, List.filterMap_append, List.filter_append, ← methodsIn]
      simp [hg]
    rw [hfilter, h.methods, List.set_append_left _ _ (by rwa [List.length_map])]
    congr 1
    apply List.ext_getElem?
    intro i
    rw [List.getElem?_set, List.length_map, List.getElem?_map, List.getElem?_map]
    by_cases hik : k = i
    · -- no member that is done has the name, since the class declares it once
      have hnone : s.methodNamed done (s.func f).name = none := by
        rw [methodNamed, List.find?_eq_none]
        intro f' hf' hsame
        have hmem' := hdone (mem_methodsIn.mp hf')
        have heq := (hr.declared.method?_of_mem hmem').symm.trans
          ((of_decide_eq_true hsame : (s.func f').name = _) ▸ hr.declared.method?_of_mem hmem)
        exact hnew (Option.some.inj heq ▸ mem_methodsIn.mp hf')
      rw [if_pos hik, if_pos (hik ▸ hlt), ← hik, hk, Option.map_some, hname, methodNamed_append, hnone, if_pos rfl]
      rfl
    · rw [if_neg hik]
      cases hi : (s.cls c).methods[i]? with
      | none => rfl
      | some y =>
        have hother : (s.func f).name ≠ (s.func y).name := by
          intro hsame
          have hy := (hr.inherited f hmem y).mpr ⟨List.mem_of_getElem? hi, hsame.symm⟩
          obtain rfl : y = g := Option.some.inj (hy.symm.trans hg)
          have hindex := hr.methodIndex i y hi
          rw [hr.methodIndex k y hk] at hindex
          omega
        rw [Option.map_some, Option.map_some, methodNamed_append, if_neg hother, Option.or_none]
  · rw [if_neg]
    rintro rfl
    exact h.func_notMem hr hmem hnew hy

/-- A method that overrides nothing gets the next slot. -/
theorem next_method (hmem : .func f ∈ (s.cls c).members.symbols) (hnew : .func f ∉ done)
    (hg : s.inheritedMethod? c (s.func f).name = none) :
    s.Filling c (done ++ [Sym.func f]) (layoutMember c (.func f) t).2 := by
  have hrun : (layoutMember c (.func f) t).2 = (updateClass c ({ · with methods := (t.cls c).methods ++ [f] })
      (updateFunc f ({ · with index := (t.cls c).methods.length }) t).2).2 := by
    have hin : t.inheritedMethod? c (t.func f).name = none := by
      rw [h.relaid.inheritedMethod?, h.relaid.func_name, hg]
    rw [layoutMember, get_bind_apply]
    simp only [hin]
    rfl
  refine h.next_func hr hmem ?_ (index_append (fun y => if f = y then ((t.cls c).methods.length : Int) else (t.func y).index)
    h.methodIndex (fun y hy => ?_) (if_pos rfl)) hrun
  · have hold : (s.cls c).methods.map (fun g => (s.methodNamed (done ++ [Sym.func f]) (s.func g).name).getD g) =
        (s.cls c).methods.map fun g => (s.methodNamed done (s.func g).name).getD g := by
      refine List.map_congr_left fun y hy => ?_
      have hother : (s.func f).name ≠ (s.func y).name := by
        intro hsame
        have hy := (hr.inherited f hmem y).mpr ⟨hy, hsame.symm⟩
        rw [hg] at hy
        cases hy
      rw [methodNamed_append, if_neg hother, Option.or_none]
    rw [hold, h.methods, methodsIn, methodsIn, List.filterMap_append, List.filter_append, List.append_assoc]
    simp [hg]
  · rw [if_neg]
    rintro rfl
    exact h.func_notMem hr hmem hnew hy

omit hr in
/-- A member that is no field and no method gets no slot. -/
private theorem next_other {y : Sym} (hfields : fieldsIn [y] = []) (hmethods : methodsIn [y] = []) :
    s.Filling c (done ++ [y]) t where
  relaid := h.relaid
  cls := h.cls
  laidOut := h.laidOut
  func f hf := h.func f fun hdone => hf (List.mem_append_left _ hdone)
  field x hx := h.field x fun hdone => hx (List.mem_append_left _ hdone)
  fields := by
    rw [fieldsIn, List.filterMap_append, ← fieldsIn, ← fieldsIn, hfields, List.append_nil]
    exact h.fields
  methods := by
    have heq : methodsIn (done ++ [y]) = methodsIn done := by
      rw [methodsIn, List.filterMap_append, ← methodsIn, ← methodsIn, hmethods, List.append_nil]
    simpa only [methodNamed, heq] using h.methods
  fieldIndex := h.fieldIndex
  methodIndex := h.methodIndex

/-- The next member gets its slot. -/
theorem next {y : Sym} (hsplit : done ++ y :: rest = (s.cls c).members.symbols) :
    s.Filling c (done ++ [y]) (layoutMember c y t).2 := by
  have hmem : y ∈ (s.cls c).members.symbols := by simp [← hsplit]
  have hdone : done ⊆ (s.cls c).members.symbols := by simp [← hsplit]
  have hnew : y ∉ done := by
    have hnodup := hr.declared.nodup
    rw [← hsplit, List.nodup_append] at hnodup
    exact fun hy => hnodup.2.2 y hy y List.mem_cons_self rfl
  cases y with
  | field x => exact h.next_field hr hmem hnew
  | func f =>
    cases hg : s.inheritedMethod? c (s.func f).name with
    | some g => exact h.next_override hr hmem hnew hdone hg
    | none => exact h.next_method hr hmem hnew hg
  | _ => exact h.next_other rfl rfl

end Filling

/-- All members of a class get their slots. -/
theorem Ready.filling (hr : s.Ready c) : s.Filling c (s.cls c).members.symbols
    ((s.cls c).members.symbols.forM (layoutMember c) s).2 := by
  have hloop : ∀ {rest done : List Sym} {t : Store}, done ++ rest = (s.cls c).members.symbols → s.Filling c done t →
      s.Filling c (s.cls c).members.symbols (rest.forM (layoutMember c) t).2 := by
    intro rest
    induction rest with
    | nil =>
      intro done t hsplit h
      rw [List.append_nil] at hsplit
      exact hsplit ▸ h
    | cons y rest ih =>
      intro done t hsplit h
      exact ih (by rw [List.append_assoc, List.singleton_append, hsplit]) (h.next hr hsplit)
  exact hloop (List.nil_append _) (.start hr)

/-- A class all of whose members have got their slots after those of its superclass is laid out. -/
theorem Filling.arranged {among : ClassId → Prop} (h : s.Filling c (s.cls c).members.symbols t) (hd : s.Declared c)
    (hself : ¬s.Derives c c) (hfields : (s.cls c).fields = s.baseFields c)
    (hmethods : (s.cls c).methods = s.baseMethods c) (hsuper : ∀ b, s.Derives c b → among b) : t.Arranged among c := by
  have hbase : ∀ b, s.Derives c b → t.cls b = s.cls b := fun b hb => h.cls b fun heq => hself (heq ▸ hb)
  refine ⟨fun b hb => hsuper b (h.relaid.derives.mp hb), ?_, ?_, h.fieldIndex, h.methodIndex⟩
  · rw [h.fields, hfields, h.relaid.members, h.relaid.baseFields hbase]
  · rw [h.methods, hmethods, h.relaid.baseMethods hbase, h.relaid.members]
    simp only [h.relaid.func_name, h.relaid.inheritedMethod?, h.relaid.method?, hd.methodNamed_eq]

end Members

/-! ## Classes along a lineage -/

section Chains

variable {s t : Store} {among : ClassId → Prop} {c : ClassId}

/-- The layout of classes depends on the tables of these classes and on the slots of their members. -/
theorem Arrangement.congr (h : s.Arrangement among) (hs : s.SoundClasses) (hr : s.Relaid t)
    (hcls : ∀ d, among d → t.cls d = s.cls d)
    (hfunc : ∀ d f, among d → (s.func f).owner = some (.cls d) → t.func f = s.func f)
    (hfield : ∀ d x, among d → (s.field x).owner = some d → t.field x = s.field x) : t.Arrangement among := by
  intro d hd
  have hold := h d hd
  have hbase : ∀ b, s.Derives d b → t.cls b = s.cls b := fun b hb => hcls b (hold.super b hb)
  refine ⟨fun b hb => hold.super b (hr.derives.mp hb), ?_, ?_, ?_, ?_⟩
  · rw [hcls d hd, hold.fields, hr.baseFields hbase]
  · rw [hr.baseMethods hbase, hcls d hd, hold.methods]
    simp only [hr.func_name, hr.inheritedMethod?, hr.method?]
  · intro i x hx
    rw [hcls d hd] at hx
    obtain ⟨e, he, howner⟩ := h.owner_of_mem_fields hs hd (List.mem_of_getElem? hx)
    rw [hfield e x (h.lineage hs hd he) howner]
    exact hold.fieldIndex i x hx
  · intro i f hf
    rw [hcls d hd] at hf
    obtain ⟨-, e, he, howner⟩ := declares_of_methodMember? hs.declared
      ((h.mem_methods_iff hs hd).mp (List.mem_of_getElem? hf))
    rw [hfunc e f (h.lineage hs hd he) howner]
    exact hold.methodIndex i f hf

/-- Nothing changed but the tables of some classes and the slots of their members. -/
structure Outside (s : Store) (old : ClassId → Prop) (t : Store) : Prop where
  relaid : s.Relaid t
  cls : ∀ d, old d → t.cls d = s.cls d
  func : ∀ d f, old d → (s.func f).owner = some (.cls d) → t.func f = s.func f
  field : ∀ d x, old d → (s.field x).owner = some d → t.field x = s.field x

theorem Outside.trans {s' : Store} {old old' : ClassId → Prop} (h : s.Outside old t) (h' : t.Outside old' s') :
    s.Outside (fun d => old d ∧ old' d) s' where
  relaid := h.relaid.trans h'.relaid
  cls d hd := (h'.cls d hd.2).trans (h.cls d hd.1)
  func d f hd ho := (h'.func d f hd.2 ((h.relaid.func_owner f).trans ho)).trans (h.func d f hd.1 ho)
  field d x hd ho := (h'.field d x hd.2 ((h.relaid.field_owner x).trans ho)).trans (h.field d x hd.1 ho)

theorem Outside.mono {old old' : ClassId → Prop} (h : s.Outside old t) (hless : ∀ d, old' d → old d) :
    s.Outside old' t where
  relaid := h.relaid
  cls d hd := h.cls d (hless d hd)
  func d f hd := h.func d f (hless d hd)
  field d x hd := h.field d x (hless d hd)

theorem Outside.arrangement (h : s.Outside among t) (hs : s.SoundClasses) (ha : s.Arrangement among) :
    t.Arrangement among := ha.congr hs h.relaid h.cls h.func h.field

theorem outside_updateClass {f : Class → Class} (hf : ∀ x, ∃ laidOut fields methods, f x = { x with laidOut, fields, methods }) :
    s.Outside (· ≠ c) (updateClass c f s).2 where
  relaid := relays_updateClass hf s
  cls d hd := by
    rw [cls_updateClass, if_neg]
    exact fun heq => hd heq.1.symm
  func _ _ _ _ := rfl
  field _ _ _ _ := rfl

theorem Filling.outside (h : s.Filling c (s.cls c).members.symbols t) (hd : s.Declared c) : s.Outside (· ≠ c) t where
  relaid := h.relaid
  cls := h.cls
  func d f hdc ho := h.func f fun hmem => hdc (by simpa using ho.symm.trans (hd.funcs f hmem))
  field d x hdc ho := h.field x fun hmem => hdc (by simpa using ho.symm.trans (hd.fields x hmem))

/-- A class that is not in the store is as good as laid out. -/
def Made (s : Store) (c : ClassId) : Prop := (s.cls c).laidOut = true ∨ s.classes.size ≤ c.index

/-- What holds before a class is laid out: the classes that are done are laid out, and none of the others in its
lineage. -/
structure LayoutReady (s : Store) (among : ClassId → Prop) (c : ClassId) : Prop where
  sound : s.SoundClasses
  arrangement : s.Arrangement among
  done : ∀ d ∈ s.lineage c, (s.cls d).laidOut = true → among d
  made : ∀ d, among d → s.Made d

/-- A class and its superclasses were laid out. -/
structure LaidOut (s : Store) (among : ClassId → Prop) (c : ClassId) (t : Store) : Prop where
  outside : s.Outside (fun d => among d ∨ d ∉ s.lineage c) t
  arrangement : t.Arrangement fun d => among d ∨ d ∈ s.lineage c
  made : ∀ d ∈ s.lineage c, t.Made d

/-- The superclasses of a class were laid out, and it has the layout of its superclass. -/
structure Inherits (s : Store) (among : ClassId → Prop) (c : ClassId) (t : Store) : Prop where
  outside : s.Outside (fun d => among d ∨ d ∉ s.lineage c) t
  arrangement : t.Arrangement fun d => among d ∨ d ∈ (s.lineage c).tail
  made : ∀ d ∈ s.lineage c, t.Made d
  fields : (t.cls c).fields = t.baseFields c
  methods : (t.cls c).methods = t.baseMethods c

theorem cls_of_size_le (hc : s.classes.size ≤ c.index) : s.cls c = default := by
  rw [cls, Array.getElem?_eq_none hc]
  rfl

/-- A class that is not in the store has an empty layout. -/
theorem arranged_of_size_le (hc : s.classes.size ≤ c.index) : s.Arranged among c := by
  have hdefault := cls_of_size_le hc
  have hsuper : (s.cls c).super = none := by rw [hdefault]; rfl
  have hmembers : (s.cls c).members.symbols = [] := by rw [hdefault]; rfl
  have hfields : (s.cls c).fields = [] := by rw [hdefault]; rfl
  have hmethods : (s.cls c).methods = [] := by rw [hdefault]; rfl
  refine ⟨fun b hb => ?_, ?_, ?_, ?_, ?_⟩
  · rw [Derives, hsuper] at hb
    cases hb
  · rw [hfields, hmembers, baseFields, hsuper]
    rfl
  · rw [hmethods, hmembers, baseMethods, hsuper]
    rfl
  · rw [hfields]
    exact fun i x hx => absurd hx (by simp)
  · rw [hmethods]
    exact fun i x hx => absurd hx (by simp)

theorem cls_cleared {d : ClassId} : (s.cleared c).cls d =
    if c = d ∧ d.index < s.classes.size then { s.cls d with laidOut := true, fields := [], methods := [] }
    else s.cls d := cls_updateClass

/-- The superclasses of a class are laid out before it. -/
theorem LayoutReady.inherits (h : s.LayoutReady among c) (hc : ¬(s.cls c).laidOut = true) {n : Nat}
    (hsuper : ∀ b, s.Derives c b → (s.cleared c).LayoutReady among b →
      (s.cleared c).LaidOut among b (Store.layoutChain n b (s.cleared c)).2) :
    s.Inherits among c (inherited n c s) := by
  have hac := h.sound.acyclic
  have hself : c ∈ s.lineage c := by
    rw [lineage_eq hac]
    exact List.mem_cons_self
  have hcleared := relaid_cleared s c
  -- outside the store nothing is cleared, and the class is as good as laid out
  have hout : s.Outside (fun d => among d ∨ d ≠ c) (s.cleared c) := by
    refine ⟨hcleared, fun d hd => ?_, fun _ _ _ _ => rfl, fun _ _ _ _ => rfl⟩
    rw [cls_cleared, if_neg]
    rintro ⟨rfl, hlt⟩
    rcases hd with hd | hd
    · exact (h.made c hd).elim hc (Nat.not_le_of_lt hlt)
    · exact hd rfl
  have hmade : (s.cleared c).Made c ∧ ((s.cleared c).cls c).fields = [] ∧ ((s.cleared c).cls c).methods = [] := by
    rw [Made, hcleared.classCount, cls_cleared]
    by_cases hlt : c.index < s.classes.size
    · rw [if_pos ⟨rfl, hlt⟩]
      exact ⟨.inl rfl, rfl, rfl⟩
    · rw [if_neg fun heq => hlt heq.2, cls_of_size_le (by omega)]
      exact ⟨.inr (by omega), rfl, rfl⟩
  have harranged : (s.cleared c).Arrangement among := (hout.mono fun _ => .inl).arrangement h.sound h.arrangement
  rw [inherited]
  cases hb : (s.cls c).super with
  | none =>
    have hnone : (s.cls c).super = none := hb
    refine ⟨hout.mono fun d => Or.imp_right fun hd heq => hd (heq ▸ hself), ?_, fun d hd => ?_, ?_, ?_⟩
    · rw [lineage_root hac hb]
      exact fun d hd => (harranged d (hd.resolve_right List.not_mem_nil)).mono fun _ => .inl
    · rw [lineage_root hac hb, List.mem_singleton] at hd
      exact hd ▸ hmade.1
    · rw [hmade.2.1, baseFields, hcleared.super, hnone]
    · rw [hmade.2.2, baseMethods, hcleared.super, hnone]
  | some b =>
    have hderives : s.Derives c b := hb
    have hlineage := lineage_derives hac hderives
    have hlt : c.index < s.classes.size := by
      by_contra hout
      rw [cls_of_size_le (by omega)] at hb
      cases hb
    have hnotMem : c ∉ s.lineage b := by
      have hnodup := chainOf_nodup hac (s.classes.size + 1) c
      rw [← Store.lineage, hlineage, List.nodup_cons] at hnodup
      exact hnodup.1
    have hready : (s.cleared c).LayoutReady among b := by
      refine ⟨hcleared.soundClasses h.sound, harranged, fun d hd hlaid => ?_, fun d hd => ?_⟩
      · rw [hcleared.lineage] at hd
        rw [hout.cls d (.inr fun heq => hnotMem (heq ▸ hd))] at hlaid
        exact h.done d (hlineage ▸ List.mem_cons_of_mem _ hd) hlaid
      · rw [Made, hcleared.classCount, hout.cls d (.inl hd)]
        exact h.made d hd
    have hlaid := hsuper b hderives hready
    simp only [not_hasCycle hready.sound.acyclic, Bool.false_eq_true, if_false]
    generalize (Store.layoutChain n b (s.cleared c)).2 = t at hlaid ⊢
    have hsound := hlaid.outside.relaid.soundClasses hready.sound
    have hupdate := outside_updateClass (s := t) (c := c)
      (f := ({ · with fields := (t.cls b).fields, methods := (t.cls b).methods })) fun _ => ⟨_, _, _, rfl⟩
    have hsize : t.classes.size = s.classes.size := hlaid.outside.relaid.classCount.trans hcleared.classCount
    have hcls : ((updateClass c ({ · with fields := (t.cls b).fields, methods := (t.cls b).methods }) t).2.cls c) =
        { t.cls c with fields := (t.cls b).fields, methods := (t.cls b).methods } := by
      rw [cls_updateClass, if_pos ⟨rfl, hsize ▸ hlt⟩]
    have hcb : b ≠ c := by
      rintro rfl
      rw [lineage_eq hac] at hnotMem
      exact hnotMem List.mem_cons_self
    have hbase : (updateClass c ({ · with fields := (t.cls b).fields, methods := (t.cls b).methods }) t).2.Derives c b := by
      rw [hupdate.relaid.derives, hlaid.outside.relaid.derives, hcleared.derives]
      exact hb
    have hnew : ∀ d, among d ∨ d ∈ s.lineage b → d ≠ c := by
      rintro d (hd | hd) rfl
      · exact (h.made d hd).elim hc (Nat.not_le_of_lt hlt)
      · exact hnotMem hd
    have hnewLaid := hlaid.arrangement
    rw [hcleared.lineage] at hnewLaid
    refine ⟨((hout.trans hlaid.outside).trans hupdate).mono fun d hd => ?_, ?_, fun d hd => ?_, ?_, ?_⟩
    · have hdc : d ≠ c := hd.elim (fun hd => hnew d (.inl hd)) fun hd heq => hd (heq ▸ hself)
      refine ⟨⟨.inr hdc, hd.imp_right fun hd hmem => hd ?_⟩, hdc⟩
      rw [hcleared.lineage] at hmem
      exact hlineage ▸ List.mem_cons_of_mem _ hmem
    · rw [hlineage]
      exact (hupdate.mono hnew).arrangement hsound hnewLaid
    · rw [hlineage, List.mem_cons] at hd
      rw [Made, hupdate.relaid.classCount]
      rcases hd with rfl | hd
      · have hmem : d ∉ (s.cleared d).lineage b := by rwa [hcleared.lineage]
        rw [hcls, hlaid.outside.cls d (.inr hmem)]
        exact .inl (hmade.1.resolve_right (by rw [hcleared.classCount]; omega))
      · rw [hupdate.cls d (hnew d (.inr hd))]
        exact hlaid.made d (by rwa [hcleared.lineage])
    · rw [hcls, baseFields_derives hbase, hupdate.cls b hcb]
    · rw [hcls, baseMethods_derives hbase, hupdate.cls b hcb]

/-- A class that has the layout of its superclass is ready for its own members. -/
theorem Inherits.ready (hi : s.Inherits among c t) (hs : s.SoundClasses) (hc : c.index < s.classes.size) :
    t.Ready c := by
  have hsound := hi.outside.relaid.soundClasses hs
  have hsize : c.index < t.classes.size := by rwa [hi.outside.relaid.classCount]
  cases hb : (t.cls c).super with
  | none =>
    have hfields : (t.cls c).fields = [] := by rw [hi.fields, baseFields, hb]
    have hmethods : (t.cls c).methods = [] := by rw [hi.methods, baseMethods, hb]
    refine ⟨hsize, hsound.declared c, ?_, ?_, ?_, ?_, fun f _ g => ?_⟩
    all_goals first | rw [hfields] | rw [hmethods]
    · exact fun i x hx => absurd hx (by simp)
    · exact fun i x hx => absurd hx (by simp)
    · exact fun x hx => absurd hx List.not_mem_nil
    · exact fun x hx => absurd hx List.not_mem_nil
    · rw [inheritedMethod?_root hb]
      simp
  | some b =>
    have hderives : t.Derives c b := hb
    have hfields : (t.cls c).fields = (t.cls b).fields := hi.fields.trans (baseFields_derives hderives)
    have hmethods : (t.cls c).methods = (t.cls b).methods := hi.methods.trans (baseMethods_derives hderives)
    have hamong : among b ∨ b ∈ (s.lineage c).tail := by
      rw [lineage_derives hs.acyclic (hi.outside.relaid.derives.mp hderives), List.tail_cons, lineage_eq hs.acyclic]
      exact .inr List.mem_cons_self
    have hnotMem : c ∉ t.lineage b := by
      have hnodup := chainOf_nodup hsound.acyclic (t.classes.size + 1) c
      rw [← Store.lineage, lineage_derives hsound.acyclic hderives, List.nodup_cons] at hnodup
      exact hnodup.1
    have hb := hi.arrangement b hamong
    refine ⟨hsize, hsound.declared c, hfields ▸ hb.fieldIndex, hmethods ▸ hb.methodIndex, ?_, ?_, ?_⟩
    · intro x hx hmem
      obtain ⟨d, hd, howner⟩ := hi.arrangement.owner_of_mem_fields hsound hamong (hfields ▸ hx)
      obtain rfl : c = d := Option.some.inj (((hsound.declared c).fields x hmem).symm.trans howner)
      exact hnotMem hd
    · intro f hf hmem
      obtain ⟨-, d, hd, howner⟩ := declares_of_methodMember? hsound.declared
        ((hi.arrangement.mem_methods_iff hsound hamong).mp (hmethods ▸ hf))
      obtain rfl : c = d := by simpa using ((hsound.declared c).funcs f hmem).symm.trans howner
      exact hnotMem hd
    · intro f hf g
      rw [hsound.inheritedMethod?_eq hderives ((hsound.declared c).method?_of_mem hf), hmethods,
        hi.arrangement.mem_methods_iff hsound hamong]
      constructor
      · intro hg
        obtain ⟨hname, -⟩ := declares_of_methodMember? hsound.declared hg
        exact ⟨hname ▸ hg, hname⟩
      · rintro ⟨hg, hname⟩
        exact hname ▸ hg

/-- Once a class has its layout, its lineage is laid out. -/
private theorem Inherits.finish (hi : s.Inherits among c t) (hs : s.SoundClasses) {old : ClassId → Prop} {t' : Store}
    (hout : t.Outside old t') (hothers : ∀ d, d ≠ c → old d)
    (hold : ∀ d, among d ∨ d ∈ (s.lineage c).tail ∨ d ∉ s.lineage c → old d)
    (hflag : (t'.cls c).laidOut = (t.cls c).laidOut)
    (harranged : t'.Arranged (fun d => among d ∨ d ∈ (s.lineage c).tail) c) : s.LaidOut among c t' := by
  have hsound := hi.outside.relaid.soundClasses hs
  have hmore : ∀ d, among d ∨ d ∈ (s.lineage c).tail → among d ∨ d ∈ s.lineage c :=
    fun d => Or.imp_right List.mem_of_mem_tail
  refine ⟨(hi.outside.trans hout).mono fun d hd => ⟨hd, hold d (hd.imp_right .inr)⟩, fun d hd => ?_, fun d hd => ?_⟩
  · by_cases hdc : d = c
    · exact hdc ▸ harranged.mono hmore
    · have hd' : among d ∨ d ∈ (s.lineage c).tail := by
        refine hd.imp_right fun hd => ?_
        rw [lineage_eq hs.acyclic] at hd ⊢
        exact (List.mem_cons.mp hd).resolve_left hdc
      have hkept := (hout.mono fun d hd => hold d (hd.imp_right .inl)).arrangement hsound hi.arrangement
      exact (hkept d hd').mono hmore
  · rw [Made, hout.relaid.classCount]
    have hmade := hi.made d hd
    by_cases hdc : d = c
    · subst hdc
      rwa [hflag]
    · rwa [hout.cls d (hothers d hdc)]

/-- A class is laid out once it has the layout of its superclass and its members get their slots. -/
theorem Inherits.laidOut (hi : s.Inherits among c t) (hs : s.SoundClasses)
    (hc : c.index < s.classes.size → ¬among c) :
    s.LaidOut among c ((t.cls c).members.symbols.forM (layoutMember c) t).2 := by
  have hsound := hi.outside.relaid.soundClasses hs
  have hsuper : ∀ b, t.Derives c b → among b ∨ b ∈ (s.lineage c).tail := by
    intro b hb
    rw [lineage_derives hs.acyclic (hi.outside.relaid.derives.mp hb), List.tail_cons, lineage_eq hs.acyclic]
    exact .inr List.mem_cons_self
  by_cases hlt : c.index < s.classes.size
  · have hfilling := (hi.ready hs hlt).filling
    refine hi.finish hs (hfilling.outside (hsound.declared c)) (fun d hd => hd) ?_ hfilling.laidOut
      (hfilling.arranged (hsound.declared c) (fun hcc => hsound.acyclic.cls c (.single hcc)) hi.fields hi.methods hsuper)
    have hnodup := chainOf_nodup hs.acyclic (s.classes.size + 1) c
    rw [← Store.lineage, lineage_eq hs.acyclic, List.nodup_cons] at hnodup
    rw [lineage_eq hs.acyclic]
    rintro d (hd | hd | hd) rfl
    · exact hc hlt hd
    · exact hnodup.1 hd
    · exact hd List.mem_cons_self
  · -- a class that is not in the store has no members
    have hsize : t.classes.size ≤ c.index := by rw [hi.outside.relaid.classCount]; omega
    have hmembers : (t.cls c).members.symbols = [] := by rw [cls_of_size_le hsize]; rfl
    have hout : t.Outside (fun _ => True) t := ⟨.refl t, fun _ _ => rfl, fun _ _ _ _ => rfl, fun _ _ _ _ => rfl⟩
    rw [hmembers]
    exact hi.finish hs hout (fun _ _ => trivial) (fun _ _ => trivial) rfl (arranged_of_size_le hsize)

/-- A class and its superclasses are laid out, and all others stay as they are. -/
theorem LayoutReady.layoutChain {n : Nat} (h : s.LayoutReady among c) (hn : (s.lineage c).length ≤ n) :
    s.LaidOut among c (layoutChain n c s).2 := by
  induction n generalizing s c with
  | zero =>
    rw [lineage_eq h.sound.acyclic] at hn
    cases hn
  | succ n ih =>
    rw [layoutChain_succ]
    by_cases hc : (s.cls c).laidOut = true
    · rw [if_pos hc]
      have hself : c ∈ s.lineage c := by
        rw [lineage_eq h.sound.acyclic]
        exact List.mem_cons_self
      have hlineage : ∀ d ∈ s.lineage c, among d :=
        fun d hd => h.arrangement.lineage h.sound (h.done c hself hc) hd
      refine ⟨⟨.refl s, fun _ _ => rfl, fun _ _ _ _ => rfl, fun _ _ _ _ => rfl⟩, fun d hd => ?_,
        fun d hd => h.made d (hlineage d hd)⟩
      exact (h.arrangement d (hd.elim id (hlineage d))).mono fun _ => .inl
    · rw [if_neg hc]
      refine (h.inherits hc fun b hb hready => ih hready ?_).laidOut h.sound fun hlt hamong =>
        (h.made c hamong).elim hc (Nat.not_le_of_lt hlt)
      rw [(relaid_cleared s c).lineage]
      rw [lineage_derives h.sound.acyclic hb, List.length_cons] at hn
      omega

end Chains

/-! ## Coherent layouts -/

section Coherence

variable {s t t' : Store} {among among' : ClassId → Prop} {c : ClassId}

/-- The layout of a class is determined by its members and those of its superclasses. -/
theorem Arrangement.tables_eq (hs : s.SoundClasses) (hr : s.Relaid t) (hr' : s.Relaid t') (h : t.Arrangement among)
    (h' : t'.Arrangement among') (hc : among c) (hc' : among' c) :
    (t'.cls c).fields = (t.cls c).fields ∧ (t'.cls c).methods = (t.cls c).methods := by
  induction c using hs.acyclic.induction with
  | step c ih =>
    have hbase : t'.baseFields c = t.baseFields c ∧ t'.baseMethods c = t.baseMethods c := by
      simp only [baseFields, baseMethods, hr.super, hr'.super]
      cases hb : (s.cls c).super with
      | none => exact ⟨rfl, rfl⟩
      | some b => exact ih b hb ((h c hc).super b (hr.derives.mpr hb)) ((h' c hc').super b (hr'.derives.mpr hb))
    rw [(h c hc).fields, (h c hc).methods, (h' c hc').fields, (h' c hc').methods, hbase.1, hbase.2]
    simp only [hr.members, hr'.members, hr.func_name, hr'.func_name, hr.method?, hr'.method?, hr.inheritedMethod?,
      hr'.inheritedMethod?, and_self]

/-- Sound classes, of which those that are laid out have the layout that their members call for. -/
structure WellLaid (s : Store) : Prop where
  sound : s.SoundClasses
  arrangement : s.Arrangement s.Made

/-- Laying one more class out lays out its superclasses and keeps everything else. -/
theorem WellLaid.relaid (h : s.WellLaid) (c : ClassId) :
    (layout c s).2.WellLaid ∧ ∀ d, (layout c s).2.Made d ↔ s.Made d ∨ d ∈ s.lineage c := by
  have hready : s.LayoutReady s.Made c := ⟨h.sound, h.arrangement, fun _ _ => .inl, fun _ => id⟩
  have hlaid := hready.layoutChain (length_chainOf_le h.sound.acyclic (s.classes.size + 1) c)
  change s.LaidOut s.Made c (layout c s).2 at hlaid
  have hmade : ∀ d, (layout c s).2.Made d ↔ s.Made d ∨ d ∈ s.lineage c := by
    intro d
    have hsize := hlaid.outside.relaid.classCount
    by_cases hd : s.Made d ∨ d ∉ s.lineage c
    · rw [Made, hlaid.outside.cls d hd, hsize]
      exact ⟨.inl, fun hmade => hmade.elim id fun hmem => hd.elim id fun hno => absurd hmem hno⟩
    · rw [not_or, not_not] at hd
      exact ⟨fun _ => .inr hd.2, fun _ => hlaid.made d hd.2⟩
  refine ⟨⟨hlaid.outside.relaid.soundClasses h.sound, fun d hd => ?_⟩, hmade⟩
  exact (hlaid.arrangement d ((hmade d).mp hd)).mono fun e he => (hmade e).mpr he

/-- The layout of a class fits those of its superclasses. Its fields and methods stand where their indexes say, each
field once, and those of the superclass come first. A slot of a class that it is or derives from holds the method of that
name that the most derived class on the way there declares, or what it holds there if none does, with the same signature. -/
structure Coherent (s : Store) (c : ClassId) : Prop where
  fields_nodup : (fieldsOf c s).1.Nodup
  field_index : ∀ (i : Nat) x, (fieldsOf c s).1[i]? = some x → ((fieldsOf c s).2.field x).index = i
  base_fields : ∀ b, s.Derives c b → (fieldsOf b s).1 <+: (fieldsOf c s).1
  method_index : ∀ (i : Nat) f, (methodsOf c s).1[i]? = some f → ((methodsOf c s).2.func f).index = i
  base_methods : ∀ b, s.Derives c b → (methodsOf b s).1.length ≤ (methodsOf c s).1.length
  dispatch : ∀ a ∈ s.lineage c, ∀ (i : Nat) f, (methodsOf a s).1[i]? = some f → ∃ g, (methodsOf c s).1[i]? = some g ∧
    g = (((s.lineage c).takeWhile (· ≠ a) ++ [a]).findSome? (s.method? · (s.func f).name)).getD f ∧
    (s.func g).name = (s.func f).name ∧ sameSignature s (s.func f).sig (s.func g).sig = true

/-- Among well laid classes every layout is coherent. -/
theorem WellLaid.coherent (h : s.WellLaid) (c : ClassId) : s.Coherent c := by
  obtain ⟨hwell, hmade⟩ := h.relaid c
  have hac := h.sound.acyclic
  have hrelaid := relays_layout (c := c) s
  have hself : ∀ d, d ∈ s.lineage d := fun d => by
    rw [lineage_eq hac]
    exact List.mem_cons_self
  -- the tables of a superclass are the same whichever class is laid out first
  have htables : ∀ a ∈ s.lineage c, ((fieldsOf a s).1 = ((layout c s).2.cls a).fields) ∧
      (methodsOf a s).1 = ((layout c s).2.cls a).methods := by
    intro a ha
    obtain ⟨hwell', hmade'⟩ := h.relaid a
    exact Arrangement.tables_eq h.sound hrelaid (relays_layout (c := a) s) hwell.arrangement hwell'.arrangement
      ((hmade a).mpr (.inr ha)) ((hmade' a).mpr (.inr (hself a)))
  have hc := hwell.arrangement c ((hmade c).mpr (.inr (hself c)))
  have hbase : ∀ b, s.Derives c b → b ∈ s.lineage c := fun b hb => by
    rw [lineage_derives hac hb]
    exact List.mem_cons_of_mem _ (hself b)
  refine ⟨nodup_of_index hc.fieldIndex, hc.fieldIndex, fun b hb => ?_, hc.methodIndex, fun b hb => ?_, ?_⟩
  · rw [(htables b (hbase b hb)).1]
    change _ <+: ((layout c s).2.cls c).fields
    rw [hc.fields, baseFields_derives (hrelaid.derives.mpr hb)]
    exact List.prefix_append _ _
  · rw [(htables b (hbase b hb)).2]
    change _ ≤ ((layout c s).2.cls c).methods.length
    rw [hc.methods, baseMethods_derives (hrelaid.derives.mpr hb), List.length_append, List.length_map]
    exact Nat.le_add_right _ _
  · intro a ha i f hf
    rw [(htables a ha).2] at hf
    have hdispatch := hwell.arrangement.dispatch hwell.sound ((hmade c).mpr (.inr (hself c)))
      (hrelaid.lineage c ▸ ha) hf
    simp only [hrelaid.lineage, hrelaid.method?, hrelaid.func_name, hrelaid.func_sig,
      sameSignature_relaid hrelaid] at hdispatch
    exact hdispatch

end Coherence

end Weft.Store

/-!
## Layouts of several classes

Laying classes out one after the other changes tables and positions only, and no positions but those of the members of the
classes and their superclasses.
-/

namespace Weft.Store

section Spared

/-- Layouts changed, but no function or field that is no member of a class. -/
structure Spares (s t : Store) : Prop extends s.Relaid t where
  otherFunc : ∀ f, (∀ c, .func f ∉ (s.cls c).members.symbols) → t.func f = s.func f
  otherField : ∀ x, (∀ c, .field x ∉ (s.cls c).members.symbols) → t.field x = s.field x

variable {s t t' : Store} {c : ClassId}

theorem Spares.refl (s : Store) : s.Spares s := ⟨.refl s, fun _ _ => rfl, fun _ _ => rfl⟩

theorem Spares.trans (h : s.Spares t) (h' : t.Spares t') : s.Spares t' where
  toRelaid := h.toRelaid.trans h'.toRelaid
  otherFunc f hf := (h'.otherFunc f fun c => h.members c ▸ hf c).trans (h.otherFunc f hf)
  otherField x hx := (h'.otherField x fun c => h.members c ▸ hx c).trans (h.otherField x hx)

theorem spares_updateClass {f : Class → Class} (hf : ∀ x, ∃ laidOut fields methods, f x =
    { x with laidOut, fields, methods }) :
    s.Spares (updateClass c f s).2 := ⟨relays_updateClass hf s, fun _ _ => rfl, fun _ _ => rfl⟩

theorem spares_updateFunc {f : FuncId} (hf : .func f ∈ (s.cls c).members.symbols) {index : Int} :
    s.Spares (updateFunc f ({ · with index }) s).2 := by
  refine ⟨relays_updateFunc s, fun g hg => ?_, fun _ _ => rfl⟩
  rw [func_updateFunc, if_neg]
  rintro ⟨rfl, -⟩
  exact hg c hf

theorem spares_updateField {x : FieldId} (hx : .field x ∈ (s.cls c).members.symbols) {index : Int} :
    s.Spares (updateField x ({ · with index }) s).2 := by
  refine ⟨relays_updateField s, fun _ _ => rfl, fun y hy => ?_⟩
  rw [field_updateField, if_neg]
  rintro ⟨rfl, -⟩
  exact hy c hx

theorem spares_layoutMember {x : Sym} (hx : x ∈ (s.cls c).members.symbols) : s.Spares (layoutMember c x s).2 := by
  have hstep : ∀ (f : Class → Class) {t : Store}, (∀ x, ∃ laidOut fields methods, f x =
    { x with laidOut, fields, methods }) →
      s.Spares t → s.Spares (updateClass c f t).2 := fun f t hf h => h.trans (spares_updateClass hf)
  rw [layoutMember, get_bind_apply]
  cases x with
  | field f => exact hstep _ (fun _ => ⟨_, _, _, rfl⟩) (spares_updateField hx)
  | func f =>
    dsimp only
    cases s.inheritedMethod? c (s.func f).name with
    | none => exact hstep _ (fun _ => ⟨_, _, _, rfl⟩) (spares_updateFunc hx)
    | some base => exact hstep _ (fun _ => ⟨_, _, _, rfl⟩) (spares_updateFunc hx)
  | _ => exact .refl s

theorem spares_layoutMembers {xs : List Sym} (hxs : ∀ x ∈ xs, x ∈ (s.cls c).members.symbols) :
    s.Spares (xs.forM (layoutMember c) s).2 := by
  induction xs generalizing s with
  | nil => exact .refl s
  | cons x xs ih =>
    rw [List.forall_mem_cons] at hxs
    have hhead := spares_layoutMember hxs.1
    exact hhead.trans (ih fun y hy => by rw [hhead.members]; exact hxs.2 y hy)

theorem spares_layoutChain (n : Nat) (c : ClassId) (s : Store) : s.Spares (layoutChain n c s).2 := by
  induction n generalizing c s with
  | zero => exact .refl s
  | succ n ih =>
    have hcleared : s.Spares (s.cleared c) := spares_updateClass fun _ => ⟨_, _, _, rfl⟩
    have hinherited : s.Spares (inherited n c s) := by
      rw [inherited]
      split
      · split
        · exact hcleared
        · exact (hcleared.trans (ih _ _)).trans (spares_updateClass fun _ => ⟨_, _, _, rfl⟩)
      · exact hcleared
    rw [layoutChain_succ]
    split
    · exact .refl s
    · exact hinherited.trans (spares_layoutMembers fun x hx => hx)

theorem spares_layout (c : ClassId) (s : Store) : s.Spares (layout c s).2 := spares_layoutChain _ c s

/-! ## Layouts of several classes -/

/-- Classes are laid out one after the other. -/
def layouts (cs : List ClassId) (s : Store) : Store := cs.foldl (fun s c => (layout c s).2) s

theorem layouts_append (cs cs' : List ClassId) (s : Store) : s.layouts (cs ++ cs') = (s.layouts cs).layouts cs' :=
  List.foldl_append ..

theorem spares_layouts (cs : List ClassId) (s : Store) : s.Spares (s.layouts cs) := by
  induction cs generalizing s with
  | nil => exact .refl s
  | cons c cs ih => exact (spares_layout c s).trans (ih _)

theorem relaid_layouts (cs : List ClassId) (s : Store) : s.Relaid (s.layouts cs) := (spares_layouts cs s).toRelaid

/-- Classes and their superclasses were laid out. -/
structure LaidOutAll (s : Store) (cs : List ClassId) (t : Store) : Prop extends s.Spares t where
  wellLaid : t.WellLaid
  made : ∀ d, t.Made d ↔ s.Made d ∨ ∃ c ∈ cs, d ∈ s.lineage c
  outside : s.Outside (fun d => s.Made d ∨ ¬t.Made d) t

/-- Laying classes out lays out their superclasses and keeps everything else. -/
theorem WellLaid.layouts (h : s.WellLaid) (cs : List ClassId) : s.LaidOutAll cs (s.layouts cs) := by
  induction cs generalizing s with
  | nil => exact ⟨.refl s, h, fun d => by simp [Store.layouts],
    ⟨.refl s, fun _ _ => rfl, fun _ _ _ _ => rfl, fun _ _ _ _ => rfl⟩⟩
  | cons c cs ih =>
    obtain ⟨hwell, hmade⟩ := h.relaid c
    have hready : s.LayoutReady s.Made c := ⟨h.sound, h.arrangement, fun _ _ => .inl, fun _ => id⟩
    have hout : s.Outside (fun d => s.Made d ∨ d ∉ s.lineage c) (layout c s).2 :=
      (hready.layoutChain (length_chainOf_le h.sound.acyclic (s.classes.size + 1) c)).outside
    have hrest := ih hwell
    have hall : ∀ d, (s.layouts (c :: cs)).Made d ↔ s.Made d ∨ ∃ b ∈ c :: cs, d ∈ s.lineage b := by
      intro d
      rw [Store.layouts, List.foldl_cons, ← Store.layouts, hrest.made, hmade]
      simp only [hout.relaid.lineage, List.mem_cons, exists_eq_or_imp, or_assoc]
    refine ⟨spares_layouts (c :: cs) s, hrest.wellLaid, hall, (hout.trans hrest.outside).mono fun d hd => ?_⟩
    rcases hd with hd | hd
    · exact ⟨.inl hd, .inl ((hmade d).mpr (.inl hd))⟩
    · rw [hall] at hd
      simp only [List.mem_cons, exists_eq_or_imp, not_or] at hd
      refine ⟨.inr hd.2.1, .inr fun hmem => ?_⟩
      rw [hrest.made, hmade] at hmem
      simp only [hout.relaid.lineage] at hmem
      exact hmem.elim (fun h => h.elim hd.1 hd.2.1) hd.2.2

namespace LaidOutAll

variable {cs : List ClassId} (h : s.LaidOutAll cs t) (hs : s.SoundClasses)
include h hs

theorem func_unmade {f : FuncId} (hf : ∀ c, .func f ∈ (s.cls c).members.symbols → ¬t.Made c) : t.func f = s.func f := by
  by_cases hmem : ∃ c, .func f ∈ (s.cls c).members.symbols
  · obtain ⟨c, hmem⟩ := hmem
    exact h.outside.func c f (.inr (hf c hmem)) ((hs.declared c).funcs f hmem)
  · exact h.otherFunc f (not_exists.mp hmem)

theorem field_unmade {x : FieldId} (hx : ∀ c, .field x ∈ (s.cls c).members.symbols → ¬t.Made c) : t.field x = s.field x := by
  by_cases hmem : ∃ c, .field x ∈ (s.cls c).members.symbols
  · obtain ⟨c, hmem⟩ := hmem
    exact h.outside.field c x (.inr (hx c hmem)) ((hs.declared c).fields x hmem)
  · exact h.otherField x (not_exists.mp hmem)

end LaidOutAll

end Spared

end Weft.Store
