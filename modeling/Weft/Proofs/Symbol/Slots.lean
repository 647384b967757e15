import Weft.Proofs.Symbol.Hierarchy
import Weft.Proofs.Symbol.Members

/-!
# Slots of fields and methods

A class that is laid out has the fields of its superclass first and then its own, and a slot for each method that it
has: an overriding method takes the slot of the method it overrides. A slot of a superclass therefore holds, in every
class that derives from it, the method that a call through the superclass has to reach.
-/

namespace Weft

section Signatures

variable {s : Store} {a b c : Option Signature}

theorem sameSignature_refl : sameSignature s a a = true := by cases a <;> simp [sameSignature]

theorem sameSignature_trans (h : sameSignature s a b = true) (h' : sameSignature s b c = true) :
    sameSignature s a c = true := by
  cases a <;> cases b <;> cases c <;> simp_all [sameSignature]

theorem sameSignature_relaid {s' : Store} (h : s.Relaid s') : sameSignature s' a b = sameSignature s a b := by
  cases a <;> cases b <;> simp only [sameSignature, Signature.typeName_relaid h]

end Signatures

namespace Store

/-! ## Members along a lineage -/

section Lineage

variable {s : Store} {c b : ClassId} {n : String} {f g : FuncId}

theorem lineage_derives (h : s.Acyclic) (hb : s.Derives c b) : s.lineage c = c :: s.lineage b := by
  rw [lineage_eq h, show (s.cls c).super = some b from hb]

theorem lineage_root (h : s.Acyclic) (hc : (s.cls c).super = none) : s.lineage c = [c] := by
  rw [lineage_eq h, hc]

/-- What holds of a class if it holds of its superclass holds of every class. -/
theorem Acyclic.induction {P : ClassId → Prop} (h : s.Acyclic)
    (step : ∀ c, (∀ b, s.Derives c b → P b) → P c) (c : ClassId) : P c := by
  induction hn : (s.lineage c).length generalizing c with
  | zero =>
    rw [lineage_eq h] at hn
    cases hn
  | succ k ih =>
    refine step c fun b hb => ih b ?_
    rw [lineage_derives h hb, List.length_cons] at hn
    omega

theorem methodMember?_derives (h : s.Acyclic) (hb : s.Derives c b) :
    s.methodMember? c n = (s.method? c n).or (s.methodMember? b n) := by
  rw [methodMember?, lineage_derives h hb, List.findSome?_cons]
  cases s.method? c n <;> rfl

theorem methodMember?_root (h : s.Acyclic) (hc : (s.cls c).super = none) : s.methodMember? c n = s.method? c n := by
  rw [methodMember?, lineage_root h hc, List.findSome?_cons]
  cases s.method? c n <;> rfl

/-- A member that is a method is the first method of its name. -/
theorem methodMember?_of_classMember? (hm : s.classMember? c n = some (.func f)) : s.methodMember? c n = some f := by
  rw [classMember?] at hm
  rw [methodMember?]
  generalize s.lineage c = l at hm
  induction l with
  | nil => cases hm
  | cons d l ih =>
    rw [List.findSome?_cons] at hm ⊢
    rw [method?]
    cases hd : (s.cls d).members.get? n with
    | none =>
      rw [hd] at hm
      exact ih hm
    | some x =>
      rw [hd] at hm
      cases hm
      rfl

theorem methodMember?_of_no_member (hm : s.classMember? c n = none) : s.methodMember? c n = none := by
  rw [classMember?, List.findSome?_eq_none_iff] at hm
  rw [methodMember?, List.findSome?_eq_none_iff]
  intro d hd
  rw [method?, hm d hd]

/-- A method of a class or of its superclasses belongs to one of them and has the name it is found under. -/
theorem declares_of_methodMember? (hd : ∀ d, s.Declared d) (hm : s.methodMember? c n = some f) :
    (s.func f).name = n ∧ ∃ d ∈ s.lineage c, (s.func f).owner = some (.cls d) := by
  obtain ⟨d, hmem, hf⟩ := List.exists_of_findSome?_eq_some hm
  exact ⟨(hd d).name_of_method? hf, d, hmem, (hd d).owner_of_method? hf⟩

end Lineage

/-! ## Overriding -/

/-- Where a superclass has a member under the name of a method of a class, it is a method with the same signature. -/
def Overrides (s : Store) (c : ClassId) : Prop :=
  ∀ b, s.Derives c b → ∀ n f, s.method? c n = some f →
    s.classMember? b n = none ∨
      ∃ g, s.classMember? b n = some (.func g) ∧ sameSignature s (s.func g).sig (s.func f).sig = true

/-- Classes in an acyclic hierarchy that declare their own members and override methods with the same signature. -/
structure SoundClasses (s : Store) : Prop where
  acyclic : s.Acyclic
  declared : ∀ c, s.Declared c
  overrides : ∀ c, s.Overrides c

theorem inheritedMethod?_derives {s : Store} {c b : ClassId} {n : String} (h : s.Acyclic) (hb : s.Derives c b) :
    s.inheritedMethod? c n = match s.classMember? b n with
      | some (.func f) => some f
      | _ => none := by
  unfold inheritedMethod?
  rw [show (s.cls c).super = some b from hb]
  change (if s.hasCycle b then none else _) = _
  rw [not_hasCycle h]
  rfl

theorem inheritedMethod?_root {s : Store} {c : ClassId} {n : String} (hc : (s.cls c).super = none) :
    s.inheritedMethod? c n = none := by
  rw [inheritedMethod?, hc]
  rfl

namespace SoundClasses

variable {s s' : Store} {c b : ClassId} {n : String} {f g : FuncId}

/-- A method overrides the first method of its name that its superclasses have. -/
theorem overridden (h : s.SoundClasses) (hb : s.Derives c b) (hf : s.method? c n = some f)
    (hg : s.methodMember? b n = some g) :
    s.inheritedMethod? c n = some g ∧ sameSignature s (s.func g).sig (s.func f).sig = true := by
  rcases h.overrides c b hb n f hf with hnone | ⟨g', hg', hsame⟩
  · rw [methodMember?_of_no_member hnone] at hg
    cases hg
  · obtain rfl : g' = g := Option.some.inj ((methodMember?_of_classMember? hg').symm.trans hg)
    refine ⟨?_, hsame⟩
    rw [inheritedMethod?_derives h.acyclic hb, hg']

/-- What a method of a class overrides is the first method of its name that the superclasses have. -/
theorem inheritedMethod?_eq (h : s.SoundClasses) (hb : s.Derives c b) (hf : s.method? c n = some f) :
    s.inheritedMethod? c n = s.methodMember? b n := by
  cases hg : s.methodMember? b n with
  | some g => exact (h.overridden hb hf hg).1
  | none =>
    rcases h.overrides c b hb n f hf with hnone | ⟨g, hg', -⟩
    · rw [inheritedMethod?_derives h.acyclic hb, hnone]
    · rw [methodMember?_of_classMember? hg'] at hg
      cases hg

end SoundClasses

/-! ## Other layouts -/

namespace Relaid

variable {s s' : Store} (h : s.Relaid s')
include h

theorem classMember? (c : ClassId) (n : String) : s'.classMember? c n = s.classMember? c n := by
  rw [Store.classMember?, Store.classMember?, h.lineage]
  simp only [h.members]

theorem inheritedMethod? (c : ClassId) (n : String) : s'.inheritedMethod? c n = s.inheritedMethod? c n := by
  rw [Store.inheritedMethod?, Store.inheritedMethod?, h.super]
  cases (s.cls c).super with
  | none => rfl
  | some b =>
    change (if s'.hasCycle b then none else _) = if s.hasCycle b then none else _
    rw [hasCycle, hasCycle, h.lineage, h.classMember?]

theorem derives {c b : ClassId} : s'.Derives c b ↔ s.Derives c b := by rw [Derives, Derives, h.super]

theorem overrides {c : ClassId} : s'.Overrides c ↔ s.Overrides c := by
  simp only [Overrides, h.derives, h.method?, h.classMember?, h.func_sig, sameSignature_relaid h]

theorem soundClasses (hs : s.SoundClasses) : s'.SoundClasses where
  acyclic := (SameBases.ofRelaid h).acyclic hs.acyclic
  declared c := h.declared (hs.declared c)
  overrides c := h.overrides.mpr (hs.overrides c)

end Relaid

/-! ## Layouts -/

/-- The fields of the superclass of a class. -/
def baseFields (s : Store) (c : ClassId) : List FieldId :=
  match (s.cls c).super with
  | some b => (s.cls b).fields
  | none => []

/-- The methods of the superclass of a class by slot. -/
def baseMethods (s : Store) (c : ClassId) : List FuncId :=
  match (s.cls c).super with
  | some b => (s.cls b).methods
  | none => []

/-- The layout of a class is made from that of its superclass: its own fields come after the inherited ones, its
methods replace those that they override, and the others come after all. The classes that are laid out so are among
some that have the superclass with each class. -/
structure Arranged (s : Store) (among : ClassId → Prop) (c : ClassId) : Prop where
  super : ∀ b, s.Derives c b → among b
  fields : (s.cls c).fields = s.baseFields c ++ fieldsIn (s.cls c).members.symbols
  methods : (s.cls c).methods = (s.baseMethods c).map (fun f => (s.method? c (s.func f).name).getD f) ++
    (methodsIn (s.cls c).members.symbols).filter fun f => (s.inheritedMethod? c (s.func f).name).isNone
  fieldIndex : ∀ (i : Nat) f, (s.cls c).fields[i]? = some f → (s.field f).index = i
  methodIndex : ∀ (i : Nat) f, (s.cls c).methods[i]? = some f → (s.func f).index = i

/-- Classes that are laid out, with their superclasses. -/
def Arrangement (s : Store) (among : ClassId → Prop) : Prop := ∀ c, among c → s.Arranged among c

section Arrangement

variable {s s' : Store} {among among' : ClassId → Prop} {c b a : ClassId} {n : String} {f g : FuncId} {i j : Nat}

theorem baseMethods_derives (hb : s.Derives c b) : s.baseMethods c = (s.cls b).methods := by
  rw [baseMethods, show (s.cls c).super = some b from hb]

theorem baseFields_derives (hb : s.Derives c b) : s.baseFields c = (s.cls b).fields := by
  rw [baseFields, show (s.cls c).super = some b from hb]

theorem Relaid.baseMethods (h : s.Relaid s') (hbase : ∀ b, s.Derives c b → s'.cls b = s.cls b) :
    s'.baseMethods c = s.baseMethods c := by
  rw [Store.baseMethods, Store.baseMethods, h.super]
  cases hb : (s.cls c).super with
  | none => rfl
  | some b => simp only [hbase b hb]

theorem Relaid.baseFields (h : s.Relaid s') (hbase : ∀ b, s.Derives c b → s'.cls b = s.cls b) :
    s'.baseFields c = s.baseFields c := by
  rw [Store.baseFields, Store.baseFields, h.super]
  cases hb : (s.cls c).super with
  | none => rfl
  | some b => simp only [hbase b hb]

theorem Arranged.mono (h : s.Arranged among c) (hmore : ∀ d, among d → among' d) : s.Arranged among' c :=
  { h with super := fun b hb => hmore b (h.super b hb) }

/-- A list whose entries know their positions has no entry twice. -/
theorem nodup_of_index {α : Type} {xs : List α} {index : α → Int} (h : ∀ (i : Nat) x, xs[i]? = some x → index x = i) :
    xs.Nodup := by
  rw [List.nodup_iff_getElem?_ne_getElem?]
  intro i j hij hj heq
  have hi := h i xs[j] (heq.trans (List.getElem?_eq_getElem hj))
  have hj := h j xs[j] (List.getElem?_eq_getElem hj)
  omega

namespace Arrangement

variable (hs : s.SoundClasses) (h : s.Arrangement among)
include hs h

/-- Superclasses of classes that are laid out are laid out. -/
theorem lineage (hc : among c) (ha : a ∈ s.lineage c) : among a := by
  induction c using hs.acyclic.induction with
  | step c ih =>
    cases hb : (s.cls c).super with
    | none =>
      rw [lineage_root hs.acyclic hb, List.mem_singleton] at ha
      exact ha ▸ hc
    | some b =>
      rw [lineage_derives hs.acyclic hb, List.mem_cons] at ha
      rcases ha with rfl | ha
      · exact hc
      · exact ih b hb ((h c hc).super b hb) ha

/-- The method tables of a class hold the methods that it has, each under its name. -/
theorem mem_methods_iff (hc : among c) : f ∈ (s.cls c).methods ↔ s.methodMember? c (s.func f).name = some f := by
  induction c using hs.acyclic.induction generalizing f with
  | step c ih =>
    have hnew : ∀ {f}, f ∈ (methodsIn (s.cls c).members.symbols).filter
        (fun f => (s.inheritedMethod? c (s.func f).name).isNone) ↔
        s.method? c (s.func f).name = some f ∧ s.inheritedMethod? c (s.func f).name = none := by
      intro f
      rw [List.mem_filter, mem_methodsIn, Option.isNone_iff_eq_none]
      exact and_congr_left fun _ => ⟨(hs.declared c).method?_of_mem, (hs.declared c).mem_of_method?⟩
    rw [(h c hc).methods, List.mem_append, hnew]
    cases hb : (s.cls c).super with
    | none =>
      simp only [baseMethods, hb, List.map_nil, List.not_mem_nil, false_or, methodMember?_root hs.acyclic hb,
        inheritedMethod?_root hb, and_true]
    | some b =>
      have hbase := fun {f} => ih b hb ((h c hc).super b hb) (f := f)
      rw [baseMethods_derives hb, methodMember?_derives hs.acyclic hb]
      cases hf : s.method? c (s.func f).name with
      | none =>
        simp only [reduceCtorEq, false_and, or_false, Option.none_or]
        rw [← hbase, List.mem_map]
        constructor
        · rintro ⟨g, hg, rfl⟩
          cases hm : s.method? c (s.func g).name with
          | none => rwa [Option.getD_none]
          | some g' =>
            rw [hm, Option.getD_some, (hs.declared c).name_of_method? hm, hm] at hf
            cases hf
        · exact fun hmem => ⟨f, hmem, by rw [hf, Option.getD_none]⟩
      | some g =>
        rw [Option.some_or, List.mem_map, hs.inheritedMethod?_eq hb hf]
        constructor
        · rintro (⟨g', hg', rfl⟩ | ⟨hg, -⟩)
          · cases hm : s.method? c (s.func g').name with
            | none =>
              rw [hm, Option.getD_none, hm] at hf
              cases hf
            | some g'' =>
              rw [hm, Option.getD_some, (hs.declared c).name_of_method? hm, hm] at hf
              exact hf.symm
          · exact hg
        · intro hg
          cases hbm : s.methodMember? b (s.func f).name with
          | none => exact .inr ⟨hg, rfl⟩
          | some g' =>
            obtain ⟨hname, -⟩ := declares_of_methodMember? hs.declared hbm
            refine .inl ⟨g', hbase.mpr (by rw [hname, hbm]), ?_⟩
            rw [hname, hf, Option.getD_some]
            exact Option.some.inj hg

/-- A method of a class stands in the slot of its index. -/
theorem getElem?_index (hc : among c) (hf : s.methodMember? c n = some f) :
    ∃ i : Nat, (s.cls c).methods[i]? = some f ∧ (s.func f).index = i := by
  obtain ⟨hname, -⟩ := declares_of_methodMember? hs.declared hf
  have hmem := (h.mem_methods_iff hs hc).mpr (hname ▸ hf)
  obtain ⟨i, hi⟩ := List.mem_iff_getElem?.mp hmem
  exact ⟨i, hi, (h c hc).methodIndex i f hi⟩

/-- The fields of a class belong to it and its superclasses. -/
theorem owner_of_mem_fields {x : FieldId} (hc : among c) (hx : x ∈ (s.cls c).fields) :
    ∃ d ∈ s.lineage c, (s.field x).owner = some d := by
  induction c using hs.acyclic.induction with
  | step c ih =>
    rw [(h c hc).fields, List.mem_append] at hx
    rcases hx with hx | hx
    · cases hb : (s.cls c).super with
      | none =>
        rw [baseFields, hb] at hx
        cases hx
      | some b =>
        rw [baseFields_derives hb] at hx
        obtain ⟨d, hd, ho⟩ := ih b hb ((h c hc).super b hb) hx
        exact ⟨d, lineage_derives hs.acyclic hb ▸ List.mem_cons_of_mem _ hd, ho⟩
    · refine ⟨c, ?_, (hs.declared c).fields x (mem_fieldsIn.mp hx)⟩
      rw [lineage_eq hs.acyclic]
      exact List.mem_cons_self

omit hs in
/-- A slot of the superclass holds the method that the class declares under the name of the inherited one, or that one. -/
theorem getElem?_derives (hc : among c) (hb : s.Derives c b) (hf : (s.cls b).methods[i]? = some f) :
    (s.cls c).methods[i]? = some ((s.method? c (s.func f).name).getD f) := by
  have hlt : i < (s.cls b).methods.length := (List.getElem?_eq_some_iff.mp hf).1
  rw [(h c hc).methods, baseMethods_derives hb, List.getElem?_append_left (by rwa [List.length_map]),
    List.getElem?_map, hf, Option.map_some]

/-- A slot of a class holds, in the classes that derive from it, the method of that name that the most derived of them
declares, with the same signature. -/
theorem dispatch (hc : among c) (ha : a ∈ s.lineage c) (hf : (s.cls a).methods[i]? = some f) :
    ∃ g, (s.cls c).methods[i]? = some g ∧
      g = (((s.lineage c).takeWhile (· ≠ a) ++ [a]).findSome? (s.method? · (s.func f).name)).getD f ∧
      (s.func g).name = (s.func f).name ∧ sameSignature s (s.func f).sig (s.func g).sig = true := by
  induction c using hs.acyclic.induction with
  | step c ih =>
    by_cases hca : c = a
    · subst hca
      have hpath : (s.lineage c).takeWhile (· ≠ c) = [] := by
        rw [lineage_eq hs.acyclic, List.takeWhile_cons]
        simp
      refine ⟨f, hf, ?_, rfl, sameSignature_refl⟩
      rw [hpath, List.nil_append, List.findSome?_singleton]
      have hmem := (h.mem_methods_iff hs hc).mp (List.mem_of_getElem? hf)
      cases hm : s.method? c (s.func f).name with
      | none => rfl
      | some g =>
        -- the class has one method of the name
        rw [methodMember?, lineage_eq hs.acyclic, List.findSome?_cons, hm] at hmem
        exact (Option.some.inj hmem).symm
    · cases hb : (s.cls c).super with
      | none =>
        rw [lineage_root hs.acyclic hb, List.mem_singleton] at ha
        exact absurd ha.symm hca
      | some b =>
        rw [lineage_derives hs.acyclic hb, List.mem_cons] at ha
        have hamong := (h c hc).super b hb
        obtain ⟨g, hg, hpath, hname, hsame⟩ := ih b hb hamong (ha.resolve_left fun heq => hca heq.symm)
        refine ⟨_, h.getElem?_derives hc hb hg, ?_, ?_⟩
        · rw [lineage_derives hs.acyclic hb, List.takeWhile_cons, if_pos (by simpa using hca), List.cons_append,
            List.findSome?_cons, hname]
          cases s.method? c (s.func f).name with
          | none => exact hpath
          | some g' => rfl
        · cases hm : s.method? c (s.func g).name with
          | none => exact ⟨hname, hsame⟩
          | some g' =>
            have hmember := (h.mem_methods_iff hs hamong).mp (List.mem_of_getElem? hg)
            refine ⟨?_, sameSignature_trans hsame (hs.overridden hb hm hmember).2⟩
            rw [Option.getD_some, (hs.declared c).name_of_method? hm, hname]

end Arrangement

end Arrangement

end Store

end Weft
