import Mathlib.Tactic.Common
import Weft.Symbol.Class
import Weft.Symbol.Scope

/-!
# Changes of the symbol store

What the store says of a symbol after one was added or changed. Symbols of other kinds stay as they are by
definition.
-/

namespace Weft.Store

section Tables

variable {α : Type} {d x : α} {a : Array α} {i j : Nat}

/-- An entry after another or the same one was changed. -/
theorem getD_modify {f : α → α} :
    (a.modify i f)[j]?.getD d = if i = j ∧ j < a.size then f (a[j]?.getD d) else a[j]?.getD d := by
  rw [Array.getElem?_modify]
  by_cases hij : i = j
  · by_cases hj : j < a.size
    · simp [hij, hj]
    · simp [hij, hj]
  · simp [hij]

/-- An entry after one was added. -/
theorem getD_push : (a.push x)[j]?.getD d = if j = a.size then x else a[j]?.getD d := by
  rw [Array.getElem?_push]
  split <;> simp

end Tables

variable {s : Store}

theorem get_bind_apply {α : Type} {f : Store → Symbols α} : ((get : Symbols Store) >>= f) s = f s s := rfl

theorem then_apply {α β : Type} {m : Symbols α} {f : α → Symbols β} : (m >>= f) s = f (m s).1 (m s).2 := rfl

/-! ## Added symbols -/

theorem space_addSpace {x : Namespace} {n : NamespaceId} :
    (addSpace x s).2.space n = if n.index = s.spaces.size then x else s.space n := getD_push

theorem func_addFunc {x : Func} {f : FuncId} :
    (addFunc x s).2.func f = if f.index = s.funcs.size then x else s.func f := getD_push

theorem field_addField {x : Field} {f : FieldId} :
    (addField x s).2.field f = if f.index = s.fields.size then x else s.field f := getD_push

theorem cls_addClass {x : Class} {c : ClassId} :
    (addClass x s).2.cls c = if c.index = s.classes.size then x else s.cls c := getD_push

theorem iface_addInterface {x : Interface} {i : InterfaceId} :
    (addInterface x s).2.iface i = if i.index = s.interfaces.size then x else s.iface i := getD_push

/-! ## Changed symbols -/

theorem space_updateSpace {n m : NamespaceId} {change : Namespace → Namespace} :
    (updateSpace n change s).2.space m =
      if n = m ∧ m.index < s.spaces.size then change (s.space m) else s.space m := by
  obtain ⟨i⟩ := n
  obtain ⟨j⟩ := m
  simp only [NamespaceId.mk.injEq]
  exact getD_modify

theorem func_updateFunc {f h : FuncId} {change : Func → Func} :
    (updateFunc f change s).2.func h =
      if f = h ∧ h.index < s.funcs.size then change (s.func h) else s.func h := by
  obtain ⟨i⟩ := f
  obtain ⟨j⟩ := h
  simp only [FuncId.mk.injEq]
  exact getD_modify

theorem field_updateField {f h : FieldId} {change : Field → Field} :
    (updateField f change s).2.field h =
      if f = h ∧ h.index < s.fields.size then change (s.field h) else s.field h := by
  obtain ⟨i⟩ := f
  obtain ⟨j⟩ := h
  simp only [FieldId.mk.injEq]
  exact getD_modify

theorem cls_updateClass {c b : ClassId} {change : Class → Class} :
    (updateClass c change s).2.cls b =
      if c = b ∧ b.index < s.classes.size then change (s.cls b) else s.cls b := by
  obtain ⟨i⟩ := c
  obtain ⟨j⟩ := b
  simp only [ClassId.mk.injEq]
  exact getD_modify

theorem iface_updateInterface {i j : InterfaceId} {change : Interface → Interface} :
    (updateInterface i change s).2.iface j =
      if i = j ∧ j.index < s.interfaces.size then change (s.iface j) else s.iface j := by
  obtain ⟨i⟩ := i
  obtain ⟨j⟩ := j
  simp only [InterfaceId.mk.injEq]
  exact getD_modify

/-! ## Nested namespaces -/

/-- The namespace that is made for a free name. -/
def nested (s : Store) (n : NamespaceId) (name : String) : Namespace :=
  { name, path := qualified (s.space n).path name, module := (s.space n).module, members := .empty, links := [] }

/-- A nested namespace is made for a free name. -/
theorem child_apply (s : Store) (n : NamespaceId) (name : String) :
    child n name s = match (s.space n).members.get? name with
      | none =>
        (.ok ⟨s.spaces.size⟩, (updateSpace n (fun o => { o with members := o.members.push name (.space ⟨s.spaces.size⟩) })
          (addSpace (s.nested n name) s).2).2)
      | some (.space c) => (.ok c, s)
      | some existing => (.error ⟨name, existing⟩, s) := by
  rw [child, get_bind_apply]
  cases (s.space n).members.get? name with
  | none => rfl
  | some x => cases x <;> rfl

end Weft.Store

/-! ## Stores with another layout

Laying a class out gives members their slots. Everything else that a store says of its symbols stays as it is.
-/

namespace Weft.Store

/-- Two stores of the same symbols that may differ in the layout of classes. -/
structure Relaid (s s' : Store) : Prop where
  spaces : s'.spaces = s.spaces
  globals : s'.globals = s.globals
  interfaces : s'.interfaces = s.interfaces
  enums : s'.enums = s.enums
  classCount : s'.classes.size = s.classes.size
  func : ∀ f, ∃ index, s'.func f = { s.func f with index }
  field : ∀ f, ∃ index, s'.field f = { s.field f with index }
  cls : ∀ c, ∃ laidOut fields methods, s'.cls c = { s.cls c with laidOut, fields, methods }

namespace Relaid

variable {s s' s'' : Store}

theorem refl (s : Store) : s.Relaid s :=
  ⟨rfl, rfl, rfl, rfl, rfl, fun _ => ⟨_, rfl⟩, fun _ => ⟨_, rfl⟩, fun _ => ⟨_, _, _, rfl⟩⟩

theorem trans (h : s.Relaid s') (h' : s'.Relaid s'') : s.Relaid s'' where
  spaces := h'.spaces.trans h.spaces
  globals := h'.globals.trans h.globals
  interfaces := h'.interfaces.trans h.interfaces
  enums := h'.enums.trans h.enums
  classCount := h'.classCount.trans h.classCount
  func f := by
    obtain ⟨i, hi⟩ := h.func f
    obtain ⟨j, hj⟩ := h'.func f
    exact ⟨j, by rw [hj, hi]⟩
  field f := by
    obtain ⟨i, hi⟩ := h.field f
    obtain ⟨j, hj⟩ := h'.field f
    exact ⟨j, by rw [hj, hi]⟩
  cls c := by
    obtain ⟨l, fs, ms, hl⟩ := h.cls c
    obtain ⟨l', fs', ms', hl'⟩ := h'.cls c
    exact ⟨l', fs', ms', by rw [hl', hl]⟩

end Relaid

/-- A computation on the symbols that changes no more than the layout of classes. -/
def Relays {α : Type} (m : Symbols α) : Prop := ∀ s : Store, s.Relaid (m s).2

section Relays

variable {α β : Type}

theorem relays_pure {a : α} : Relays (pure a) := fun s => .refl s

theorem relays_get : Relays (get : Symbols Store) := fun s => .refl s

theorem Relays.bind {m : Symbols α} {f : α → Symbols β} (hm : Relays m) (hf : ∀ a, Relays (f a)) : Relays (m >>= f) :=
  fun s => (hm s).trans (hf _ _)

theorem relays_forM {ι : Type} {f : ι → Symbols PUnit} (xs : List ι) (hf : ∀ x, Relays (f x)) : Relays (xs.forM f) := by
  induction xs with
  | nil => exact relays_pure
  | cons x xs ih => exact (hf x).bind fun _ => ih

theorem relays_updateFunc {i : FuncId} {index : Int} : Relays (updateFunc i ({ · with index })) := by
  intro s
  refine ⟨rfl, rfl, rfl, rfl, rfl, fun f => ?_, fun _ => ⟨_, rfl⟩, fun _ => ⟨_, _, _, rfl⟩⟩
  rw [func_updateFunc]
  split
  · exact ⟨_, rfl⟩
  · exact ⟨_, rfl⟩

theorem relays_updateField {i : FieldId} {index : Int} : Relays (updateField i ({ · with index })) := by
  intro s
  refine ⟨rfl, rfl, rfl, rfl, rfl, fun _ => ⟨_, rfl⟩, fun f => ?_, fun _ => ⟨_, _, _, rfl⟩⟩
  rw [field_updateField]
  split
  · exact ⟨_, rfl⟩
  · exact ⟨_, rfl⟩

theorem relays_updateClass {c : ClassId} {f : Class → Class}
    (hf : ∀ x, ∃ laidOut fields methods, f x = { x with laidOut, fields, methods }) : Relays (updateClass c f) := by
  intro s
  refine ⟨rfl, rfl, rfl, rfl, Array.size_modify .., fun _ => ⟨_, rfl⟩, fun _ => ⟨_, rfl⟩, fun d => ?_⟩
  rw [cls_updateClass]
  split
  · exact hf _
  · exact ⟨_, _, _, rfl⟩

theorem relays_layoutMember {c : ClassId} {sym : Sym} : Relays (layoutMember c sym) := by
  refine relays_get.bind fun s => ?_
  split
  · exact relays_updateField.bind fun _ => relays_updateClass fun _ => ⟨_, _, _, rfl⟩
  · split
    · exact relays_updateFunc.bind fun _ => relays_updateClass fun _ => ⟨_, _, _, rfl⟩
    · exact relays_updateFunc.bind fun _ => relays_updateClass fun _ => ⟨_, _, _, rfl⟩
  · exact relays_pure

theorem relays_layoutChain {n : Nat} {c : ClassId} : Relays (layoutChain n c) := by
  induction n generalizing c with
  | zero => exact relays_pure
  | succ n ih =>
    have hmembers : Relays (do ((← get).cls c).members.symbols.forM (layoutMember c)) :=
      relays_get.bind fun s => relays_forM _ fun _ => relays_layoutMember
    have hreset : Relays (updateClass c ({ · with laidOut := true, fields := [], methods := [] })) :=
      relays_updateClass fun _ => ⟨_, _, _, rfl⟩
    refine relays_get.bind fun s => ?_
    split
    · exact relays_pure
    · refine hreset.bind fun _ => ?_
      split
      · refine relays_get.bind fun s => ?_
        split
        · refine ih.bind fun _ => relays_get.bind fun s => ?_
          exact (relays_updateClass fun _ => ⟨_, _, _, rfl⟩).bind fun _ => hmembers
        · exact hmembers
      · exact hmembers

/-- Laying a class out changes no more than layouts. -/
theorem relays_layout {c : ClassId} : Relays (layout c) := relays_get.bind fun _ => relays_layoutChain

end Relays

end Weft.Store
