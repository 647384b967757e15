import Weft.Proofs.Analysis.Linking

/-!
# Stores that grow

Symbols are only ever added. A store that has grown still has its old symbols, and those that no one was free to change
are as they were.
-/

namespace Weft

/-- The kinds of symbols that have identities. -/
inductive SymKind where
  | space | func | global | field | cls | iface | enumeration
deriving DecidableEq, Repr

namespace Store

/-- How many symbols of a kind a store has. -/
def count (s : Store) : SymKind → Nat
  | .space => s.spaces.size
  | .func => s.funcs.size
  | .global => s.globals.size
  | .field => s.fields.size
  | .cls => s.classes.size
  | .iface => s.interfaces.size
  | .enumeration => s.enums.size

/-- The second store has no fewer symbols of any kind. -/
def Below (s t : Store) : Prop := ∀ k, s.count k ≤ t.count k

theorem Below.refl (s : Store) : s.Below s := fun _ => Nat.le_refl _

theorem Below.trans {s t r : Store} (h : s.Below t) (h' : t.Below r) : s.Below r := fun k => (h k).trans (h' k)

instance : Std.Refl Below := ⟨Below.refl⟩

instance : IsTrans Store Below := ⟨fun _ _ _ h h' => h.trans h'⟩

/-! ### Counts after a change -/

section Counts

variable {s : Store} (k : SymKind)

theorem count_addSpace {x : Namespace} : (addSpace x s).2.count k = s.count k + if k = .space then 1 else 0 := by
  cases k <;> first | rfl | exact Array.size_push _

theorem count_addFunc {x : Func} : (addFunc x s).2.count k = s.count k + if k = .func then 1 else 0 := by
  cases k <;> first | rfl | exact Array.size_push _

theorem count_addGlobal {x : Global} : (addGlobal x s).2.count k = s.count k + if k = .global then 1 else 0 := by
  cases k <;> first | rfl | exact Array.size_push _

theorem count_addField {x : Field} : (addField x s).2.count k = s.count k + if k = .field then 1 else 0 := by
  cases k <;> first | rfl | exact Array.size_push _

theorem count_addClass {x : Class} : (addClass x s).2.count k = s.count k + if k = .cls then 1 else 0 := by
  cases k <;> first | rfl | exact Array.size_push _

theorem count_addInterface {x : Interface} : (addInterface x s).2.count k = s.count k + if k = .iface then 1 else 0 := by
  cases k <;> first | rfl | exact Array.size_push _

theorem count_addEnum {x : Enum} : (addEnum x s).2.count k = s.count k + if k = .enumeration then 1 else 0 := by
  cases k <;> first | rfl | exact Array.size_push _

theorem count_updateSpace {n : NamespaceId} {f : Namespace → Namespace} : (updateSpace n f s).2.count k = s.count k := by
  cases k <;> first | rfl | exact Array.size_modify

theorem count_updateFunc {i : FuncId} {f : Func → Func} : (updateFunc i f s).2.count k = s.count k := by
  cases k <;> first | rfl | exact Array.size_modify

theorem count_updateGlobal {g : GlobalId} {f : Global → Global} : (updateGlobal g f s).2.count k = s.count k := by
  cases k <;> first | rfl | exact Array.size_modify

theorem count_updateField {i : FieldId} {f : Field → Field} : (updateField i f s).2.count k = s.count k := by
  cases k <;> first | rfl | exact Array.size_modify

theorem count_updateClass {c : ClassId} {f : Class → Class} : (updateClass c f s).2.count k = s.count k := by
  cases k <;> first | rfl | exact Array.size_modify

theorem count_updateInterface {i : InterfaceId} {f : Interface → Interface} : (updateInterface i f s).2.count k = s.count k := by
  cases k <;> first | rfl | exact Array.size_modify

theorem count_updateEnum {e : EnumId} {f : Enum → Enum} : (updateEnum e f s).2.count k = s.count k := by
  cases k <;> first | rfl | exact Array.size_modify

end Counts

end Store

/-- Whatever a file declares, no symbol is lost. -/
theorem Analysis.outlineMoves_below : Analysis.OutlineMoves Store.Below where
  addSpace _ _ k := (Store.count_addSpace k).ge.trans' (Nat.le_add_right _ _)
  addFunc _ _ k := (Store.count_addFunc k).ge.trans' (Nat.le_add_right _ _)
  addGlobal _ _ k := (Store.count_addGlobal k).ge.trans' (Nat.le_add_right _ _)
  addField _ _ k := (Store.count_addField k).ge.trans' (Nat.le_add_right _ _)
  addClass _ _ _ k := (Store.count_addClass k).ge.trans' (Nat.le_add_right _ _)
  addInterface _ _ _ k := (Store.count_addInterface k).ge.trans' (Nat.le_add_right _ _)
  addEnum _ _ k := (Store.count_addEnum k).ge.trans' (Nat.le_add_right _ _)
  updateSpace _ _ _ k := (Store.count_updateSpace k).ge
  updateFunc _ _ _ k := (Store.count_updateFunc k).ge
  updateGlobal _ _ _ k := (Store.count_updateGlobal k).ge
  updateField _ _ _ k := (Store.count_updateField k).ge
  updateClass _ _ _ _ k := (Store.count_updateClass k).ge
  updateInterface _ _ _ _ k := (Store.count_updateInterface k).ge
  updateEnum _ _ _ k := (Store.count_updateEnum k).ge

/-! ## Arrays that grow -/

section Arrays

variable {α : Type} {own own' : Nat → Prop} {xs ys zs : Array α}

/-- Every entry of an array is still there, and as it was unless someone owns it. -/
structure Keeps (own : Nat → Prop) (xs ys : Array α) : Prop where
  size : xs.size ≤ ys.size
  same : ∀ i, i < xs.size → ¬own i → ys[i]? = xs[i]?

namespace Keeps

theorem refl (xs : Array α) : Keeps own xs xs := ⟨Nat.le_refl _, fun _ _ _ => rfl⟩

theorem trans (h : Keeps own xs ys) (h' : Keeps own' ys zs) : Keeps (fun i => own i ∨ own' i) xs zs where
  size := h.size.trans h'.size
  same i hi hown := by
    rw [h'.same i (Nat.lt_of_lt_of_le hi h.size) fun ho => hown (.inr ho), h.same i hi fun ho => hown (.inl ho)]

theorem mono (h : Keeps own xs ys) (hown : ∀ i, i < xs.size → own i → own' i) : Keeps own' xs ys where
  size := h.size
  same i hi hi' := h.same i hi fun ho => hi' (hown i hi ho)

/-- One more entry. -/
theorem push (h : Keeps own xs ys) (y : α) : Keeps own xs (ys.push y) where
  size := by
    rw [Array.size_push]
    exact Nat.le_succ_of_le h.size
  same i hi hown := by
    rw [Array.getElem?_push, if_neg (Nat.ne_of_lt (Nat.lt_of_lt_of_le hi h.size)), h.same i hi hown]

/-- A change of an entry that is new or owned. -/
theorem modify (h : Keeps own xs ys) {i : Nat} {f : α → α} (hi : own i ∨ xs.size ≤ i) : Keeps own xs (ys.modify i f) where
  size := by
    rw [Array.size_modify]
    exact h.size
  same j hj hown := by
    rw [Array.getElem?_modify, h.same j hj hown, if_neg]
    rintro rfl
    rcases hi with hi | hi
    · exact hown hi
    · omega

end Keeps

end Arrays

/-- The second store has all symbols of the first as they were, but for some namespaces. -/
structure Store.Kept (roots : List NamespaceId) (s t : Store) : Prop where
  spaces : Keeps (fun i => ⟨i⟩ ∈ roots) s.spaces t.spaces
  funcs : Keeps (fun _ => False) s.funcs t.funcs
  globals : Keeps (fun _ => False) s.globals t.globals
  fields : Keeps (fun _ => False) s.fields t.fields
  classes : Keeps (fun _ => False) s.classes t.classes
  interfaces : Keeps (fun _ => False) s.interfaces t.interfaces
  enums : Keeps (fun _ => False) s.enums t.enums

namespace Store.Kept

variable {roots roots' : List NamespaceId} {s t r : Store}

theorem refl (s : Store) : s.Kept roots s := ⟨.refl _, .refl _, .refl _, .refl _, .refl _, .refl _, .refl _⟩

theorem trans (h : s.Kept roots t) (h' : t.Kept roots' r) : s.Kept (roots ++ roots') r where
  spaces := (h.spaces.trans h'.spaces).mono fun _ _ ho => List.mem_append.mpr ho
  funcs := (h.funcs.trans h'.funcs).mono fun _ _ ho => or_self_iff.mp ho
  globals := (h.globals.trans h'.globals).mono fun _ _ ho => or_self_iff.mp ho
  fields := (h.fields.trans h'.fields).mono fun _ _ ho => or_self_iff.mp ho
  classes := (h.classes.trans h'.classes).mono fun _ _ ho => or_self_iff.mp ho
  interfaces := (h.interfaces.trans h'.interfaces).mono fun _ _ ho => or_self_iff.mp ho
  enums := (h.enums.trans h'.enums).mono fun _ _ ho => or_self_iff.mp ho

theorem below (h : s.Kept roots t) : s.Below t
  | .space => h.spaces.size
  | .func => h.funcs.size
  | .global => h.globals.size
  | .field => h.fields.size
  | .cls => h.classes.size
  | .iface => h.interfaces.size
  | .enumeration => h.enums.size

end Store.Kept

end Weft

/-! ## Declaring records

What each step with which a record declares its symbols keeps, the whole record keeps, whether it is declared to its
end or breaks off.
-/

namespace Weft.Declare

/-- A computation that keeps an invariant, whether it fails or not. -/
def Keeps {α : Type} (I : Declaring → Prop) (m : Declare α) : Prop := ∀ d, I d → I (m d).2

/-- An invariant that is kept by every step with which a record declares symbols. -/
structure Steps (I : Declaring → Prop) : Prop where
  symbols : ∀ {α : Type} {m : Symbols α}, Analysis.MovesSymbols Store.Below m → Keeps I (symbols m)
  func : ∀ x type, Keeps I (do
    let f ← Declare.symbols (Store.addFunc x)
    await (.func f type)
    return f)
  await : ∀ p, (∀ f type, p ≠ .func f type) → Keeps I (await p)
  globals : ∀ f : Declaring → List (Option GlobalId),
    Keeps I (modify fun d => { d with module.globals := f d })

section

open Analysis

variable {α β : Type} {I : Declaring → Prop} {path : String} {r : SymbolRecord}

theorem keeps_pure {a : α} : Keeps I (pure a : Declare α) := fun _ h => h

theorem keeps_throw {e : DeclareError} : Keeps I (throw e : Declare α) := fun _ h => h

theorem keeps_get : Keeps I (get : Declare Declaring) := fun _ h => h

theorem Keeps.bind {m : Declare α} {f : α → Declare β} (hm : Keeps I m) (hf : ∀ a, Keeps I (f a)) : Keeps I (m >>= f) := by
  intro d hd
  have hfirst := hm d hd
  change I (ExceptT.bindCont (m := StateM Declaring) f (m d).1 (m d).2).2
  cases (m d).1 with
  | error e => exact hfirst
  | ok a => exact hf a (m d).2 hfirst

theorem keeps_forM {ι : Type} {f : ι → Declare Unit} (xs : List ι) (hf : ∀ x, Keeps I (f x)) : Keeps I (xs.forM f) := by
  induction xs with
  | nil => exact keeps_pure
  | cons x xs ih => exact (hf x).bind fun _ => ih

variable (h : Steps I)
include h

theorem keeps_unique {m : Symbols (Except AlreadyDefined α)} (hm : MovesSymbols Store.Below m) : Keeps I (unique m) := by
  refine (h.symbols hm).bind fun x => ?_
  split
  · exact keeps_pure
  · exact keeps_throw

theorem keeps_func {fileLocal : Bool} : Keeps I (func r path fileLocal) :=
  keeps_get.bind fun _ => h.func _ _

theorem keeps_classMember {c : ClassId} : Keeps I (classMember c path r) := by
  unfold classMember
  split
  · refine (h.symbols (outlineMoves_below.addField _)).bind fun _ => (h.await _ (by nofun)).bind fun _ => ?_
    exact keeps_unique h (moves_defineMember outlineMoves_below)
  · exact (keeps_func h).bind fun _ => keeps_unique h (moves_defineMember outlineMoves_below)
  · exact keeps_pure

theorem keeps_classBases {c : ClassId} {super : Bool} (bs : List TypeRecord) : Keeps I (classBases c super bs) := by
  cases bs with
  | nil => exact keeps_pure
  | cons b rest => exact (h.await _ (by nofun)).bind fun _ => keeps_forM _ fun _ => h.await _ nofun

theorem keeps_global : Keeps I (global path r) := by
  refine keeps_get.bind fun d => ?_
  have hdefine : Keeps I (do
      let g ← symbols <| Store.addGlobal
        { name := r.name, path, module := d.module.name, fileLocal := r.fileLocal, type := none, index := r.index }
      modify fun d => { d with module.globals := d.module.globals.set r.index.toNat (some g) }
      await (.global g r.type)
      return g) :=
    (h.symbols (outlineMoves_below.addGlobal _)).bind fun _ => (h.globals _).bind fun _ =>
      (h.await _ (by nofun)).bind fun _ => keeps_pure
  simp only
  split
  · exact keeps_throw.bind fun _ => hdefine
  · exact hdefine

theorem keeps_cls : Keeps I (cls path r) :=
  keeps_get.bind fun _ => (h.symbols (outlineMoves_below.addClass _ rfl)).bind fun _ =>
    (keeps_forM _ fun _ => keeps_classMember h).bind fun _ => (keeps_classBases h _).bind fun _ => keeps_pure

theorem keeps_iface : Keeps I (iface path r) :=
  keeps_get.bind fun _ => (h.symbols (outlineMoves_below.addInterface _ rfl)).bind fun _ =>
    (keeps_forM _ fun _ => (keeps_func h).bind fun _ =>
      keeps_unique h (moves_defineSignature outlineMoves_below)).bind fun _ =>
      (keeps_forM _ fun _ => h.await _ (by nofun)).bind fun _ => keeps_pure

theorem keeps_enumeration : Keeps I (enumeration path r) :=
  keeps_get.bind fun _ => (h.symbols (outlineMoves_below.addEnum _)).bind fun _ =>
    (keeps_forM _ fun _ => (keeps_unique h (moves_addItem outlineMoves_below.toScopeMoves)).bind fun _ =>
      keeps_pure).bind fun _ => keeps_pure

theorem keeps_leaf : Keeps I (leaf path r) := by
  unfold leaf
  split
  · exact (keeps_func h).bind fun _ => keeps_pure
  · exact (keeps_global h).bind fun _ => keeps_pure
  · exact (keeps_cls h).bind fun _ => keeps_pure
  · exact (keeps_iface h).bind fun _ => keeps_pure
  · exact (keeps_enumeration h).bind fun _ => keeps_pure
  · exact keeps_throw

omit h

mutual

theorem keeps_symbol (h : Steps I) (n : NamespaceId) : ∀ r : SymbolRecord, Keeps I (symbol n r)
  | ⟨kind, own, fileLocal, type, params, index, value, virtual, override, bases, super, members⟩ => by
    rw [symbol]
    refine keeps_get.bind fun d => ?_
    simp only
    split
    · refine keeps_get.bind fun _ => Keeps.bind (h.symbols (outlineMoves_below.addSpace _)) fun c => ?_
      exact (keeps_into h c members).bind fun _ => keeps_pure
    · exact keeps_leaf h

/-- The records of a namespace keep what each step keeps. -/
theorem keeps_into (h : Steps I) (n : NamespaceId) : ∀ rs : List SymbolRecord, Keeps I (into n rs)
  | [] => by
    rw [into]
    exact keeps_pure
  | r :: rs => by
    rw [into]
    refine (keeps_symbol h n r).bind fun _ => ?_
    exact (keeps_unique h (moves_define outlineMoves_below.toScopeMoves)).bind fun _ => keeps_into h n rs

end

end

end Weft.Declare

namespace Weft.Module

/-- What the steps of a record keep holds where it is declared, if it holds at its start. -/
theorem keeps_declare {I : Declaring → Prop} (h : Declare.Steps I) {m : Module} {record : NamespaceRecord} {s : Store}
    (hstart : I { store := s, module := { m with globals := List.replicate record.globals.toNat none }, pending := [] }) :
    ∃ pending, I ⟨(m.declare record s).2, (m.declare record s).1.2, pending⟩ ∧
      ∀ ps, (m.declare record s).1.1 = .ok ps → ps = pending := by
  have hinto := Declare.keeps_into h m.space record.members _ hstart
  unfold declare
  simp only
  rcases hrun : Declare.into m.space record.members _ with ⟨e | _, d⟩ <;> rw [hrun] at hinto
  · exact ⟨d.pending, hinto, nofun⟩
  · exact ⟨d.pending, hinto, fun ps hps => (Except.ok.inj hps).symm⟩

end Weft.Module
