import Weft.Proofs.Cbor.Records
import Weft.Symbol.Image

/-!
# Stored declarations are read back from their data

By induction over stored types and stored declarations. The data of a record takes a level of nesting for the
record itself, so that the levels the reader was given are never used up within the limits.
-/

namespace Weft

open Cbor Cbor.Item

/-! ## Stored types -/

mutual

/-- Whether the kinds in a stored type fit in a byte. -/
def TypeRecord.Kinded : TypeRecord → Prop
  | ⟨kind, _, elem, value, items, _, _, _⟩ => kind < 256 ∧ kindedOption elem ∧ kindedOption value ∧ kindedTypes items

/-- Whether the kinds in a stored type fit, if there is one. -/
def kindedOption : Option TypeRecord → Prop
  | none => True
  | some r => r.Kinded

/-- Whether the kinds in stored types fit. -/
def kindedTypes : List TypeRecord → Prop
  | [] => True
  | r :: rs => r.Kinded ∧ kindedTypes rs

end

mutual

theorem TypeRecord.plain_item : (r : TypeRecord) → r.item.Plain
  | ⟨kind, name, elem, value, items, refs, defaults, coro⟩ => by
    have helem := plain_optionItem elem
    have hvalue := plain_optionItem value
    have hitems := plain_listField (plain_typeItems items)
    have hrefs : ∀ i ∈ refs.map ofBool, i.Plain := List.forall_mem_map.mpr fun b _ => plain_ofBool b
    rw [TypeRecord.item]
    apply plain_record
    simp only [fieldsAre_cons]
    exact ⟨by simp [Plain], plain_stringField _, helem, hvalue, hitems, plain_listField hrefs, plain_intField _,
      plain_boolField _, fieldsAre_nil⟩

theorem plain_optionItem : (o : Option TypeRecord) → ∀ i ∈ optionItem o, i.Plain
  | none => by simp [optionItem]
  | some r => by simpa [optionItem] using r.plain_item

theorem plain_typeItems : (rs : List TypeRecord) → ∀ i ∈ typeItems rs, i.Plain
  | [] => by simp [typeItems]
  | r :: rs => by simpa [typeItems] using ⟨r.plain_item, plain_typeItems rs⟩

end

theorem TypeRecord.isNull_item (r : TypeRecord) : r.item.isNull = false := by
  obtain ⟨kind, name, elem, value, items, refs, defaults, coro⟩ := r
  rfl

mutual

/-- A stored type is read back. -/
theorem TypeRecord.ofItem?_item : (r : TypeRecord) → r.Kinded → r.item.InWords → ∀ {n d : Nat},
    r.item.within n = true → n ≤ d → TypeRecord.ofItem? d r.item = some r
  | ⟨kind, name, elem, value, items, refs, defaults, coro⟩, ⟨hkind, hke, hkv, hki⟩, hw, n, d, hn, hd => by
    rw [TypeRecord.item] at hw hn ⊢
    obtain ⟨k, rfl, hlevels⟩ := within_record hn
    obtain ⟨d, rfl⟩ : ∃ e, d = e + 1 := ⟨d - 1, by omega⟩
    have hd : k ≤ d := by omega
    have hsub : k - 1 ≤ d := by omega
    have hw := inWords_record hw
    simp only [fieldsAre_cons] at hw hlevels
    obtain ⟨-, -, hwe, hwv, hwi, -, hwd, -⟩ := hw
    obtain ⟨-, -, hne, hnv, hni, -⟩ := hlevels
    have helem := optional?_optionItem elem hke hwe hne hd
    have hvalue := optional?_optionItem value hkv hwv hnv hd
    have hitems := list?_listField (mapM_typeItems items hki (inWords_listField hwi) (within_listField hni) hsub)
    have hrefs := list?_listField (mapM_map_some (f := ofBool) (l := refs) fun b _ => bool?_ofBool b)
    rw [TypeRecord.ofItem?, record?_record, Option.bind_eq_bind, Option.bind_some]
    simp [fieldOf_entriesFrom, byte?_uint hkind, string?_stringField, bool?_boolField, helem, hvalue, hitems, hrefs,
      int?_intField hwd]

theorem optional?_optionItem : (o : Option TypeRecord) → kindedOption o → (∀ i ∈ optionItem o, i.InWords) →
    ∀ {n d : Nat}, (∀ i ∈ optionItem o, i.within n = true) → n ≤ d →
    ((optionItem o).getD null).optional? (TypeRecord.ofItem? d) = some o
  | none, _, _, _, _, _, _ => rfl
  | some r, hk, hw, n, d, hn, hd => by
    have hr := r.ofItem?_item hk (hw _ rfl) (hn _ rfl) hd
    simp [optionItem, optional?, r.isNull_item, hr]

theorem mapM_typeItems : (rs : List TypeRecord) → kindedTypes rs → (∀ i ∈ typeItems rs, i.InWords) →
    ∀ {n d : Nat}, (∀ i ∈ typeItems rs, i.within n = true) → n ≤ d →
    (typeItems rs).mapM (TypeRecord.ofItem? d) = some rs
  | [], _, _, _, _, _, _ => rfl
  | r :: rs, hk, hw, n, d, hn, hd => by
    simp only [typeItems, List.forall_mem_cons] at hw hn
    have hr := r.ofItem?_item hk.1 hw.1 hn.1 hd
    have hrs := mapM_typeItems rs hk.2 hw.2 hn.2 hd
    simp [typeItems, hr, hrs]

end

/-! ## Stored declarations -/

mutual

/-- Whether the kinds in a stored declaration fit in a byte. -/
def SymbolRecord.Kinded : SymbolRecord → Prop
  | ⟨kind, _, _, type, _, _, _, _, _, bases, _, members⟩ =>
    kind < 256 ∧ kindedOption type ∧ kindedTypes bases ∧ kindedSymbols members

/-- Whether the kinds in stored declarations fit. -/
def kindedSymbols : List SymbolRecord → Prop
  | [] => True
  | r :: rs => r.Kinded ∧ kindedSymbols rs

end

mutual

/-- A stored declaration as it is read back: an empty list of parameters is not told apart from none. -/
def SymbolRecord.settled : SymbolRecord → SymbolRecord
  | ⟨kind, name, fileLocal, type, params, index, value, virtual, override, bases, super, members⟩ =>
    ⟨kind, name, fileLocal, type, if params.getD [] = [] then none else params, index, value, virtual, override, bases,
      super, settledSymbols members⟩

/-- Stored declarations as they are read back. -/
def settledSymbols : List SymbolRecord → List SymbolRecord
  | [] => []
  | r :: rs => r.settled :: settledSymbols rs

end

mutual

theorem SymbolRecord.plain_item : (r : SymbolRecord) → r.item.Plain
  | ⟨kind, name, fileLocal, type, params, index, value, virtual, override, bases, super, members⟩ => by
    have htype := plain_optionItem type
    have hbases := plain_listField (plain_typeItems bases)
    have hmembers := plain_listField (plain_symbolItems members)
    have hparams : ∀ i ∈ (params.getD []).map ofString, i.Plain := by simp [ofString, Plain]
    rw [SymbolRecord.item]
    apply plain_record
    simp only [fieldsAre_cons]
    exact ⟨by simp [Plain], by simp [ofString, Plain], plain_boolField _, htype, plain_listField hparams,
      plain_intField _, plain_intField _, plain_boolField _, plain_boolField _, hbases, plain_boolField _, hmembers,
      fieldsAre_nil⟩

theorem plain_symbolItems : (rs : List SymbolRecord) → ∀ i ∈ symbolItems rs, i.Plain
  | [] => by simp [symbolItems]
  | r :: rs => by simpa [symbolItems] using ⟨r.plain_item, plain_symbolItems rs⟩

end

mutual

/-- A stored declaration has the data of its settled form. -/
theorem SymbolRecord.item_settled : (r : SymbolRecord) → r.settled.item = r.item
  | ⟨kind, name, fileLocal, type, params, index, value, virtual, override, bases, super, members⟩ => by
    have hparams : (if params.getD [] = [] then none else params).getD [] = params.getD [] := by
      split
      · next h => rw [h, Option.getD_none]
      · rfl
    rw [SymbolRecord.settled, SymbolRecord.item, SymbolRecord.item, hparams, symbolItems_settled members]

theorem symbolItems_settled : (rs : List SymbolRecord) → symbolItems (settledSymbols rs) = symbolItems rs
  | [] => rfl
  | r :: rs => by rw [settledSymbols, symbolItems, symbolItems, r.item_settled, symbolItems_settled rs]

end

theorem optional?_params (params : Option (List String)) :
    ((listField ((params.getD []).map ofString)).getD null).optional? (list? string?) =
      some (if params.getD [] = [] then none else params) := by
  cases params with
  | none => rfl
  | some ps =>
    cases ps with
    | nil => rfl
    | cons p ps =>
      have hlist := list?_listField (mapM_map_some (f := ofString) (l := p :: ps) fun s _ => string?_ofString s)
      have harray : listField ((p :: ps).map ofString) = some (array ((p :: ps).map ofString)) := rfl
      rw [harray, Option.getD_some] at hlist
      rw [Option.getD_some, harray, Option.getD_some, if_neg (by simp), optional?, hlist]
      rfl

mutual

/-- A stored declaration is read back. -/
theorem SymbolRecord.ofItem?_item : (r : SymbolRecord) → r.Kinded → r.item.InWords → ∀ {n d : Nat},
    r.item.within n = true → n ≤ d → SymbolRecord.ofItem? d r.item = some r.settled
  | ⟨kind, name, fileLocal, type, params, index, value, virtual, override, bases, super, members⟩,
    ⟨hkind, hkt, hkb, hkm⟩, hw, n, d, hn, hd => by
    rw [SymbolRecord.item] at hw hn ⊢
    obtain ⟨k, rfl, hlevels⟩ := within_record hn
    obtain ⟨d, rfl⟩ : ∃ e, d = e + 1 := ⟨d - 1, by omega⟩
    have hd : k ≤ d := by omega
    have hsub : k - 1 ≤ d := by omega
    have hw := inWords_record hw
    simp only [fieldsAre_cons] at hw hlevels
    obtain ⟨-, -, -, hwt, -, hwindex, hwvalue, -, -, hwb, -, hwm, -⟩ := hw
    obtain ⟨-, -, -, hnt, -, -, -, -, -, hnb, -, hnm, -⟩ := hlevels
    have htype := optional?_optionItem type hkt hwt hnt hd
    have hbases := list?_listField (mapM_typeItems bases hkb (inWords_listField hwb) (within_listField hnb) hsub)
    have hmembers :=
      list?_listField (mapM_symbolItems members hkm (inWords_listField hwm) (within_listField hnm) hsub)
    rw [SymbolRecord.ofItem?, record?_record, Option.bind_eq_bind, Option.bind_some]
    simp [fieldOf_entriesFrom, byte?_uint hkind, string?_ofString, bool?_boolField, htype, hbases, hmembers,
      int?_intField hwindex, int?_intField hwvalue, optional?_params, SymbolRecord.settled]

theorem mapM_symbolItems : (rs : List SymbolRecord) → kindedSymbols rs → (∀ i ∈ symbolItems rs, i.InWords) →
    ∀ {n d : Nat}, (∀ i ∈ symbolItems rs, i.within n = true) → n ≤ d →
    (symbolItems rs).mapM (SymbolRecord.ofItem? d) = some (settledSymbols rs)
  | [], _, _, _, _, _, _ => rfl
  | r :: rs, hk, hw, n, d, hn, hd => by
    simp only [symbolItems, List.forall_mem_cons] at hw hn
    have hr := r.ofItem?_item hk.1 hw.1 hn.1 hd
    have hrs := mapM_symbolItems rs hk.2 hw.2 hn.2 hd
    simp [symbolItems, settledSymbols, hr, hrs]

end

/-- The stored declarations of a module as they are read back. -/
def NamespaceRecord.settled (r : NamespaceRecord) : NamespaceRecord := { r with members := settledSymbols r.members }

theorem NamespaceRecord.item_settled (r : NamespaceRecord) : r.settled.item = r.item := by
  rw [NamespaceRecord.item, NamespaceRecord.item, settled, symbolItems_settled]

theorem NamespaceRecord.isNull_item (r : NamespaceRecord) : r.item.isNull = false := rfl

theorem NamespaceRecord.plain_item (r : NamespaceRecord) : r.item.Plain := by
  apply plain_record
  simp only [fieldsAre_cons]
  exact ⟨plain_listField (plain_symbolItems _), plain_intField _, fieldsAre_nil⟩

/-- The stored declarations of a module are read back. -/
theorem NamespaceRecord.ofItem?_item {r : NamespaceRecord} {n : Nat} (hk : kindedSymbols r.members)
    (hw : r.item.InWords) (hn : r.item.within n = true) (hm : n ≤ maxNesting) :
    NamespaceRecord.ofItem? r.item = some r.settled := by
  obtain ⟨k, rfl, hlevels⟩ := within_record hn
  have hw := inWords_record hw
  simp only [fieldsAre_cons] at hw hlevels
  have hmembers := list?_listField
    (mapM_symbolItems r.members hk (inWords_listField hw.1) (within_listField hlevels.1) (by omega : k - 1 ≤ maxNesting))
  rw [NamespaceRecord.ofItem?, NamespaceRecord.item, record?_record, Option.bind_eq_bind, Option.bind_some]
  simp [fieldOf_entriesFrom, int?_intField hw.2.1, hmembers, NamespaceRecord.settled]

/-! ## Kinds -/

mutual

/-- The kinds of stored types fit in a byte. -/
theorem Ty.kinded_record (s : Store) : (t : Ty) → (t.record s).Kinded
  | .builtin _ => by simp [Ty.record, TypeRecord.bare, TypeRecord.Kinded, kindedOption, kindedTypes]
  | .array elem => by
    have h := elem.kinded_record s
    simpa [Ty.record, TypeRecord.bare, TypeRecord.Kinded, kindedOption, kindedTypes] using h
  | .map key value => by
    have hk := key.kinded_record s
    have hv := value.kinded_record s
    simpa [Ty.record, TypeRecord.bare, TypeRecord.Kinded, kindedOption, kindedTypes] using ⟨hk, hv⟩
  | .tuple items => by
    have h := kinded_recordTypes s items
    simpa [Ty.record, TypeRecord.bare, TypeRecord.Kinded, kindedOption] using h
  | .func sig => sig.kinded_record s
  | .cls _ | .iface _ | .enumeration _ => by
    simp [Ty.record, TypeRecord.bare, TypeRecord.Kinded, kindedOption, kindedTypes]

theorem Signature.kinded_record (s : Store) : (g : Signature) → (g.record s).Kinded
  | ⟨returns, params, _, _⟩ => by
    have hr := returns.kinded_record s
    have hp := kinded_recordParams s params
    simpa [Signature.record, TypeRecord.bare, TypeRecord.Kinded, kindedOption] using ⟨hr, hp⟩

theorem kinded_recordTypes (s : Store) : (ts : List Ty) → kindedTypes (recordTypes s ts)
  | [] => True.intro
  | t :: ts => ⟨t.kinded_record s, kinded_recordTypes s ts⟩

theorem kinded_recordParams (s : Store) : (ps : List (Bool × Ty)) → kindedTypes (recordParams s ps)
  | [] => True.intro
  | (_, t) :: ps => ⟨t.kinded_record s, kinded_recordParams s ps⟩

end

theorem kindedTypes_iff {rs : List TypeRecord} : kindedTypes rs ↔ ∀ r ∈ rs, r.Kinded := by
  induction rs with
  | nil => simp [kindedTypes]
  | cons r rs ih => simp [kindedTypes, ih]

theorem kindedSymbols_iff {rs : List SymbolRecord} : kindedSymbols rs ↔ ∀ r ∈ rs, r.Kinded := by
  induction rs with
  | nil => simp [kindedSymbols]
  | cons r rs ih => simp [kindedSymbols, ih]

/-- The kinds of stored declarations fit in a byte. -/
theorem Store.kinded_exportDepth (s : Store) (d : Nat) (sym : Sym) : ∀ r ∈ s.exportDepth d sym, r.Kinded := by
  induction d generalizing sym with
  | zero => simp [exportDepth]
  | succ d ih =>
    have hmembers : ∀ t : Table, kindedSymbols (t.symbols.filterMap (exportDepth s d)) := fun t =>
      kindedSymbols_iff.mpr fun r hr => by
        obtain ⟨sym, -, h⟩ := List.mem_filterMap.mp hr
        exact ih sym r h
    cases sym <;> simp [exportDepth, SymbolRecord.bare, SymbolRecord.Kinded, kindedOption, kindedTypes, kindedSymbols,
      recordType, Ty.kinded_record, hmembers]
    case cls c =>
      refine kindedTypes_iff.mpr fun r hr => ?_
      rcases List.mem_append.mp hr with hr | hr <;> obtain ⟨t, -, rfl⟩ := List.mem_map.mp hr
      · exact Ty.kinded_record s _
      · exact Ty.kinded_record s _
    case iface i => exact kindedTypes_iff.mpr (List.forall_mem_map.mpr fun t _ => Ty.kinded_record s _)
    case enumeration e =>
      refine kindedSymbols_iff.mpr fun r hr => ?_
      obtain ⟨sym, -, h⟩ := List.mem_filterMap.mp hr
      split at h
      · obtain rfl := Option.some.inj h
        simp [SymbolRecord.Kinded, kindedOption, kindedTypes, kindedSymbols]
      · simp at h

theorem Store.kinded_exportModule (s : Store) (m : Module) : kindedSymbols (s.exportModule m).members :=
  kindedSymbols_iff.mpr fun r hr => by
    obtain ⟨sym, -, h⟩ := List.mem_filterMap.mp hr
    exact s.kinded_exportDepth _ sym r h

end Weft
