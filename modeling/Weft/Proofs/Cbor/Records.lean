import Weft.Cbor.Field
import Weft.Proofs.Cbor.RoundTrip

/-!
# Fields are read back

A record gives back its fields by their keys, and every kind of field gives back the value it was made from,
also when it was left out because it holds nothing.
-/

namespace Weft.Cbor

open Number

namespace Item

/-! ## Records -/

/-- The keys of a record with their values, with keys from a number on. -/
def entriesFrom (key : Nat) : List (Option Item) → List (Item × Item)
  | [] => []
  | none :: rest => entriesFrom (key + 1) rest
  | some v :: rest => (uint key, v) :: entriesFrom (key + 1) rest

theorem entries?_fieldsFrom (key : Nat) (fs : List (Option Item)) :
    entries? (fieldsFrom key fs) = some (entriesFrom key fs) := by
  induction fs generalizing key with
  | nil => rfl
  | cons f fs ih => cases f <;> simp [fieldsFrom, entriesFrom, entries?, ih]

theorem record?_record (fs : List (Option Item)) : (record fs).record? = some (entriesFrom 1 fs) := by
  simp [record, record?, readOr, content?, isNull, entries?_fieldsFrom]

@[simp] theorem isKey_uint (key n : Nat) : (uint n).isKey key = decide (n = key) := rfl

/-- No field has a key that is smaller than the keys of a record. -/
theorem find?_entriesFrom_lt {key k : Nat} (h : key < k) (fs : List (Option Item)) :
    (entriesFrom k fs).find? (fun e => e.1.isKey key) = none := by
  induction fs generalizing k with
  | nil => rfl
  | cons f fs ih =>
    have hne : k ≠ key := by omega
    have hrest := ih (Nat.lt_succ_of_lt h)
    cases f with
    | none => exact hrest
    | some v => rw [entriesFrom, List.find?_cons_of_neg (by simpa using hne), hrest]

/-- The field of a record with a key. -/
theorem find?_entriesFrom (key j : Nat) (fs : List (Option Item)) :
    ((entriesFrom key fs).find? fun e => e.1.isKey (key + j)).map Prod.snd = (fs[j]?).join := by
  induction fs generalizing key j with
  | nil => simp [entriesFrom]
  | cons f fs ih =>
    cases j with
    | zero =>
      cases f with
      | some v => simp [entriesFrom]
      | none => simp [entriesFrom, find?_entriesFrom_lt]
    | succ j =>
      have hshift : key + (j + 1) = key + 1 + j := by omega
      have hne : key ≠ key + 1 + j := by omega
      have hrest := ih (key + 1) j
      rw [hshift]
      cases f with
      | none => simpa [entriesFrom] using hrest
      | some v =>
        rw [entriesFrom, List.find?_cons_of_neg (by simpa using hne), hrest]
        simp

/-- A field is found by its key; one that was left out is null. -/
theorem fieldOf_entriesFrom {fs : List (Option Item)} {key : Nat} (h : 0 < key) :
    fieldOf (entriesFrom 1 fs) key = ((fs[key - 1]?).join).getD .null := by
  have hkey : 1 + (key - 1) = key := by omega
  have hfind := find?_entriesFrom 1 (key - 1) fs
  rw [hkey] at hfind
  rw [fieldOf, hfind]

/-- Whether what a field holds has a property. -/
def FieldsAre (P : Item → Prop) (fs : List (Option Item)) : Prop := ∀ f ∈ fs, ∀ i ∈ f, P i

theorem fieldsAre_nil {P : Item → Prop} : FieldsAre P [] := by simp [FieldsAre]

theorem fieldsAre_cons {P : Item → Prop} {f : Option Item} {fs : List (Option Item)} :
    FieldsAre P (f :: fs) ↔ (∀ i ∈ f, P i) ∧ FieldsAre P fs := List.forall_mem_cons

theorem length_fieldsFrom (key : Nat) (fs : List (Option Item)) : (fieldsFrom key fs).length % 2 = 0 := by
  induction fs generalizing key with
  | nil => rfl
  | cons f fs ih =>
    have h := ih (key + 1)
    cases f with
    | none => exact h
    | some v =>
      simp only [fieldsFrom, List.length_cons]
      omega

theorem mem_fieldsFrom {i : Item} {fs : List (Option Item)} (h : some i ∈ fs) (key : Nat) : i ∈ fieldsFrom key fs := by
  induction fs generalizing key with
  | nil => simp at h
  | cons f fs ih =>
    rcases List.mem_cons.mp h with rfl | h
    · simp [fieldsFrom]
    · have hrest := ih h (key + 1)
      cases f <;> simp [fieldsFrom, hrest]

theorem cases_fieldsFrom {i : Item} {key : Nat} {fs : List (Option Item)} (h : i ∈ fieldsFrom key fs) :
    (∃ k, i = uint k) ∨ some i ∈ fs := by
  induction fs generalizing key with
  | nil => simp [fieldsFrom] at h
  | cons f fs ih =>
    cases f with
    | none => exact (ih h).imp_right (List.mem_cons_of_mem _)
    | some v =>
      simp only [fieldsFrom, List.mem_cons] at h
      rcases h with rfl | rfl | h
      · exact .inl ⟨_, rfl⟩
      · exact .inr (by simp)
      · exact (ih h).imp_right (List.mem_cons_of_mem _)

theorem plain_record {fs : List (Option Item)} (h : FieldsAre Plain fs) : (record fs).Plain := by
  refine ⟨length_fieldsFrom 1 fs, plainItems_iff.mpr fun i hi => ?_⟩
  rcases cases_fieldsFrom hi with ⟨k, rfl⟩ | hi
  · exact True.intro
  · exact h _ hi i rfl

/-- What all items of a map have, the fields of the record have. -/
theorem fieldsAre_of_forall {P : Item → Prop} {key : Nat} {fs : List (Option Item)}
    (h : ∀ i ∈ fieldsFrom key fs, P i) : FieldsAre P fs := by
  rintro f hf i rfl
  exact h i (mem_fieldsFrom hf key)

theorem inWords_record {fs : List (Option Item)} (h : (record fs).InWords) : FieldsAre InWords fs :=
  fieldsAre_of_forall (itemsInWords_iff.mp h.2)

/-- A record takes one level, and its fields have the others. -/
theorem within_record {fs : List (Option Item)} {n : Nat} (h : (record fs).within n = true) :
    ∃ k, n = k + 1 ∧ FieldsAre (fun i => i.within k = true) fs := by
  cases n with
  | zero => simp [record, within] at h
  | succ k =>
    simp only [record, within, Bool.and_eq_true, itemsWithin_iff] at h
    exact ⟨k, rfl, fieldsAre_of_forall h.2⟩

/-- Records with the same fields have the same items. -/
theorem same_record {fs gs : List (Option Item)} (h : List.Forall₂ (Option.Rel Same) fs gs) :
    (record fs).Same (record gs) := by
  refine (sameItems_of_forall₂ ?_).map
  generalize 1 = key
  induction h generalizing key with
  | nil => exact .nil
  | cons hf _ ih =>
    cases hf with
    | none => exact ih (key + 1)
    | some hi => exact .cons .rfl (.cons hi (ih (key + 1)))

/-! ## Numbers -/

theorem bounded_of_number? {i : Item} (n least greatest : Int) (hc : i.content? = some i) (hi : i.isNull = false)
    (hn : i.number? = some n) (hb : least ≤ n ∧ n ≤ greatest) : bounded least greatest i = some n := by
  simp [bounded, readOr, hc, hi, hn, Option.filter, hb]

theorem int?_ofInt {n : Int} (h : (ofInt n).InWords) : (ofInt n).int? = some n := by
  unfold ofInt at h ⊢
  split
  · next hn =>
    rw [if_pos hn] at h
    have hlt : n.toNat < pow2 63 := h
    exact bounded_of_number? _ _ _ rfl rfl (congrArg some (Int.toNat_of_nonneg hn)) (by omega)
  · next hn =>
    rw [if_neg hn] at h
    have hlt : (-1 - n).toNat < pow2 63 := h
    have hval : -1 - ((-1 - n).toNat : Int) = n := by omega
    exact bounded_of_number? _ _ _ rfl rfl (congrArg some hval) (by omega)

theorem int?_intField {n : Int} (h : ∀ i ∈ intField n, i.InWords) : ((intField n).getD null).int? = some n := by
  unfold intField at h ⊢
  split
  · next hn =>
    subst hn
    rfl
  · next hn =>
    rw [if_neg hn] at h
    exact int?_ofInt (h _ rfl)

theorem byte?_uint {n : Nat} (h : n < 256) : (uint n).byte? = some n :=
  congrArg (Option.map Int.toNat)
    (bounded_of_number? n 0 255 rfl rfl rfl (by omega))

/-! ## Texts, bytes and truth values -/

theorem string?_ofString (s : String) : (ofString s).string? = some s := by
  simp [ofString, string?, readOr, content?, isNull, Text.decode?_encode]

theorem string?_stringField (s : String) : ((stringField s).getD null).string? = some s := by
  unfold stringField
  split
  · next h =>
    subst h
    rfl
  · exact string?_ofString s

theorem bool?_ofBool (b : Bool) : (ofBool b).bool? = some b := by cases b <;> rfl

theorem bool?_boolField (b : Bool) : ((boolField b).getD null).bool? = some b := by cases b <;> rfl

theorem bytes?_bytesField (b : Bytes) : ((bytesField b).getD null).bytes? = some b := by
  cases b with
  | nil => rfl
  | cons x b => simp [bytesField, bytes?, readOr, content?, isNull]

/-! ## Lists -/

theorem list?_listField {α : Type} {f : Item → Option α} {items : List Item} {l : List α}
    (h : items.mapM f = some l) : ((listField items).getD null).list? f = some l := by
  cases items with
  | nil =>
    obtain rfl : [] = l := by simpa using h
    rfl
  | cons i is => simp [listField, list?, readOr, content?, isNull, h]

theorem inWords_listField {items : List Item} (h : ∀ i ∈ listField items, i.InWords) : ∀ i ∈ items, i.InWords := by
  cases items with
  | nil => simp
  | cons i is => exact itemsInWords_iff.mp (h (array (i :: is)) rfl).2

/-- A list takes one level, and its elements have the others. -/
theorem within_listField {items : List Item} {n : Nat} (h : ∀ i ∈ listField items, i.within n = true) :
    ∀ i ∈ items, i.within (n - 1) = true := by
  cases items with
  | nil => simp
  | cons i is =>
    have h := h (array (i :: is)) rfl
    cases n with
    | zero => simp [within] at h
    | succ n =>
      simp only [within, Bool.and_eq_true] at h
      exact itemsWithin_iff.mp h.2

theorem mapM_map_some {α β : Type} {f : α → β} {g : β → Option α} {l : List α} (h : ∀ a ∈ l, g (f a) = some a) :
    (l.map f).mapM g = some l := by
  induction l with
  | nil => rfl
  | cons a l ih => simp [h a (by simp), ih fun b hb => h b (by simp [hb])]

/-- Lists of the same items are the same fields. -/
theorem same_listField {α : Type} {f g : α → Item} {l : List α} (h : ∀ a ∈ l, (f a).Same (g a)) :
    Option.Rel Same (listField (l.map f)) (listField (l.map g)) := by
  cases l with
  | nil => exact .none
  | cons a l =>
    refine .some (sameItems_of_forall₂ ?_).array
    exact List.forall₂_map_left_iff.mpr (List.forall₂_map_right_iff.mpr (List.forall₂_same.mpr h))

/-! ## Floats -/

/-- A field for a float, left out if it is zero. -/
def floatField (x : Binary64) : Option Item := if x.bits.toNat % pow2 63 = 0 then none else some (float x)

theorem float?_floatField (x : Binary64) :
    ((floatField x).getD null).float? = some (if x.bits.toNat % pow2 63 = 0 then .zero else x) := by
  unfold floatField
  split <;> rfl

/-! ## Plain fields -/

theorem plain_ofInt (n : Int) : (ofInt n).Plain := by
  unfold ofInt
  split <;> exact True.intro

theorem plain_ofBool (b : Bool) : (ofBool b).Plain := by cases b <;> simp [ofBool, Plain]

theorem plain_intField (n : Int) : ∀ i ∈ intField n, i.Plain := by
  unfold intField
  split
  · simp
  · simpa using plain_ofInt n

theorem plain_stringField (s : String) : ∀ i ∈ stringField s, i.Plain := by
  unfold stringField
  split
  · simp
  · simp [ofString, Plain]

theorem plain_boolField (b : Bool) : ∀ i ∈ boolField b, i.Plain := by cases b <;> simp [boolField, ofBool, Plain]

theorem plain_bytesField (b : Bytes) : ∀ i ∈ bytesField b, i.Plain := by
  unfold bytesField
  split <;> simp [Plain]

theorem plain_listField {items : List Item} (h : ∀ i ∈ items, i.Plain) : ∀ i ∈ listField items, i.Plain := by
  unfold listField
  split
  · simp
  · simpa [Plain, plainItems_iff] using h

end Item

end Weft.Cbor
