import Weft.Bytecode.Image
import Weft.Number.Literal
import Weft.Proofs.Bytecode.Origins
import Weft.Proofs.Symbol.Images

/-!
# Compiled modules are read back

The bytes of a compiled module are read as the module in its settled form, in which things that the bytes do not
tell apart have become one: no list and an empty one, and floats that are equal or no number. A module whose
data nests too deeply or has too long a list is refused.
-/

namespace Weft

open Cbor Cbor.Item Number

/-! ## Settled forms -/

/-- Both zeros become the positive one, and all floats that are no number become the quiet one. -/
def Number.Binary64.settled (x : Binary64) : Binary64 :=
  if x.bits.toNat % pow2 63 = 0 then .zero else if x.isNaN then quietNaN else x

namespace Bytecode

/-- A constant as it is read back. -/
def Constant.settled (v : Constant) : Constant := { v with float := v.float.settled }

/-- A module as it is read back. -/
def Compiled.settled (m : Compiled) : Compiled :=
  { m with space := m.space.map NamespaceRecord.settled, constants := m.constants.map Constant.settled }

end Bytecode

theorem Number.Binary64.encodeFloat_settled {x : Binary64} (h : x.bits.toNat % pow2 63 ≠ 0) :
    encodeFloat x.settled = encodeFloat x := by
  have hquiet : quietNaN.isNaN = true := by decide
  unfold settled
  rw [if_neg h]
  split
  · next hx => simp [encodeFloat, hquiet, hx]
  · rfl

theorem Number.Binary64.settled_of_isNaN {x : Binary64} (h : x.settled.isNaN = true) : x.settled = quietNaN := by
  have hzero : Binary64.zero.isNaN = false := by decide
  unfold settled at h ⊢
  split
  · next hx => simp [hx, hzero] at h
  · next hx =>
    split
    · rfl
    · next hn => simp [hx, hn] at h

theorem Number.Binary64.settled_of_zero {x : Binary64} (h : x.settled.bits.toNat % pow2 63 = 0) :
    x.settled = .zero := by
  unfold settled at h ⊢
  split
  · rfl
  · next hx =>
    rw [if_neg hx] at h
    split at h
    · exact absurd h (by decide)
    · exact absurd h hx

namespace Bytecode

/-! ## The parts of a module -/

namespace Constant

theorem item_eq (v : Constant) : v.item =
    .record [some (.uint v.kind), intField v.int, floatField v.float, stringField v.str, stringField v.module] := rfl

theorem plain_item (v : Constant) : v.settled.item.Plain := by
  have hfloat : ∀ i ∈ floatField v.settled.float, i.Plain := by
    unfold floatField
    split
    · simp
    · intro i hi
      obtain rfl := Option.some.inj hi
      exact Binary64.settled_of_isNaN (x := v.float)
  rw [item_eq]
  apply plain_record
  simp only [fieldsAre_cons]
  exact ⟨by simp [Plain], plain_intField _, hfloat, plain_stringField _, plain_stringField _, fieldsAre_nil⟩

/-- A constant has the same bytes as its settled form. -/
theorem same_item (v : Constant) : v.item.Same v.settled.item := by
  have hfloat : Option.Rel Item.Same (floatField v.float) (floatField v.settled.float) := by
    by_cases h : v.float.bits.toNat % pow2 63 = 0
    · have hzero : v.settled.float = .zero := if_pos h
      rw [hzero, floatField, if_pos h]
      exact .none
    · have hsame : (Item.float v.float).Same (.float v.float.settled) :=
        ⟨(Binary64.encodeFloat_settled h).symm, .rfl, fun n => by cases n <;> rfl⟩
      have hsettled : v.float.settled.bits.toNat % pow2 63 ≠ 0 := by
        unfold Binary64.settled
        rw [if_neg h]
        split
        · decide
        · exact h
      rw [floatField, if_neg h, floatField, settled, if_neg hsettled]
      exact .some hsame
  have hrefl : ∀ f : Option Item, Option.Rel Item.Same f f := fun f => by cases f <;> constructor; exact .rfl
  exact same_record (.cons (hrefl _) (.cons (hrefl _) (.cons hfloat (.cons (hrefl _) (.cons (hrefl _) .nil)))))

/-- A constant is read back in its settled form. -/
theorem ofItem?_item {v : Constant} (hk : v.kind < 256) (hw : v.settled.item.InWords) :
    ofItem? v.settled.item = some v.settled := by
  rw [item_eq] at hw ⊢
  have hw := inWords_record hw
  simp only [fieldsAre_cons] at hw
  have hkind : v.settled.kind < 256 := hk
  have hfloat : (if v.settled.float.bits.toNat % pow2 63 = 0 then Binary64.zero else v.settled.float) =
      v.settled.float := by
    split
    · next h => exact (Binary64.settled_of_zero h).symm
    · rfl
  rw [ofItem?, record?_record, Option.bind_eq_bind, Option.bind_some]
  simp [fieldOf_entriesFrom, byte?_uint hkind, int?_intField hw.2.1, float?_floatField, hfloat, string?_stringField]

end Constant

theorem LinePos.plain_item (l : LinePos) : l.item.Plain := by
  apply plain_record
  simp only [fieldsAre_cons]
  exact ⟨by simpa using plain_ofInt _, by simpa using plain_ofInt _, fieldsAre_nil⟩

theorem LinePos.ofItem?_item {l : LinePos} (hw : l.item.InWords) : LinePos.ofItem? l.item = some l := by
  have hw := inWords_record hw
  simp only [fieldsAre_cons] at hw
  rw [LinePos.ofItem?, LinePos.item, record?_record, Option.bind_eq_bind, Option.bind_some]
  simp [fieldOf_entriesFrom, int?_ofInt (hw.1 _ rfl), int?_ofInt (hw.2.1 _ rfl)]

theorem FuncPos.plain_item (f : FuncPos) : f.item.Plain := by
  apply plain_record
  simp only [fieldsAre_cons]
  exact ⟨by simp [ofString, Plain], by simpa using plain_ofInt _, fieldsAre_nil⟩

theorem FuncPos.ofItem?_item {f : FuncPos} (hw : f.item.InWords) : FuncPos.ofItem? f.item = some f := by
  have hw := inWords_record hw
  simp only [fieldsAre_cons] at hw
  rw [FuncPos.ofItem?, FuncPos.item, record?_record, Option.bind_eq_bind, Option.bind_some]
  simp [fieldOf_entriesFrom, string?_ofString, int?_ofInt (hw.2.1 _ rfl)]

/-! ## Modules -/

namespace Compiled

variable {m : Compiled}

/-- A module whose constants are settled. -/
def withSettledConstants (m : Compiled) : Compiled := { m with constants := m.constants.map Constant.settled }

theorem item_withSettledConstants (m : Compiled) : m.withSettledConstants.item = m.settled.item := by
  have hspace : (m.space.map NamespaceRecord.settled).map NamespaceRecord.item = m.space.map NamespaceRecord.item := by
    cases m.space with
    | none => rfl
    | some r => simp [r.item_settled]
  simp only [item, withSettledConstants, settled, hspace]

/-- A module has the same bytes as its settled form. -/
theorem same_item (m : Compiled) : m.item.Same m.settled.item := by
  have hrefl : ∀ f : Option Item, Option.Rel Item.Same f f := fun f => by cases f <;> constructor; exact .rfl
  have hconstants : Option.Rel Item.Same (listField (m.constants.map Constant.item))
      (listField ((m.constants.map Constant.settled).map Constant.item)) := by
    rw [List.map_map]
    exact same_listField fun v _ => v.same_item
  rw [← m.item_withSettledConstants]
  exact same_record (.cons (hrefl _) (.cons (hrefl _) (.cons (hrefl _) (.cons (hrefl _) (.cons (hrefl _)
    (.cons hconstants (.cons (hrefl _) (.cons (hrefl _) (.cons (hrefl _) (.cons (hrefl _) (.cons (hrefl _)
      .nil)))))))))))

theorem plain_item (m : Compiled) : m.settled.item.Plain := by
  have himports : ∀ i ∈ m.imports.map ofString, i.Plain := List.forall_mem_map.mpr fun s _ => by simp [ofString, Plain]
  have hspace : ∀ i ∈ m.space.map NamespaceRecord.item, i.Plain := by
    cases m.space with
    | none => simp
    | some r => simpa using r.plain_item
  have hconstants : ∀ i ∈ (m.constants.map Constant.settled).map Constant.item, i.Plain := by
    rw [List.map_map]
    exact List.forall_mem_map.mpr fun v _ => v.plain_item
  have hlines : ∀ ls : List LinePos, ∀ i ∈ ls.map LinePos.item, i.Plain := fun ls =>
    List.forall_mem_map.mpr fun l _ => l.plain_item
  have hfuncs : ∀ i ∈ m.funcs.map FuncPos.item, i.Plain := List.forall_mem_map.mpr fun f _ => f.plain_item
  rw [← m.item_withSettledConstants]
  apply plain_record
  simp only [fieldsAre_cons]
  exact ⟨by simpa using plain_ofInt _, by simp [ofString, Plain], plain_stringField _, plain_listField himports, hspace,
    plain_listField hconstants, plain_bytesField _, plain_bytesField _, plain_listField (hlines _),
    plain_listField (hlines _), plain_listField hfuncs, fieldsAre_nil⟩

/-- A module is read back in its settled form. -/
theorem ofItem?_item {n : Nat} (hspace : ∀ r ∈ m.space, kindedSymbols r.members)
    (hconstants : ∀ v ∈ m.constants, v.kind < 256) (hw : m.settled.item.InWords)
    (hn : m.settled.item.within n = true) (hm : n ≤ maxNesting) : ofItem? m.settled.item = some m.settled := by
  rw [← m.item_withSettledConstants] at hw hn ⊢
  obtain ⟨k, rfl, hlevels⟩ := within_record hn
  have hw := inWords_record hw
  simp only [fieldsAre_cons] at hw hlevels
  obtain ⟨hwv, -, -, -, hws, hwc, -, -, hwi, hwl, hwf, -⟩ := hw
  obtain ⟨-, -, -, -, hns, -⟩ := hlevels
  have himports := list?_listField (mapM_map_some (f := ofString) (l := m.imports) fun s _ => string?_ofString s)
  have hspace : ((m.space.map NamespaceRecord.item).getD null).optional? NamespaceRecord.ofItem? =
      some (m.space.map NamespaceRecord.settled) := by
    cases hm : m.space with
    | none => rfl
    | some r =>
      have hr := NamespaceRecord.ofItem?_item (hspace r hm) (hws _ (by simp [withSettledConstants, hm]))
        (hns _ (by simp [withSettledConstants, hm])) (by omega)
      simp [optional?, r.isNull_item, hr]
  have hconstants := list?_listField (mapM_map_some (f := Constant.item) (l := m.constants.map Constant.settled)
    (List.forall_mem_map.mpr fun v hv => Constant.ofItem?_item (hconstants v hv)
      (inWords_listField hwc _ (List.mem_map_of_mem (List.mem_map_of_mem hv)))))
  have hlines : ∀ ls : List LinePos, (∀ i ∈ listField (ls.map LinePos.item), i.InWords) →
      ((listField (ls.map LinePos.item)).getD null).list? LinePos.ofItem? = some ls := fun ls h =>
    list?_listField (mapM_map_some fun l hl => LinePos.ofItem?_item (inWords_listField h _ (List.mem_map_of_mem hl)))
  have hfuncs := list?_listField (mapM_map_some (f := FuncPos.item) (l := m.funcs) fun f hf =>
    FuncPos.ofItem?_item (inWords_listField hwf _ (List.mem_map_of_mem hf)))
  have hversion : (ofInt m.version).int? = some m.version := int?_ofInt (hwv _ rfl)
  have hinitLines := hlines m.initLines hwi
  have hcodeLines := hlines m.lines hwl
  rw [ofItem?, item, record?_record, Option.bind_eq_bind, Option.bind_some]
  simp [-List.map_map, fieldOf_entriesFrom, withSettledConstants, hversion, string?_ofString, string?_stringField,
    himports, hspace, hconstants, bytes?_bytesField, hinitLines, hcodeLines, hfuncs, settled]

/-- The bytes of a module of this version are read as its settled form if its data is within the limits, and are
malformed otherwise. -/
theorem decode_encode (hv : m.version = formatVersion) (hspace : ∀ r ∈ m.space, kindedSymbols r.members)
    (hconstants : ∀ v ∈ m.constants, v.kind < 256) (hw : m.item.InWords) :
    decode m.encode = if m.item.within maxNesting then .ok m.settled else .error .malformed := by
  have hsame := m.same_item
  have hread := Cbor.decode?_encode m.plain_item (hsame.inWords.mp hw)
  rw [decode, encode, hsame.encode, hsame.within, hread]
  cases hn : m.settled.item.within maxNesting with
  | false => rfl
  | true =>
    have hback := ofItem?_item hspace hconstants (hsame.inWords.mp hw) hn (Nat.le_refl _)
    have hversion : m.settled.version = formatVersion := hv
    simp [hback, hversion]

end Compiled

section Compile

variable {s s' : Store} {md md' : Module} {p p' : Typed.Program} {m m' : Compiled}

/-- The bytes of a compiled module are read as its settled form, or refused if they are beyond a limit. -/
theorem decode_encode_compile (h : compile s md p = .ok m) (hw : m.item.InWords) :
    Compiled.decode m.encode = if m.item.within maxNesting then .ok m.settled else .error .malformed := by
  obtain ⟨hversion, -, hspace, -⟩ := compile_fields h
  refine Compiled.decode_encode hversion ?_ (fun v hv => (compile_made h v hv).kind_lt.trans (by decide)) hw
  rw [hspace]
  rintro r ⟨⟩
  exact s.kinded_exportModule md

/-- A compiled module that nests no deeper and has no longer lists than the reader accepts is read back from its
bytes in its settled form, and compiled modules with equal bytes have the same settled form. -/
theorem compile_readable (h : compile s md p = .ok m) (hw : m.item.InWords) (hdepth : m.item.nesting ≤ maxNesting)
    (hlists : m.item.longest ≤ maxElements) :
    Compiled.decode m.encode = .ok m.settled ∧
      ∀ {s' md' p' m'}, compile s' md' p' = .ok m' → m'.item.InWords → m'.encode = m.encode →
        m'.settled = m.settled := by
  have hread := decode_encode_compile h hw
  rw [if_pos (Item.within_iff _ |>.mpr ⟨hdepth, hlists⟩)] at hread
  refine ⟨hread, fun h' hw' hbytes => ?_⟩
  have hread' := decode_encode_compile h' hw'
  rw [hbytes, hread] at hread'
  split at hread'
  · exact (Except.ok.inj hread').symm
  · cases hread'

end Compile

/-- A module that imports a module a number of times. -/
def importing (n : Nat) : Module :=
  { name := "m", file := "m.loom", space := ⟨0⟩, imports := List.replicate n "a", globals := [] }

/-- A function that returns a half, after an import. -/
def half : Typed.Program :=
  let body : List Typed.Stmt := [.ret 3 1 [.literal 3 (.float ⟨0x3FE0000000000000⟩) .float]]
  ⟨"m", [.importing 1 "a", .func ⟨2, ⟨0⟩, some { slots := 0, params := [], line := 2, body }⟩]⟩

/-- A small module is read back. -/
theorem compile_half_readable : ∃ m, compile .empty (importing 1) half = .ok m ∧ m.item.InWords ∧
    m.item.nesting ≤ maxNesting ∧ m.item.longest ≤ maxElements ∧ Compiled.decode m.encode = .ok m.settled ∧
      ∀ {s' md' p' m'}, compile s' md' p' = .ok m' → m'.item.InWords → m'.encode = m.encode →
        m'.settled = m.settled := by
  have hok : (match compile .empty (importing 1) half with
    | .ok m => decide (m.item.InWords ∧ m.item.nesting ≤ maxNesting ∧ m.item.longest ≤ maxElements)
    | .error _ => false) = true := by decide +kernel
  cases h : compile .empty (importing 1) half with
  | error e =>
    rw [h] at hok
    cases hok
  | ok m =>
    rw [h] at hok
    obtain ⟨hw, hdepth, hlists⟩ := of_decide_eq_true hok
    exact ⟨m, rfl, hw, hdepth, hlists, compile_readable h hw hdepth hlists⟩

/-! ## A module with a list that is too long -/

/-- What the program without declarations becomes in a module with imports. -/
def emptyModule (n : Nat) : Compiled :=
  { version := 1, name := "m", file := "m.loom", imports := List.replicate n "a", space := some ⟨[], 0⟩,
    constants := [], init := [108], code := [], initLines := [⟨0, 0⟩], lines := [], funcs := [] }

theorem compile_empty (n : Nat) : compile .empty (importing n) ⟨"m", []⟩ = .ok (emptyModule n) := rfl

theorem item_emptyModule {n : Nat} (h : n ≠ 0) : (emptyModule n).item = .map [.uint 1, .uint 1, .uint 2, ofString "m",
    .uint 3, ofString "m.loom", .uint 4, .array (List.replicate n (ofString "a")), .uint 5, .map [], .uint 7,
    .bytes [108], .uint 9, .array [.map [.uint 1, .uint 0, .uint 2, .uint 0]]] := by
  simp [Compiled.item, emptyModule, record, fieldsFrom, stringField, listField, NamespaceRecord.item, intField, bytesField,
    ofInt, LinePos.item, symbolItems, h]

theorem inWords_emptyModule {n : Nat} (h : n ≠ 0) (hn : n < 9223372036854775808) : (emptyModule n).item.InWords := by
  have himports : ItemsInWords (List.replicate n (ofString "a")) := itemsInWords_iff.mpr fun i hi => by
    rw [List.eq_of_mem_replicate hi]
    decide +kernel
  have h63 : pow2 63 = 9223372036854775808 := rfl
  rw [item_emptyModule h]
  simp [InWords, ItemsInWords, himports, h63, hn]
  decide +kernel

theorem nesting_emptyModule {n : Nat} (h : n ≠ 0) : (emptyModule n).item.nesting ≤ maxNesting := by
  have himports : nestingOfItems (List.replicate n (ofString "a")) ≤ 0 := nestingOfItems_le_iff.mpr fun i hi => by
    rw [List.eq_of_mem_replicate hi]
    exact Nat.le_refl 0
  have hmax : maxNesting = 32 := rfl
  rw [item_emptyModule h]
  simp only [nesting, nestingOfItems, ofString] at himports ⊢
  omega

theorem longest_emptyModule {n : Nat} (h : n ≠ 0) : n ≤ (emptyModule n).item.longest := by
  rw [item_emptyModule h]
  simp [longest, longestOfItems]

/-- A module with one import more than a list may have elements compiles and nests as it may, but it is not read
back. -/
theorem compile_longImports_refused : ∃ m, compile .empty (importing 131073) ⟨"m", []⟩ = .ok m ∧ m.item.InWords ∧
    m.item.nesting ≤ maxNesting ∧ Compiled.decode m.encode = .error .malformed := by
  have hw : (emptyModule 131073).item.InWords := inWords_emptyModule (by decide) (by decide)
  refine ⟨emptyModule 131073, compile_empty _, hw, nesting_emptyModule (by decide), ?_⟩
  have hlong : ¬(emptyModule 131073).item.longest ≤ maxElements := fun h =>
    absurd (Nat.le_trans (longest_emptyModule (by decide)) h) (by decide)
  rw [decode_encode_compile (compile_empty 131073) hw, if_neg fun h => hlong ((Item.within_iff _).mp h).2]

end Bytecode

end Weft
