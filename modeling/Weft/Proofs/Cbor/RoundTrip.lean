import Mathlib
import Weft.Cbor

/-!
# Items are read back

The reader gives back an item from its canonical bytes if the lists and maps in it nest no deeper and have no
more elements than it accepts, and gives nothing otherwise. Tags and texts in several parts are read but never
written, so the items here have none.
-/

namespace Weft.Cbor

open Number

/-! ## Items that are written -/

/-- The float that stands for all that are no number. -/
def quietNaN : Binary64 := ⟨0x7FF8000000000000⟩

mutual

/-- Whether an item is made as records make them: without tags, with texts in one part, and with a value for
every key of a map. -/
def Item.Plain : Item → Prop
  | .uint _ | .nint _ | .bytes _ | .text [_] => True
  | .text _ | .tag .. => False
  | .array items => PlainItems items
  | .map items => items.length % 2 = 0 ∧ PlainItems items
  | .simple n => n < 24
  | .float x => x.isNaN = true → x = quietNaN

/-- Whether all items of a list are plain. -/
def PlainItems : List Item → Prop
  | [] => True
  | i :: is => i.Plain ∧ PlainItems is

end

mutual

/-- Whether the numbers and the lengths in an item fit in 64 bits with a sign. -/
def Item.InWords : Item → Prop
  | .uint n | .nint n => n < pow2 63
  | .bytes b => b.length < pow2 63
  | .text parts => parts.flatten.length < pow2 63
  | .array items => items.length < pow2 63 ∧ ItemsInWords items
  | .map items => items.length / 2 < pow2 63 ∧ ItemsInWords items
  | .tag n i => n < pow2 63 ∧ i.InWords
  | .simple _ | .float _ => True

/-- Whether the numbers and lengths in all items of a list fit. -/
def ItemsInWords : List Item → Prop
  | [] => True
  | i :: is => i.InWords ∧ ItemsInWords is

end

mutual

/-- Whether the numbers and lengths in an item fit can be computed. -/
def Item.decideInWords : (i : Item) → Decidable i.InWords
  | .uint n | .nint n => inferInstanceAs (Decidable (n < pow2 63))
  | .bytes b => inferInstanceAs (Decidable (b.length < pow2 63))
  | .text parts => inferInstanceAs (Decidable (parts.flatten.length < pow2 63))
  | .array items => @instDecidableAnd _ _ (inferInstanceAs (Decidable (items.length < pow2 63))) (decideItemsInWords items)
  | .map items =>
    @instDecidableAnd _ _ (inferInstanceAs (Decidable (items.length / 2 < pow2 63))) (decideItemsInWords items)
  | .tag n i => @instDecidableAnd _ _ (inferInstanceAs (Decidable (n < pow2 63))) i.decideInWords
  | .simple _ | .float _ => .isTrue True.intro

/-- Whether the numbers and lengths in all items of a list fit can be computed. -/
def decideItemsInWords : (is : List Item) → Decidable (ItemsInWords is)
  | [] => .isTrue True.intro
  | i :: is => @instDecidableAnd _ _ i.decideInWords (decideItemsInWords is)

end

instance : DecidablePred Item.InWords := Item.decideInWords

mutual

/-- Whether the lists and maps in an item nest no deeper than a number of levels, and none has more elements
than the reader accepts. -/
def Item.within : Nat → Item → Bool
  | 0, .array _ | 0, .map _ => false
  | n + 1, .array items => items.length ≤ maxElements && itemsWithin n items
  | n + 1, .map items => items.length / 2 ≤ maxElements && itemsWithin n items
  | n, .tag _ i => i.within n
  | _, .uint _ | _, .nint _ | _, .bytes _ | _, .text _ | _, .simple _ | _, .float _ => true

/-- Whether all items of a list are within the limits. -/
def itemsWithin : Nat → List Item → Bool
  | _, [] => true
  | n, i :: is => i.within n && itemsWithin n is

end

mutual

/-- How deeply the lists and maps in an item nest. -/
def Item.nesting : Item → Nat
  | .array items | .map items => nestingOfItems items + 1
  | .tag _ i => i.nesting
  | .uint _ | .nint _ | .bytes _ | .text _ | .simple _ | .float _ => 0

/-- How deeply the deepest item of a list nests. -/
def nestingOfItems : List Item → Nat
  | [] => 0
  | i :: is => max i.nesting (nestingOfItems is)

end

mutual

/-- How many elements the longest list in an item has, or the largest map. -/
def Item.longest : Item → Nat
  | .array items => max items.length (longestOfItems items)
  | .map items => max (items.length / 2) (longestOfItems items)
  | .tag _ i => i.longest
  | .uint _ | .nint _ | .bytes _ | .text _ | .simple _ | .float _ => 0

/-- How many elements the longest list in some items has. -/
def longestOfItems : List Item → Nat
  | [] => 0
  | i :: is => max i.longest (longestOfItems is)

end

mutual

/-- There are two limits: one for the levels and one for the elements. -/
theorem Item.within_iff : (i : Item) → ∀ {n : Nat}, i.within n = true ↔ i.nesting ≤ n ∧ i.longest ≤ maxElements
  | .array is, n => by
    cases n with
    | zero => simp [Item.within, Item.nesting]
    | succ n =>
      have h := itemsWithin_limits is (n := n)
      simp only [Item.within, Item.nesting, Item.longest, Bool.and_eq_true, decide_eq_true_eq, h]
      omega
  | .map is, n => by
    cases n with
    | zero => simp [Item.within, Item.nesting]
    | succ n =>
      have h := itemsWithin_limits is (n := n)
      simp only [Item.within, Item.nesting, Item.longest, Bool.and_eq_true, decide_eq_true_eq, h]
      omega
  | .tag _ i, n => by
    have h := i.within_iff (n := n)
    cases n <;> simpa [Item.within, Item.nesting, Item.longest] using h
  | .uint _, n | .nint _, n | .bytes _, n | .text _, n | .simple _, n | .float _, n => by
    cases n <;> simp [Item.within, Item.nesting, Item.longest]

theorem itemsWithin_limits : (is : List Item) → ∀ {n : Nat},
    itemsWithin n is = true ↔ nestingOfItems is ≤ n ∧ longestOfItems is ≤ maxElements
  | [], n => by simp [itemsWithin, nestingOfItems, longestOfItems]
  | i :: is, n => by
    have hi := i.within_iff (n := n)
    have his := itemsWithin_limits is (n := n)
    simp only [itemsWithin, nestingOfItems, longestOfItems, Bool.and_eq_true, hi, his]
    omega

end

/-! ## Items in lists -/

theorem plainItems_iff {is : List Item} : PlainItems is ↔ ∀ i ∈ is, i.Plain := by
  induction is with
  | nil => simp [PlainItems]
  | cons i is ih => simp [PlainItems, ih]

theorem itemsInWords_iff {is : List Item} : ItemsInWords is ↔ ∀ i ∈ is, i.InWords := by
  induction is with
  | nil => simp [ItemsInWords]
  | cons i is ih => simp [ItemsInWords, ih]

theorem itemsWithin_iff {n : Nat} {is : List Item} : itemsWithin n is = true ↔ ∀ i ∈ is, i.within n = true := by
  induction is with
  | nil => simp [itemsWithin]
  | cons i is ih => simp [itemsWithin, ih]

theorem nestingOfItems_le_iff {n : Nat} {is : List Item} : nestingOfItems is ≤ n ↔ ∀ i ∈ is, i.nesting ≤ n := by
  induction is with
  | nil => simp [nestingOfItems]
  | cons i is ih => simp [nestingOfItems, ih]

/-- Whether two items have the same bytes and keep within the same limits. -/
structure Item.Same (i j : Item) : Prop where
  encode : i.encode = j.encode
  inWords : i.InWords ↔ j.InWords
  within : ∀ n, i.within n = j.within n

theorem Item.Same.rfl {i : Item} : i.Same i := ⟨.refl _, .rfl, fun _ => .refl _⟩

/-- Items that are the same one by one. -/
structure SameItems (is js : List Item) : Prop where
  length : is.length = js.length
  encode : encodeItems is = encodeItems js
  inWords : ItemsInWords is ↔ ItemsInWords js
  within : ∀ n, itemsWithin n is = itemsWithin n js

theorem sameItems_of_forall₂ {is js : List Item} (h : List.Forall₂ Item.Same is js) : SameItems is js := by
  induction h with
  | nil => exact ⟨.refl _, .refl _, .rfl, fun _ => .refl _⟩
  | cons hi _ ih =>
    exact ⟨by simp [ih.length], by simp [encodeItems, hi.encode, ih.encode],
      by simp [ItemsInWords, hi.inWords, ih.inWords], fun n => by simp [itemsWithin, hi.within, ih.within]⟩

theorem SameItems.array {is js : List Item} (h : SameItems is js) : (Item.array is).Same (.array js) :=
  ⟨by simp [Item.encode, h.length, h.encode], by simp [Item.InWords, h.length, h.inWords],
    fun n => by cases n <;> simp [Item.within, h.length, h.within]⟩

theorem SameItems.map {is js : List Item} (h : SameItems is js) : (Item.map is).Same (.map js) :=
  ⟨by simp [Item.encode, h.length, h.encode], by simp [Item.InWords, h.length, h.inWords],
    fun n => by cases n <;> simp [Item.within, h.length, h.within]⟩

/-! ## Starts of items -/

theorem takeExactly_append (a b : Bytes) : takeExactly a.length (a ++ b) = some (a, b) := by
  induction a with
  | nil => rfl
  | cons x a ih => simp [takeExactly, ih]

theorem takeExactly_highBytes (w n : Nat) (rest : Bytes) :
    takeExactly w (highBytes w n ++ rest) = some (highBytes w n, rest) := by
  simpa using takeExactly_append (highBytes w n) rest

/-- The first byte of an item holds the major type and five more bits. -/
theorem toNat_start {major info : Nat} (hm : major < 8) (hi : info < 32) :
    (major * 32 + info).toUInt8.toNat / 32 = major ∧ (major * 32 + info).toUInt8.toNat % 32 = info := by
  have h : (major * 32 + info).toUInt8.toNat = major * 32 + info := by
    simp only [Nat.toUInt8, UInt8.toNat_ofNat']
    omega
  rw [h]
  omega

/-- A number behind a start is read back. -/
theorem readHead_wide (major info : Nat) {width n : Nat} (hm : major < 8)
    (hw : info = 24 ∧ width = 1 ∨ info = 25 ∧ width = 2 ∨ info = 26 ∧ width = 4 ∨ info = 27 ∧ width = 8)
    (hn : n < power 256 width) (h7 : major = 7 → info = 24 → 32 ≤ n) (rest : Bytes) :
    readHead ((major * 32 + info).toUInt8 :: highBytes width n ++ rest) = some (⟨major, info, n⟩, rest) := by
  have hi : info < 32 := by omega
  obtain ⟨hmajor, hinfo⟩ := toNat_start hm hi
  rw [List.cons_append, readHead]
  simp only [hmajor, hinfo]
  obtain ⟨rfl, rfl⟩ | ⟨rfl, rfl⟩ | ⟨rfl, rfl⟩ | ⟨rfl, rfl⟩ := hw
  · have hguard : ¬(major = 7 ∧ n < 32) := by
      rintro ⟨h, hlt⟩
      have := h7 h rfl
      omega
    simp [takeExactly_highBytes, ofHighBytes_highBytes hn, hguard]
  all_goals simp [takeExactly_highBytes, ofHighBytes_highBytes hn]

/-- The start of an item is read back. It has a length, and a small number stands in its first byte. -/
theorem readHead_head (major : Nat) {n : Nat} (hm : major < 8) (hn : n < pow2 64) (h7 : major = 7 → n < 24)
    (rest : Bytes) :
    ∃ info, info ≠ 31 ∧ (n < 24 → info = n) ∧ readHead (head major n ++ rest) = some (⟨major, info, n⟩, rest) := by
  unfold head
  dsimp only
  split
  · next h =>
    obtain ⟨hmajor, hinfo⟩ := toNat_start hm (by omega : n < 32)
    refine ⟨n, by omega, fun _ => rfl, ?_⟩
    rw [List.cons_append, readHead]
    simp only [hmajor, hinfo, List.nil_append]
    split <;> first | omega | rfl
  · next h =>
    have hbig : major ≠ 7 := fun h => by have := h7 h; omega
    split
    · next h8 =>
      exact ⟨24, by omega, by omega, readHead_wide _ _ hm (.inl ⟨rfl, rfl⟩) h8 (fun h => absurd h hbig) rest⟩
    · split
      · next h16 =>
        exact ⟨25, by omega, by omega, readHead_wide _ _ hm (.inr (.inl ⟨rfl, rfl⟩)) h16 (fun h => absurd h hbig) rest⟩
      · split
        · next h32 =>
          exact ⟨26, by omega, by omega,
            readHead_wide _ _ hm (.inr (.inr (.inl ⟨rfl, rfl⟩))) h32 (fun h => absurd h hbig) rest⟩
        · exact ⟨27, by omega, by omega,
            readHead_wide _ _ hm (.inr (.inr (.inr ⟨rfl, rfl⟩))) hn (fun h => absurd h hbig) rest⟩

/-! ## Floats -/

theorem narrow?_lt {f : FloatFormat} {x : Binary64} {bits : Nat} (h : f.narrow? x = some bits) :
    bits < pow2 (1 + f.exponent + f.fraction) := by
  unfold FloatFormat.narrow? at h
  split at h
  · next hc => exact (Option.some.inj h) ▸ hc.1
  · simp at h

/-- The two infinities differ in their sign. -/
theorem eq_of_isInfinite {x : Binary64} (h : x.isInfinite = true) :
    x = ⟨if x.negative then 0xFFF0000000000000 else 0x7FF0000000000000⟩ := by
  obtain ⟨bits⟩ := x
  have hlt := bits.toNat_lt
  simp only [Binary64.isInfinite, Binary64.exponentField, Binary64.fraction, Bool.and_eq_true, decide_eq_true_eq,
    show pow2 52 = 4503599627370496 from rfl, show pow2 11 = 2048 from rfl] at h
  simp only [Binary64.negative, show pow2 63 = 9223372036854775808 from rfl, decide_eq_true_eq, Binary64.mk.injEq]
  apply UInt64.toNat_inj.mp
  split
  · change _ = 18442240474082181120
    omega
  · change _ = 9218868437227405312
    omega

theorem readHead_half {n : Nat} (hn : n < power 256 2) (rest : Bytes) :
    readHead (0xF9 :: highBytes 2 n ++ rest) = some (⟨7, 25, n⟩, rest) :=
  readHead_wide 7 25 (by omega) (.inr (.inl ⟨rfl, rfl⟩)) hn (by omega) rest

theorem readHead_single {n : Nat} (hn : n < power 256 4) (rest : Bytes) :
    readHead (0xFA :: highBytes 4 n ++ rest) = some (⟨7, 26, n⟩, rest) :=
  readHead_wide 7 26 (by omega) (.inr (.inr (.inl ⟨rfl, rfl⟩))) hn (by omega) rest

theorem readHead_double {n : Nat} (hn : n < power 256 8) (rest : Bytes) :
    readHead (0xFB :: highBytes 8 n ++ rest) = some (⟨7, 27, n⟩, rest) :=
  readHead_wide 7 27 (by omega) (.inr (.inr (.inr ⟨rfl, rfl⟩))) hn (by omega) rest

/-- A float is read back from the shortest format that holds it. -/
theorem readHead_encodeFloat {x : Binary64} (h : x.isNaN = true → x = quietNaN) (rest : Bytes) :
    ∃ info n, readHead (encodeFloat x ++ rest) = some (⟨7, info, n⟩, rest) ∧ plainValue ⟨7, info, n⟩ = .float x := by
  unfold encodeFloat
  split
  · next hx =>
    refine ⟨25, 0x7E00, readHead_half (n := 0x7E00) (by decide) rest, ?_⟩
    rw [h hx]
    rfl
  · split
    · next hx =>
      have heq := eq_of_isInfinite hx
      cases hneg : x.negative <;> rw [hneg] at heq
      · exact ⟨25, 0x7C00, readHead_half (n := 0x7C00) (by decide) rest, by rw [heq]; rfl⟩
      · exact ⟨25, 0xFC00, readHead_half (n := 0xFC00) (by decide) rest, by rw [heq]; rfl⟩
    · split
      · next bits hbits =>
        exact ⟨25, bits, readHead_half (narrow?_lt hbits) rest,
          congrArg Item.float (FloatFormat.widen_of_narrow? hbits)⟩
      · split
        · next bits hbits =>
          exact ⟨26, bits, readHead_single (narrow?_lt hbits) rest,
            congrArg Item.float (FloatFormat.widen_of_narrow? hbits)⟩
        · refine ⟨27, x.bits.toNat, readHead_double x.bits.toNat_lt rest, ?_⟩
          simp [plainValue]

theorem plainValue_small {major k : Nat} (h : k < 24) : plainValue ⟨major, k, k⟩ = .simple k := by
  simp only [plainValue]
  split <;> first | omega | rfl

/-! ## Items that are read -/

/-- What may stand inside an item that is read with a number of levels. -/
def inner : Nat → Option Reader
  | 0 => none
  | n + 1 => some (readLevels n)

theorem readLevels_eq (n : Nat) : readLevels n = readNode (inner n) tagged := by cases n <;> rfl

/-- Whether bytes start an item that is no tag. -/
def Untagged (b : Bytes) : Prop := ∃ h rest, h.major ≠ 6 ∧ readHead b = some (h, rest)

theorem untagged_head {major n : Nat} (hm : major < 8) (h6 : major ≠ 6) (hn : n < pow2 63) (h7 : major = 7 → n < 24)
    (rest : Bytes) : Untagged (head major n ++ rest) := by
  obtain ⟨info, -, -, h⟩ := readHead_head _ hm (hn.trans (by decide)) h7 rest
  exact ⟨_, _, h6, h⟩

theorem untagged_encode {i : Item} (hp : i.Plain) (hw : i.InWords) (rest : Bytes) :
    Untagged (i.encode ++ rest) := by
  cases i <;> simp only [Item.InWords, Item.encode, List.append_assoc] at hw ⊢
  case uint n => exact untagged_head (by omega) (by omega) hw (by omega) _
  case nint n => exact untagged_head (by omega) (by omega) hw (by omega) _
  case bytes b => exact untagged_head (by omega) (by omega) hw (by omega) _
  case text ps => exact untagged_head (by omega) (by omega) hw (by omega) _
  case array is => exact untagged_head (by omega) (by omega) hw.1 (by omega) _
  case map is => exact untagged_head (by omega) (by omega) hw.1 (by omega) _
  case tag => exact hp.elim
  case simple n =>
    have hn : n < 24 := hp
    exact untagged_head (by omega) (by omega) (hn.trans (by decide)) (fun _ => hn) _
  case float x =>
    obtain ⟨info, n, h, -⟩ := readHead_encodeFloat hp rest
    exact ⟨_, _, (by decide : 7 ≠ 6), h⟩

theorem tagged_untagged {b : Bytes} (h : Untagged b) (p : Reader) : tagged p b = p b := by
  obtain ⟨head, rest, h6, h⟩ := h
  unfold tagged
  rw [h]
  split
  · next heq =>
    obtain ⟨rfl, -⟩ := Prod.mk.inj (Option.some.inj heq)
    exact absurd rfl h6
  · rfl

theorem readElements_encode (major : Nat) {n k info : Nat} {is : List Item} {rest : Bytes} (hi : info ≠ 31)
    (hk : (if major = 5 then 2 else 1) * k = is.length)
    (his : readItems (tagged (readLevels n)) is.length (encodeItems is ++ rest) =
      if itemsWithin n is then some (is, rest) else none) :
    readElements (tagged (readLevels n)) ⟨major, info, k⟩ (encodeItems is ++ rest) =
      if k ≤ maxElements && itemsWithin n is then some (is, rest) else none := by
  unfold readElements
  simp only [Head.indefinite, decide_eq_true_eq, hi, if_false, hk, his]
  by_cases hmax : k ≤ maxElements
  · have hmax' : ¬maxElements < k := by omega
    simp [hmax, hmax']
  · have hmax' : maxElements < k := by omega
    simp [hmax, hmax']

theorem bind_ite_some {α β : Type} (c : Prop) [Decidable c] (a : α) (f : α → Option β) :
    (if c then some a else none).bind f = if c then f a else none := by split <;> rfl

mutual

/-- An item within the limits is read back; another one is refused. -/
theorem read_encode : (i : Item) → i.Plain → i.InWords → ∀ (n : Nat) (rest : Bytes),
    readLevels n (i.encode ++ rest) = if i.within n then some (i, rest) else none
  | .uint k, _, hw, n, rest => by
    obtain ⟨info, -, -, h⟩ := readHead_head 0 (by omega) (lt_trans hw (by decide)) (by omega) rest
    simp [readLevels_eq, readNode, Item.encode, h, Item.within]
  | .nint k, _, hw, n, rest => by
    obtain ⟨info, -, -, h⟩ := readHead_head 1 (by omega) (lt_trans hw (by decide)) (by omega) rest
    simp [readLevels_eq, readNode, Item.encode, h, Item.within]
  | .bytes b, _, hw, n, rest => by
    obtain ⟨info, hi, -, h⟩ := readHead_head 2 (by omega) (lt_trans hw (by decide)) (by omega) (b ++ rest)
    simp [readLevels_eq, readNode, Item.encode, h, Item.within, readSequence, Head.indefinite, hi, takeExactly_append]
  | .text [b], _, hw, n, rest => by
    obtain ⟨info, hi, -, h⟩ := readHead_head 3 (by omega) (lt_trans hw (by decide)) (by omega) (b ++ rest)
    simp only [List.flatten_cons, List.flatten_nil, List.append_nil] at h
    simp [readLevels_eq, readNode, Item.encode, h, Item.within, readSequence, Head.indefinite, hi, takeExactly_append]
  | .text [], hp, _, _, _ => hp.elim
  | .text (_ :: _ :: _), hp, _, _, _ => hp.elim
  | .array is, hp, hw, n, rest => by
    obtain ⟨info, hi, -, h⟩ := readHead_head 4 (by omega) (lt_trans hw.1 (by decide)) (by omega)
      (encodeItems is ++ rest)
    cases n with
    | zero => simp [readLevels_eq, readNode, Item.encode, h, Item.within, inner]
    | succ n =>
      have his := read_encodeItems is hp hw.2 n rest
      have hread := readElements_encode 4 hi (Nat.one_mul _) his
      simp [readLevels_eq (n + 1), readNode, Item.encode, h, Item.within, inner, hread, bind_ite_some]
  | .map is, hp, hw, n, rest => by
    obtain ⟨info, hi, -, h⟩ := readHead_head 5 (by omega) (lt_trans hw.1 (by decide)) (by omega)
      (encodeItems is ++ rest)
    cases n with
    | zero => simp [readLevels_eq, readNode, Item.encode, h, Item.within, inner]
    | succ n =>
      have his := read_encodeItems is hp.2 hw.2 n rest
      have heven : 2 * (is.length / 2) = is.length := by have := hp.1; omega
      have hread := readElements_encode 5 hi heven his
      simp [readLevels_eq (n + 1), readNode, Item.encode, h, Item.within, inner, hread, bind_ite_some]
  | .tag _ _, hp, _, _, _ => hp.elim
  | .simple k, hp, _, n, rest => by
    have hk : k < 24 := hp
    obtain ⟨info, hi, hlow, h⟩ := readHead_head 7 (by omega) (hk.trans (by decide)) (fun _ => hk) rest
    obtain rfl := hlow hk
    simp [readLevels_eq, readNode, Item.encode, h, Item.within, plainValue_small hk]
  | .float x, hp, _, n, rest => by
    obtain ⟨info, k, h, hx⟩ := readHead_encodeFloat hp rest
    simp [readLevels_eq, readNode, Item.encode, h, Item.within, hx]

/-- Items within the limits are read back one after the other; a list with another item is refused. -/
theorem read_encodeItems : (is : List Item) → PlainItems is → ItemsInWords is → ∀ (n : Nat) (rest : Bytes),
    readItems (tagged (readLevels n)) is.length (encodeItems is ++ rest) =
      if itemsWithin n is then some (is, rest) else none
  | [], _, _, n, rest => by simp [readItems, encodeItems, itemsWithin]
  | i :: is, hp, hw, n, rest => by
    have hi := read_encode i hp.1 hw.1 n (encodeItems is ++ rest)
    have his := read_encodeItems is hp.2 hw.2 n rest
    have htag := tagged_untagged (untagged_encode hp.1 hw.1 (encodeItems is ++ rest)) (readLevels n)
    cases hin : i.within n <;> simp [readItems, encodeItems, itemsWithin, htag, hi, hin, his, bind_ite_some]

end

/-- A plain item is read back from its bytes exactly if it is within the limits of the reader. -/
theorem decode?_encode {i : Item} (hp : i.Plain) (hw : i.InWords) :
    decode? i.encode = if i.within maxNesting then some i else none := by
  have htag := tagged_untagged (untagged_encode hp hw []) (readLevels maxNesting)
  have hread := read_encode i hp hw maxNesting []
  rw [List.append_nil] at htag hread
  rw [decode?, htag, hread]
  cases i.within maxNesting <;> rfl

end Weft.Cbor
