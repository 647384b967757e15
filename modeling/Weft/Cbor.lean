import Weft.Number.Narrow
import Weft.Number.Word
import Weft.Text.Glyph

/-!
# Self-describing binary data

An item is a number, a sequence of bytes or of text, a list, a map, a tagged item, or one of the simple
values. `Item.encode` writes the canonical form: every number in the fewest bytes, and every float in
the shortest format that keeps its value. `decode?` reads any well-formed item: wider numbers, texts and
lists of unknown length that end with a break, and tags; it refuses items nested too deeply or with too
many elements.
-/

namespace Weft.Cbor

/-- An item of data. `nint n` is the number `-1 - n`; a text keeps the parts it was written in; a map
lists its keys and values in turn. -/
inductive Item where
  | uint (n : Nat)
  | nint (n : Nat)
  | bytes (b : Bytes)
  | text (parts : List Bytes)
  | array (items : List Item)
  | map (items : List Item)
  | tag (n : Nat) (item : Item)
  | simple (n : Nat)
  | float (x : Number.Binary64)
deriving Inhabited

/-! ## Writing -/

/-- The start of an item: its major type and a number in the fewest bytes. -/
def head (major n : Nat) : Bytes :=
  let start := fun info : Nat => (major * 32 + info).toUInt8
  if n < 24 then [start n]
  else if n < Number.pow2 8 then start 24 :: Number.highBytes 1 n
  else if n < Number.pow2 16 then start 25 :: Number.highBytes 2 n
  else if n < Number.pow2 32 then start 26 :: Number.highBytes 4 n
  else start 27 :: Number.highBytes 8 n

/-- A float in the shortest format that keeps its value. All that are no number are written alike. -/
def encodeFloat (x : Number.Binary64) : Bytes :=
  if x.isNaN then [0xF9, 0x7E, 0x00]
  else if x.isInfinite then [0xF9, if x.negative then 0xFC else 0x7C, 0x00]
  else match Number.FloatFormat.half.narrow? x with
    | some bits => 0xF9 :: Number.highBytes 2 bits
    | none => match Number.FloatFormat.single.narrow? x with
      | some bits => 0xFA :: Number.highBytes 4 bits
      | none => 0xFB :: Number.highBytes 8 x.bits.toNat

mutual

/-- The canonical bytes of an item. -/
def Item.encode : Item → Bytes
  | .uint n => head 0 n
  | .nint n => head 1 n
  | .bytes b => head 2 b.length ++ b
  | .text parts => head 3 parts.flatten.length ++ parts.flatten
  | .array items => head 4 items.length ++ encodeItems items
  | .map items => head 5 (items.length / 2) ++ encodeItems items
  | .tag n item => head 6 n ++ item.encode
  | .simple n => head 7 n
  | .float x => encodeFloat x

/-- The bytes of items one after the other. -/
def encodeItems : List Item → Bytes
  | [] => []
  | i :: is => i.encode ++ encodeItems is

end

/-! ## Reading -/

/-- What can be read off the start of an item. -/
structure Head where
  major : Nat
  info : Nat
  value : Nat
deriving DecidableEq, Repr

/-- Whether an item goes on until a break. -/
def Head.indefinite (h : Head) : Bool := h.info = 31

/-- The first bytes of a sequence, as many as asked for, and the rest. -/
def takeExactly : Nat → Bytes → Option (Bytes × Bytes)
  | 0, b => some ([], b)
  | _ + 1, [] => none
  | n + 1, x :: b => do
    let (first, rest) ← takeExactly n b
    return (x :: first, rest)

/-- Read the start of an item. Only sequences, lists and maps may have no length, and simple values below
32 have one form. -/
def readHead : Bytes → Option (Head × Bytes)
  | [] => none
  | b :: rest =>
    let major := b.toNat / 32
    let info := b.toNat % 32
    let wide := fun width : Nat =>
      (takeExactly width rest).map fun (bs, rest) => (Head.mk major info (Number.ofHighBytes bs), rest)
    match info with
    | 24 => do
      let (h, rest) ← wide 1
      if major = 7 ∧ h.value < 32 then none else return (h, rest)
    | 25 => wide 2
    | 26 => wide 4
    | 27 => wide 8
    | 28 | 29 | 30 => none
    | 31 => if major < 2 ∨ 5 < major then none else some (⟨major, info, 0⟩, rest)
    | n => some (⟨major, info, n⟩, rest)

/-- The byte that ends an item without a length. -/
def breakByte : UInt8 := 0xFF

/-- A reader of an item, which gives the bytes behind it. -/
abbrev Reader := Bytes → Option (Item × Bytes)

/-- Read a number of items. -/
def readItems (p : Reader) : Nat → Bytes → Option (List Item × Bytes)
  | 0, b => some ([], b)
  | n + 1, b => do
    let (i, b) ← p b
    let (is, b) ← readItems p n b
    return (i :: is, b)

/-- Read items up to a break. The first argument bounds their number. -/
def readUntilBreak (p : Reader) : Nat → Bytes → Option (List Item × Bytes)
  | 0, _ => none
  | n + 1, b =>
    match b with
    | [] => none
    | x :: rest =>
      if x = breakByte then some ([], rest)
      else do
        let (i, b) ← p b
        let (is, b) ← readUntilBreak p n b
        return (i :: is, b)

/-- Read the parts of a sequence up to a break. Every part has a length and the same major type. -/
def readParts (major : Nat) : Nat → Bytes → Option (List Bytes × Bytes)
  | 0, _ => none
  | n + 1, b =>
    match b with
    | [] => none
    | x :: rest =>
      if x = breakByte then some ([], rest)
      else do
        let (h, b) ← readHead b
        if h.major ≠ major ∨ h.indefinite then none
        let (part, b) ← takeExactly h.value b
        let (parts, b) ← readParts major n b
        return (part :: parts, b)

/-- The parts of a sequence, which is one part if it has a length. -/
def readSequence (h : Head) (b : Bytes) : Option (List Bytes × Bytes) :=
  if h.indefinite then readParts h.major (b.length + 1) b
  else do
    let (part, b) ← takeExactly h.value b
    return ([part], b)

/-- How many elements a list, and how many pairs a map may have. -/
def maxElements : Nat := 131072

/-- How many lists, maps and further tags may stand inside each other. -/
def maxNesting : Nat := 32

/-- The elements of a list or the keys and values of a map. -/
def readElements (p : Reader) (h : Head) (b : Bytes) : Option (List Item × Bytes) := do
  let each := if h.major = 5 then 2 else 1
  if h.indefinite then
    let (is, b) ← readUntilBreak p (b.length + 1) b
    if is.length % each ≠ 0 ∨ maxElements < is.length / each then none
    return (is, b)
  else
    if maxElements < h.value then none
    readItems p (each * h.value) b

/-- The simple value or the float of a start. -/
def plainValue (h : Head) : Item :=
  match h.info with
  | 25 => .float (Number.FloatFormat.half.widen h.value)
  | 26 => .float (Number.FloatFormat.single.widen h.value)
  | 27 => .float ⟨h.value.toUInt64⟩
  | _ => .simple h.value

/-- Read an item, leaving what stands inside it to a reader, if any more nesting is allowed. -/
def readNode (inner : Option Reader) (element : Reader → Reader) (b : Bytes) : Option (Item × Bytes) := do
  let (h, b) ← readHead b
  match h.major with
  | 0 => return (.uint h.value, b)
  | 1 => return (.nint h.value, b)
  | 2 =>
    let (parts, b) ← readSequence h b
    return (.bytes parts.flatten, b)
  | 3 =>
    let (parts, b) ← readSequence h b
    return (.text parts, b)
  | 4 =>
    let (is, b) ← readElements (element (← inner)) h b
    return (.array is, b)
  | 5 =>
    let (is, b) ← readElements (element (← inner)) h b
    return (.map is, b)
  | 6 =>
    let (i, b) ← (← inner) b
    return (.tag h.value i, b)
  | _ => return (plainValue h, b)

/-- Allow one tag in front of an item, which does not count as nesting. -/
def tagged (p : Reader) (b : Bytes) : Option (Item × Bytes) :=
  match readHead b with
  | some (⟨6, _, t⟩, rest) => do
    let (i, b) ← p rest
    return (.tag t i, b)
  | _ => p b

/-- Read an item with a number of levels of nesting. -/
def readLevels : Nat → Reader
  | 0 => readNode none tagged
  | n + 1 => readNode (some (readLevels n)) tagged

/-- The item that a byte sequence holds, all of it. -/
def decode? (b : Bytes) : Option Item :=
  match tagged (readLevels maxNesting) b with
  | some (i, []) => some i
  | _ => none

end Weft.Cbor
