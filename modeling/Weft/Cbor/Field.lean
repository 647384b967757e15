import Weft.Cbor

/-!
# Records as items

A record is a map whose keys are small numbers. Fields that hold nothing are left out when a record is
written. When it is read, a missing field and a null leave the field empty, unknown keys are skipped, of
several values for one key the first counts, and tags are looked through.
-/

namespace Weft.Cbor

namespace Item

/-! ## Writing -/

/-- The null value. -/
def null : Item := simple 22

/-- An integer. -/
def ofInt (n : Int) : Item := if 0 ≤ n then uint n.toNat else nint (-1 - n).toNat

/-- A text. -/
def ofString (s : String) : Item := text [Text.encode s]

/-- A truth value. -/
def ofBool (b : Bool) : Item := simple (if b then 21 else 20)

/-- A field for an integer, left out if it is zero. -/
def intField (n : Int) : Option Item := if n = 0 then none else some (ofInt n)

/-- A field for a text, left out if it is empty. -/
def stringField (s : String) : Option Item := if s = "" then none else some (ofString s)

/-- A field for a truth value, left out if it is false. -/
def boolField (b : Bool) : Option Item := if b then some (ofBool true) else none

/-- A field for bytes, left out if there are none. -/
def bytesField (b : Bytes) : Option Item := if b.isEmpty then none else some (bytes b)

/-- A field for a list, left out if it is empty. -/
def listField (items : List Item) : Option Item := if items.isEmpty then none else some (array items)

/-- The keys and values of the fields that are there, with keys from a number on. -/
def fieldsFrom (key : Nat) : List (Option Item) → List Item
  | [] => []
  | none :: rest => fieldsFrom (key + 1) rest
  | some v :: rest => uint key :: v :: fieldsFrom (key + 1) rest

/-- A record with keys from one on. -/
def record (fields : List (Option Item)) : Item := map (fieldsFrom 1 fields)

/-! ## Reading -/

/-- Whether an item stands for nothing. -/
def isNull : Item → Bool
  | simple n => n = 22 || n = 23
  | _ => false

/-- Whether a tag may stand before an item: the tags for times and large numbers ask for a text, a number
or bytes. -/
def admits : Nat → Item → Bool
  | 0, text _ => true
  | 0, _ => false
  | 1, uint _ | 1, nint _ | 1, float _ => true
  | 1, _ => false
  | 2, bytes _ | 3, bytes _ => true
  | 2, _ | 3, _ => false
  | _, _ => true

/-- The item behind its tags. The tags of large numbers stay. -/
def content? : Item → Option Item
  | tag n i =>
    if !admits n i then none
    else if n = 2 ∨ n = 3 then some (tag n i)
    else i.content?
  | i => some i

/-- The number that an item without tags stands for, if it is one. Simple values stand for themselves,
except the truth values and null. -/
def number? : Item → Option Int
  | uint n => some n
  | nint n => some (-1 - n)
  | simple n => if 20 ≤ n ∧ n ≤ 23 then none else some n
  | tag 2 (bytes b) => some (Number.ofHighBytes b)
  | tag 3 (bytes b) => some (-1 - Number.ofHighBytes b)
  | _ => none

/-- Read an item behind its tags; null gives a default. -/
def readOr {α : Type} (default : α) (f : Item → Option α) (i : Item) : Option α := do
  let i ← i.content?
  if i.isNull then return default else f i

/-- A number within bounds. -/
def bounded (least greatest : Int) : Item → Option Int :=
  readOr 0 fun i => i.number?.filter fun n => least ≤ n ∧ n ≤ greatest

/-- An integer of 64 bits. -/
def int? : Item → Option Int := bounded (-(Number.pow2 63)) (Number.pow2 63 - 1)

/-- A number that fits in a byte. -/
def byte? (i : Item) : Option Nat := (bounded 0 255 i).map Int.toNat

/-- The float nearest to an integer. -/
def nearest (n : Int) : Number.Binary64 :=
  let x := (Number.Binary64.ofRatio? n.natAbs 1).getD .infinity
  if n < 0 then ⟨x.bits ||| 0x8000000000000000⟩ else x

/-- A float; an integer is taken for the float nearest to it. -/
def float? : Item → Option Number.Binary64 :=
  readOr .zero fun i =>
    match i with
    | float x => some x
    | i => (i.number?.filter fun n : Int => -(Number.pow2 63) ≤ n ∧ n < Number.pow2 64).map nearest

/-- A truth value. -/
def bool? : Item → Option Bool :=
  readOr false fun i =>
    match i with
    | simple 20 => some false
    | simple 21 => some true
    | _ => none

/-- A text. Every part has to be valid on its own. -/
def string? : Item → Option String :=
  readOr "" fun i =>
    match i with
    | text parts => (parts.mapM Text.decode?).map String.join
    | _ => none

/-- The elements of a list. -/
def list? {α : Type} (f : Item → Option α) : Item → Option (List α) :=
  readOr [] fun i =>
    match i with
    | array items => items.mapM f
    | _ => none

/-- Bytes, which may also be written as a list of numbers. -/
def bytes? : Item → Option Bytes :=
  readOr [] fun i =>
    match i with
    | bytes b | tag 2 (bytes b) | tag 3 (bytes b) => some b
    | array items => items.mapM fun i => i.byte?.map Nat.toUInt8
    | _ => none

/-- A value that may be missing. -/
def optional? {α : Type} (f : Item → Option α) (i : Item) : Option (Option α) :=
  if i.isNull then some none else (f i).map some

/-- The keys of a record with their values. Keys are numbers or texts. -/
def entries? : List Item → Option (List (Item × Item))
  | [] => some []
  | [_] => none
  | k :: v :: rest => do
    match k with
    | uint _ | nint _ => pure ()
    | text parts => let _ ← parts.mapM Text.decode?
    | _ => none
    return (k, v) :: (← entries? rest)

/-- Whether an item is the key of a field, as a number or spelled out. -/
def isKey (key : Nat) : Item → Bool
  | uint n => n = key
  | text parts => parts.flatten = Text.encode (toString key)
  | _ => false

/-- The entries of a record. -/
def record? : Item → Option (List (Item × Item)) :=
  readOr [] fun i =>
    match i with
    | map items => entries? items
    | _ => none

end Item

/-- The field of a record with a key, which is null if there is none. -/
def fieldOf (entries : List (Item × Item)) (key : Nat) : Item :=
  ((entries.find? fun e => e.1.isKey key).map Prod.snd).getD .null

end Weft.Cbor
