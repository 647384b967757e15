import Weft.Bytecode.Image
import Weft.Disk
import Weft.Lz4
import Weft.Text.Quoted

/-!
# Artifacts

An artifact holds the modules of a project in one file: a tag, a version, the number of modules, and for
each how it is stored, its name and its payload. The payload is the module's bytes, a compressed frame of
them, or the path of a file that holds them. Lengths are words of four bytes, the lowest first.
-/

namespace Weft

/-- How a module is stored in an artifact. -/
inductive Encoding where
  | raw
  | lz4
  | ref
deriving DecidableEq, Repr, Inhabited

namespace Encoding

/-- The ways to store a module, in the order of their numbers. -/
def all : List Encoding := [raw, lz4, ref]

/-- The name of a way to store a module. -/
def name : Encoding → String
  | raw => "raw"
  | lz4 => "lz4"
  | ref => "ref"

/-- The number of a way to store a module. -/
def number : Encoding → Nat
  | raw => 0
  | lz4 => 1
  | ref => 2

/-- The way to store a module with a number. -/
def ofNumber? (n : Nat) : Option Encoding := all[n]?

/-- The name for a number, also for one that has no meaning. -/
def nameOfNumber (n : Nat) : String := ((ofNumber? n).map name).getD s!"Encoding({n})"

/-- The way to store a module with a name; the empty name means as it is. -/
def ofName? (s : String) : Option Encoding := if s = "" then some raw else all.find? (·.name = s)

/-- The text of the problem with a number that means none. -/
def invalid (n : Nat) : String := s!"invalid encoding {n}"

/-- The text of the problem with a name that means none. -/
def unknown (s : String) : String := "unknown encoding " ++ Text.quote s ++ " (want raw, lz4 or ref)"

end Encoding

namespace Artifact

/-- The first byte of every artifact. -/
def tag : UInt8 := 0x4C

/-- The version of the layout. -/
def version : Nat := 1

/-- A module to be written: its name, its bytes, and the file that holds them, if there is one. -/
structure Entry where
  name : Bytes
  payload : Bytes
  ref : Option String
deriving DecidableEq, Repr, Inhabited

/-- A number of four bytes. -/
def writeWord (n : Nat) : Bytes := Number.lowBytes 4 n

/-- Bytes behind their length. -/
def writeBytes (b : Bytes) : Bytes := writeWord b.length ++ b

/-- The payload of a module. A module is stored by reference only if a file holds it. -/
def Entry.stored? (e : Entry) : Encoding → Option Bytes
  | .raw => some e.payload
  | .lz4 => some (Lz4.compress e.payload)
  | .ref => e.ref.map Text.encode

/-- The bytes of a module in an artifact. A module that no file holds is refused with its name. -/
def Entry.encode (enc : Encoding) (e : Entry) : Except Bytes Bytes :=
  match e.stored? enc with
  | some b => .ok (enc.number.toUInt8 :: writeBytes e.name ++ writeBytes b)
  | none => .error e.name

/-- The bytes of an artifact. -/
def encode (enc : Encoding) (es : List Entry) : Except Bytes Bytes := do
  let bodies ← es.mapM (Entry.encode enc)
  return tag :: writeWord version ++ writeWord es.length ++ bodies.flatten

/-- A module read from an artifact: its name, how it was stored, and its bytes. -/
structure Loaded where
  name : Bytes
  encoding : Encoding
  data : Bytes
deriving DecidableEq, Repr

/-- Why bytes are no artifact. -/
inductive ReadError where
  | badTag (found : UInt8)
  | trailing (count : Nat)
  | version (found : Nat)
  | endOfData
  | unknownEncoding (number : Nat)
  | compressed (name : Bytes)
  | reference (name : Bytes) (fault : Fault)
  | inModule (index : Nat) (e : ReadError)
deriving Repr

/-- The text of the problem. -/
def ReadError.message : ReadError → String
  | badTag b => "invalid artifact: tag 0x" ++ (Text.hexByte b).toUpper
  | trailing n => s!"invalid artifact: {n} trailing bytes"
  | version n => s!"artifact version mismatch: expected {Artifact.version}, got {n}"
  | endOfData => "unexpected end of artifact data"
  | unknownEncoding n => s!"unknown module encoding: {n}"
  | compressed n => "decompress " ++ (Text.decode? n).getD "" ++ ": invalid frame"
  | reference n f => "load " ++ (Text.decode? n).getD "" ++ ": " ++ f.message
  | inModule i e => s!"module {i}: " ++ e.message

/-- The problem itself, without the module it was found in. -/
def ReadError.root : ReadError → ReadError
  | inModule _ e => e.root
  | e => e

/-- Read a number of four bytes. -/
def readWord : Bytes → Except ReadError (Nat × Bytes)
  | a :: b :: c :: d :: rest => .ok (Number.ofLowBytes [a, b, c, d], rest)
  | _ => .error .endOfData

/-- Read bytes behind their length. -/
def readBytes (b : Bytes) : Except ReadError (Bytes × Bytes) := do
  let (n, b) ← readWord b
  if b.length < n then .error .endOfData else .ok (b.take n, b.drop n)

/-- A module as it stands in an artifact. -/
structure Stored where
  encoding : Nat
  name : Bytes
  payload : Bytes
deriving DecidableEq, Repr

/-- Read a module as it stands in an artifact. -/
def readStored : Bytes → Except ReadError (Stored × Bytes)
  | [] => .error .endOfData
  | enc :: b => do
    let (name, b) ← readBytes b
    let (payload, b) ← readBytes b
    return (⟨enc.toNat, name, payload⟩, b)

/-- The bytes of a module, with a way to read files. -/
def Stored.load {m : Type → Type} [Monad m] (read : String → m (Except Fault Bytes)) (s : Stored) :
    m (Except ReadError Loaded) := do
  match Encoding.ofNumber? s.encoding with
  | none => return .error (.unknownEncoding s.encoding)
  | some .raw => return .ok ⟨s.name, .raw, s.payload⟩
  | some .lz4 =>
    match Lz4.decompress? s.payload with
    | some data => return .ok ⟨s.name, .lz4, data⟩
    | none => return .error (.compressed s.name)
  | some .ref =>
    let path := (Text.decode? s.payload).getD ""
    match ← read path with
    | .ok data => return .ok ⟨s.name, .ref, data⟩
    | .error f => return .error (.reference s.name f)

/-- Read a number of modules, the first of which has an index, and give the bytes behind them. -/
def readModules {m : Type → Type} [Monad m] (read : String → m (Except Fault Bytes)) (index : Nat) :
    Nat → Bytes → m (Except ReadError (List Loaded × Bytes))
  | 0, b => return .ok ([], b)
  | n + 1, b => do
    match readStored b with
    | .error e => return .error (.inModule index e)
    | .ok (s, b) =>
      match ← s.load read with
      | .error e => return .error (.inModule index e)
      | .ok first =>
        match ← readModules read (index + 1) n b with
        | .error e => return .error e
        | .ok (rest, b) => return .ok (first :: rest, b)

/-- Read the tag and the version of an artifact and the number of its modules. -/
def readHeader : Bytes → Except ReadError (Nat × Bytes)
  | [] => .error .endOfData
  | t :: b => do
    if t ≠ tag then .error (.badTag t)
    let (v, b) ← readWord b
    if v ≠ version then .error (.version v)
    readWord b

/-- The modules of an artifact. -/
def decode {m : Type → Type} [Monad m] (read : String → m (Except Fault Bytes)) (b : Bytes) :
    m (Except ReadError (List Loaded)) := do
  match readHeader b with
  | .error e => return .error e
  | .ok (count, b) =>
    match ← readModules read 0 count b with
    | .error e => return .error e
    | .ok (ms, rest) => return if rest.isEmpty then .ok ms else .error (.trailing rest.length)

end Artifact

end Weft
