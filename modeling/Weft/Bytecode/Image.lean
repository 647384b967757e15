import Weft.Bytecode.Module
import Weft.Symbol.Image

/-!
# Compiled modules as data

`Compiled.encode` writes a module as bytes, equal modules as equal bytes, and `Compiled.decode` reads them
back. A module of another version of the format is refused.
-/

namespace Weft.Bytecode

open Cbor

namespace Constant

/-- The data of a constant. Both zeros are left out. -/
def item (c : Constant) : Item :=
  .record [some (.uint c.kind), Item.intField c.int,
    if c.float.bits.toNat % Number.pow2 63 = 0 then none else some (.float c.float),
    Item.stringField c.str, Item.stringField c.module]

/-- Read a constant. -/
def ofItem? (i : Item) : Option Constant := do
  let fields ← i.record?
  return {
    kind := ← (fieldOf fields 1).byte?
    int := ← (fieldOf fields 2).int?
    float := ← (fieldOf fields 3).float?
    str := ← (fieldOf fields 4).string?
    module := ← (fieldOf fields 5).string? }

end Constant

namespace LinePos

/-- The data of a place in a line map. -/
def item (l : LinePos) : Item := .record [some (.ofInt l.pos), some (.ofInt l.line)]

/-- Read a place in a line map. -/
def ofItem? (i : Item) : Option LinePos := do
  let fields ← i.record?
  return { pos := ← (fieldOf fields 1).int?, line := ← (fieldOf fields 2).int? }

end LinePos

namespace FuncPos

/-- The data of the position of a function. -/
def item (f : FuncPos) : Item := .record [some (.ofString f.name), some (.ofInt f.pos)]

/-- Read the position of a function. -/
def ofItem? (i : Item) : Option FuncPos := do
  let fields ← i.record?
  return { name := ← (fieldOf fields 1).string?, pos := ← (fieldOf fields 2).int? }

end FuncPos

/-- Why bytes are no module. -/
inductive ImageError where
  | malformed
  | version (found : Int)
deriving DecidableEq, Repr

/-- The text of the problem. -/
def ImageError.message : ImageError → String
  | malformed => "decode module: malformed data"
  | version n => s!"bytecode: unsupported module version: {n}"

namespace Compiled

/-- The data of a module. -/
def item (m : Compiled) : Item :=
  .record [some (.ofInt m.version), some (.ofString m.name), Item.stringField m.file,
    Item.listField (m.imports.map .ofString), m.space.map NamespaceRecord.item,
    Item.listField (m.constants.map Constant.item), Item.bytesField m.init, Item.bytesField m.code,
    Item.listField (m.initLines.map LinePos.item), Item.listField (m.lines.map LinePos.item),
    Item.listField (m.funcs.map FuncPos.item)]

/-- Read a module. -/
def ofItem? (i : Item) : Option Compiled := do
  let fields ← i.record?
  return {
    version := ← (fieldOf fields 1).int?
    name := ← (fieldOf fields 2).string?
    file := ← (fieldOf fields 3).string?
    imports := ← (fieldOf fields 4).list? Item.string?
    space := ← (fieldOf fields 5).optional? NamespaceRecord.ofItem?
    constants := ← (fieldOf fields 6).list? Constant.ofItem?
    init := ← (fieldOf fields 7).bytes?
    code := ← (fieldOf fields 8).bytes?
    initLines := ← (fieldOf fields 9).list? LinePos.ofItem?
    lines := ← (fieldOf fields 10).list? LinePos.ofItem?
    funcs := ← (fieldOf fields 11).list? FuncPos.ofItem? }

/-- The bytes of a module. -/
def encode (m : Compiled) : Bytes := m.item.encode

/-- The module of a byte sequence. -/
def decode (b : Bytes) : Except ImageError Compiled :=
  match (Cbor.decode? b).bind ofItem? with
  | none => .error .malformed
  | some m => if m.version = formatVersion then .ok m else .error (.version m.version)

end Compiled

end Weft.Bytecode
