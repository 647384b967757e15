import Weft.Cbor.Field
import Weft.Symbol.Record

/-!
# Stored declarations as data

The binary form of the records of types, declarations and namespaces, and reading them back. Records nest
as deeply as items of data may.
-/

namespace Weft

open Cbor

mutual

/-- The data of a stored type. -/
def TypeRecord.item : TypeRecord → Item
  | ⟨kind, name, elem, value, items, refs, defaults, coro⟩ =>
    .record [some (.uint kind), Item.stringField name, optionItem elem, optionItem value,
      Item.listField (typeItems items), Item.listField (refs.map .ofBool), Item.intField defaults,
      Item.boolField coro]

/-- The data of a stored type that may be missing. -/
def optionItem : Option TypeRecord → Option Item
  | none => none
  | some r => some r.item

/-- The data of stored types. -/
def typeItems : List TypeRecord → List Item
  | [] => []
  | r :: rs => r.item :: typeItems rs

end

mutual

/-- The data of a stored declaration. -/
def SymbolRecord.item : SymbolRecord → Item
  | ⟨kind, name, fileLocal, type, params, index, value, virtual, override, bases, super, members⟩ =>
    .record [some (.uint kind), some (.ofString name), Item.boolField fileLocal, optionItem type,
      Item.listField ((params.getD []).map .ofString), Item.intField index, Item.intField value,
      Item.boolField virtual,
      Item.boolField override, Item.listField (typeItems bases), Item.boolField super,
      Item.listField (symbolItems members)]

/-- The data of stored declarations. -/
def symbolItems : List SymbolRecord → List Item
  | [] => []
  | r :: rs => r.item :: symbolItems rs

end

/-- The data of the stored declarations of a module. -/
def NamespaceRecord.item (r : NamespaceRecord) : Item :=
  .record [Item.listField (symbolItems r.members), Item.intField r.globals]

/-- Read a stored type, with records inside it up to a depth. -/
def TypeRecord.ofItem? : Nat → Item → Option TypeRecord
  | 0, _ => none
  | depth + 1, i => do
    let fields ← i.record?
    let sub := TypeRecord.ofItem? depth
    return {
      kind := ← (fieldOf fields 1).byte?
      name := ← (fieldOf fields 2).string?
      elem := ← (fieldOf fields 3).optional? sub
      value := ← (fieldOf fields 4).optional? sub
      items := ← (fieldOf fields 5).list? sub
      refs := ← (fieldOf fields 6).list? Item.bool?
      defaults := ← (fieldOf fields 7).int?
      coro := ← (fieldOf fields 8).bool? }

/-- Read a stored declaration, with records inside it up to a depth. -/
def SymbolRecord.ofItem? : Nat → Item → Option SymbolRecord
  | 0, _ => none
  | depth + 1, i => do
    let fields ← i.record?
    let type := TypeRecord.ofItem? depth
    return {
      kind := ← (fieldOf fields 1).byte?
      name := ← (fieldOf fields 2).string?
      fileLocal := ← (fieldOf fields 3).bool?
      type := ← (fieldOf fields 4).optional? type
      params := ← (fieldOf fields 5).optional? (Item.list? Item.string?)
      index := ← (fieldOf fields 6).int?
      value := ← (fieldOf fields 7).int?
      virtual := ← (fieldOf fields 8).bool?
      override := ← (fieldOf fields 9).bool?
      bases := ← (fieldOf fields 10).list? type
      super := ← (fieldOf fields 11).bool?
      members := ← (fieldOf fields 12).list? (SymbolRecord.ofItem? depth) }

/-- Read the stored declarations of a module. -/
def NamespaceRecord.ofItem? (i : Item) : Option NamespaceRecord := do
  let fields ← i.record?
  return {
    members := ← (fieldOf fields 1).list? (SymbolRecord.ofItem? maxNesting)
    globals := ← (fieldOf fields 2).int? }

end Weft
