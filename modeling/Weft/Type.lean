/-!
# Types

A value has a builtin type, a type built from others, or a declared type. Declared types are classes,
interfaces and enumerations; they are told apart by their identity in the symbol store, never by name.
-/

namespace Weft

/-- The identity of a namespace. -/
structure NamespaceId where
  index : Nat
deriving DecidableEq, Repr, Inhabited

/-- The identity of a function or method. -/
structure FuncId where
  index : Nat
deriving DecidableEq, Repr, Inhabited

/-- The identity of a global variable. -/
structure GlobalId where
  index : Nat
deriving DecidableEq, Repr, Inhabited

/-- The identity of a field. -/
structure FieldId where
  index : Nat
deriving DecidableEq, Repr, Inhabited

/-- The identity of a class. -/
structure ClassId where
  index : Nat
deriving DecidableEq, Repr, Inhabited

/-- The identity of an interface. -/
structure InterfaceId where
  index : Nat
deriving DecidableEq, Repr, Inhabited

/-- The identity of an enumeration. -/
structure EnumId where
  index : Nat
deriving DecidableEq, Repr, Inhabited

/-- The builtin types. `void` is the type of no value, `null` that of the null literal, which cannot be
written as a type. -/
inductive Builtin where
  | int | float | string | bool | any | void | null
deriving DecidableEq, Repr, Inhabited

namespace Builtin

/-- The name of a builtin type. -/
def name : Builtin → String
  | int => "int"
  | float => "float"
  | string => "string"
  | bool => "bool"
  | any => "any"
  | void => "void"
  | null => "null"

/-- The builtin types that can be written, in the order in which they are declared. -/
def named : List Builtin := [int, float, string, bool, any, void]

/-- The builtin type with a name. -/
def ofName? (s : String) : Option Builtin := (named ++ [null]).find? (fun b => b.name = s)

end Builtin

mutual

/-- A type. -/
inductive Ty where
  | builtin (b : Builtin)
  | array (elem : Ty)
  | map (key value : Ty)
  | tuple (items : List Ty)
  | func (sig : Signature)
  | cls (c : ClassId)
  | iface (i : InterfaceId)
  | enumeration (e : EnumId)

/-- The type of a function: what it returns, its parameters, each with whether it is passed by
reference, how many of the last parameters have default values, and whether it is a coroutine. -/
structure Signature where
  returns : Ty
  params : List (Bool × Ty)
  defaults : Int
  coro : Bool

end

instance : Inhabited Ty := ⟨.builtin .void⟩

instance : Inhabited Signature := ⟨⟨.builtin .void, [], 0, false⟩⟩

namespace Ty

/-- The type of integers. -/
abbrev int : Ty := .builtin .int

/-- The type of floating point numbers. -/
abbrev float : Ty := .builtin .float

/-- The type of texts. -/
abbrev string : Ty := .builtin .string

/-- The type of truth values. -/
abbrev bool : Ty := .builtin .bool

/-- The type of every value. -/
abbrev any : Ty := .builtin .any

/-- The type of no value. -/
abbrev void : Ty := .builtin .void

/-- The type of the null literal. -/
abbrev null : Ty := .builtin .null

/-- The type of several values; one value has its own type and no value is void. -/
def ofValues : List (Option Ty) → Option Ty
  | [] => some void
  | [t] => t
  | ts => some (.tuple (ts.filterMap id))

/-- Whether a type is a given builtin type. -/
def is (b : Builtin) : Ty → Bool
  | builtin b' => b' = b
  | _ => false

/-- Whether a type is that of numbers. -/
def isNumeric (t : Ty) : Bool := t.is .int || t.is .float

/-- Whether a type is an enumeration. -/
def isEnum : Ty → Bool
  | enumeration _ => true
  | _ => false

/-- Whether the values of a type may be null. -/
def isReference : Ty → Bool
  | cls _ | iface _ | array _ | map _ _ | func _ => true
  | builtin b => b = .any || b = .string || b = .null
  | _ => false

/-- How many values an expression of a type leaves. -/
def valueCount : Ty → Nat
  | tuple items => items.length
  | builtin .void => 0
  | _ => 1

end Ty

namespace Signature

/-- A signature without references and default values. -/
def plain (returns : Ty) (params : List Ty) : Signature :=
  { returns, params := params.map fun t => (false, t), defaults := 0, coro := false }

/-- How many arguments a caller has to pass. -/
def required (s : Signature) : Int := (s.params.length : Int) - s.defaults

end Signature

end Weft
