import Weft.Operator
import Weft.Symbol.Class

/-!
# Type compatibility

When two types are the same, when a value of one type can be stored as another, when a cast is legal,
and what an operator gives.
-/

namespace Weft

namespace Ty

/-- Whether two types are the same. Declared types are the same when their identity is; built types are
compared by name. -/
def identical (s : Store) (a b : Ty) : Bool :=
  match a, b with
  | builtin x, builtin y => x = y
  | cls x, cls y => x = y
  | iface x, iface y => x = y
  | enumeration x, enumeration y => x = y
  | array _, _ | map _ _, _ | tuple _, _ | func _, _ => a.typeName s = b.typeName s
  | _, _ => false

/-- Whether a value of type `src` can be stored where `dst` is expected. -/
def assignable (s : Store) (src dst : Ty) : Bool :=
  if src.identical s dst || dst.is .any then true
  else if src.is .null then dst.isReference
  else if src.is .int && dst.is .float then true
  else match src, dst with
    | cls c, cls d => s.isSubclass c d
    | cls c, iface i => s.implementing c i
    | iface i, iface j => s.extends? i j
    | _, _ => false

/-- Whether a value of type `src` can be cast to `dst`. Casts through an interface are checked when the
program runs. -/
def castable (s : Store) (src dst : Ty) : Bool :=
  src.assignable s dst || dst.assignable s src || src.is .any || dst.is .any
    || (src.isNumeric && dst.isNumeric)
    || (src.isEnum && dst.isNumeric) || (dst.isEnum && src.is .int)
    || (dst.is .string && (src.isNumeric || src.is .bool))
    || (dst.is .bool && src.isNumeric) || (src.is .bool && dst.is .int)
    || (match src, dst with
        | iface _, cls _ | iface _, iface _ => true
        | _, _ => false)

end Ty

/-! A type may be unknown. Nothing is known of a value of unknown type but that it can be cast to any. -/

/-- Whether two types are the same, where an unknown type is like no other. -/
def identicalTypes (s : Store) : Option Ty → Option Ty → Bool
  | some a, some b => a.identical s b
  | none, none => true
  | _, _ => false

/-- Whether a value can be stored; nothing can if a type is unknown. -/
def assignableTypes (s : Store) : Option Ty → Option Ty → Bool
  | some a, some b => a.assignable s b
  | _, _ => false

/-- Whether a value can be cast. -/
def castableTypes (s : Store) : Option Ty → Option Ty → Bool
  | some a, some b => a.castable s b
  | some a, none => a.is .any
  | none, some b => b.is .any
  | none, none => false

/-- The name of a type; an unknown one is called void. -/
def typeNameOr (s : Store) (t : Option Ty) : String := (t.map (Ty.typeName s)).getD "void"

/-- Why an operator gives nothing. -/
inductive OperatorError where
  | unknown (op : String)
  | binary (op : String) (left right : String)
  | unary (op : String) (operand : String)
deriving DecidableEq, Repr

/-- The text of the problem. -/
def OperatorError.message : OperatorError → String
  | unknown op => "unknown operator '" ++ op ++ "'"
  | binary op l r => "operator '" ++ op ++ "' is not applicable to " ++ l ++ " and " ++ r
  | unary op x => "operator '" ++ op ++ "' is not applicable to " ++ x

/-- The type of a binary operation, if the operands allow it. -/
def BinaryOp.result? (s : Store) (op : BinaryOp) (l r : Ty) : Option Ty :=
  let arithmetic :=
    if l.isNumeric && r.isNumeric then some (if l.is .float || r.is .float then Ty.float else .int)
    else none
  match op with
  | add => if l.is .string && r.is .string then some .string else arithmetic
  | sub | mul | div => arithmetic
  | mod => if l.is .int && r.is .int then some .int else none
  | lt | le | gt | ge => if l.isNumeric && r.isNumeric then some .bool else none
  | eq | ne =>
    if l.assignable s r || r.assignable s l || (l.isEnum && r.is .int) || (r.isEnum && l.is .int) then
      some .bool
    else none
  | and | or => if l.is .bool && r.is .bool then some .bool else none

/-- The type of a binary operation, or why it gives nothing. -/
def BinaryOp.result (s : Store) (op : BinaryOp) (l r : Ty) : Except OperatorError Ty :=
  match op.result? s l r with
  | some t => .ok t
  | none => .error (.binary op.text (l.typeName s) (r.typeName s))

/-- The type of a unary operation, or why it gives nothing. -/
def UnaryOp.result (s : Store) (op : UnaryOp) (x : Ty) : Except OperatorError Ty :=
  match op with
  | neg => if x.isNumeric then .ok x else .error (.unary op.text (x.typeName s))
  | not => if x.is .bool then .ok x else .error (.unary op.text (x.typeName s))

/-- The type of an operation on operands whose types may be unknown, given the operator's text. -/
def binaryResult (s : Store) (op : String) (l r : Option Ty) : Except OperatorError Ty :=
  match BinaryOp.ofText? op with
  | none => .error (.unknown op)
  | some o =>
    match l, r with
    | some x, some y => o.result s x y
    | _, _ => .error (.binary op (typeNameOr s l) (typeNameOr s r))

/-- The type of an operation on an operand whose type may be unknown, given the operator's text. -/
def unaryResult (s : Store) (op : String) (x : Option Ty) : Except OperatorError Ty :=
  match UnaryOp.ofText? op with
  | none => .error (.unknown op)
  | some o =>
    match x with
    | some t => o.result s t
    | none => .error (.unary op (typeNameOr s x))

/-- Whether the signatures of two functions are the same; a function without one is like no other. -/
def sameSignature (s : Store) (a b : Option Signature) : Bool :=
  match a, b with
  | some x, some y => x.typeName s = y.typeName s
  | none, none => true
  | _, _ => false

/-- Why a class does not conform to an interface that it implements. -/
inductive ConformanceError where
  | missing (cls iface method : String)
  | different (cls iface method found expected : String)
deriving DecidableEq, Repr

/-- The text of the problem. -/
def ConformanceError.message : ConformanceError → String
  | missing c i m =>
    "class '" ++ c ++ "' doesn't implement interface '" ++ i ++ "' method '" ++ m ++ "'"
  | different c i m found expected =>
    "class '" ++ c ++ "' implements interface '" ++ i ++ "' method '" ++ m ++
      "' with a different signature: " ++ found ++ ", expected " ++ expected

/-- The name of the signature of a function. -/
def Func.signatureName (s : Store) (f : Func) : String := (f.sig.map (Signature.typeName s)).getD ""

/-- How a class fails the interfaces that it lists: every method asked for has to be there with the same
signature. -/
def Store.conformance (s : Store) (c : ClassId) : List ConformanceError :=
  let cls := s.cls c
  cls.implements.flatMap fun i =>
    (s.allMethods i).filterMap fun m =>
      let method := s.func m
      match s.classMember? c method.name with
      | some (.func f) =>
        let impl := s.func f
        if sameSignature s impl.sig method.sig then none
        else some (.different cls.typeName (s.iface i).typeName method.name (impl.signatureName s)
          (method.signatureName s))
      | _ => some (.missing cls.typeName (s.iface i).typeName method.name)

end Weft
