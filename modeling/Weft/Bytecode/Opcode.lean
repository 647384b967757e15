import Weft.Number.Word

/-!
# Opcodes

The instructions of the stack machine. Every opcode has a byte, a name, the widths of its operands in
bytes, and at most one operand that is an index into the constant pool.
-/

namespace Weft.Bytecode

/-- The opcodes. `mark` is a place in the code and is never encoded. -/
inductive Opcode where
  | mark | pop | constant | add | sub | mul | div | mod
  | lt | le | gt | ge | eq | ne | not | neg
  | getVar | setVar | declVar | argVar | argRef | refVar | getGlobal | setGlobal
  | getImported | setImported | getField | setField | initField | arrayGet | arraySet | mapGet
  | mapSet | arrayAdd | mapAdd | new | typeCast | typeAs | typeIs | call
  | callNative | getFunc | getFuncNative | callMethod | callMember | callVirtual | callInterface | callPtr
  | lambda | useUpval | initFrame | ret | returnVal | defArg | jump | jumpZ
  | jumpPeekZ | jumpPeekNZ | brk | cont | block | yield | importing
deriving DecidableEq, Repr, Inhabited

/-- What is fixed about an opcode. -/
structure OpcodeInfo where
  byte : UInt8
  name : String
  widths : List Nat
  pool : Option Nat
deriving DecidableEq, Repr

namespace Opcode

/-- Every opcode, in the order of their bytes. -/
def all : List Opcode :=
  [mark, pop, constant, add, sub, mul, div, mod, lt, le, gt, ge, eq, ne, not, neg, getVar,
   setVar, declVar, argVar, argRef, refVar, getGlobal, setGlobal, getImported, setImported,
   getField, setField, initField, arrayGet, arraySet, mapGet, mapSet, arrayAdd, mapAdd, new,
   typeCast, typeAs, typeIs, call, callNative, getFunc, getFuncNative, callMethod, callMember,
   callVirtual, callInterface, callPtr, lambda, useUpval, initFrame, ret, returnVal, defArg,
   jump, jumpZ, jumpPeekZ, jumpPeekNZ, brk, cont, block, yield, importing]

/-- The catalog of opcodes. -/
def info : Opcode → OpcodeInfo
  | mark => ⟨0x00, "MARK", [], none⟩
  | pop => ⟨0x01, "POP", [], none⟩
  | constant => ⟨0x02, "CONSTANT", [3], some 0⟩
  | add => ⟨0x10, "ADD", [], none⟩
  | sub => ⟨0x11, "SUB", [], none⟩
  | mul => ⟨0x12, "MUL", [], none⟩
  | div => ⟨0x13, "DIV", [], none⟩
  | mod => ⟨0x14, "MOD", [], none⟩
  | lt => ⟨0x15, "LT", [], none⟩
  | le => ⟨0x16, "LE", [], none⟩
  | gt => ⟨0x17, "GT", [], none⟩
  | ge => ⟨0x18, "GE", [], none⟩
  | eq => ⟨0x19, "EQ", [], none⟩
  | ne => ⟨0x1A, "NE", [], none⟩
  | not => ⟨0x1B, "NOT", [], none⟩
  | neg => ⟨0x1C, "UNARY_NEG", [], none⟩
  | getVar => ⟨0x20, "GET_VAR", [1], none⟩
  | setVar => ⟨0x21, "SET_VAR", [1], none⟩
  | declVar => ⟨0x22, "DECL_VAR", [1, 2], some 1⟩
  | argVar => ⟨0x23, "ARG_VAR", [1], none⟩
  | argRef => ⟨0x24, "ARG_REF", [1], none⟩
  | refVar => ⟨0x25, "REF_VAR", [1], none⟩
  | getGlobal => ⟨0x30, "GET_GVAR", [3], none⟩
  | setGlobal => ⟨0x31, "SET_GVAR", [3], none⟩
  | getImported => ⟨0x32, "GET_GVAR_IMPORTED", [2, 3], some 0⟩
  | setImported => ⟨0x33, "SET_GVAR_IMPORTED", [2, 3], some 0⟩
  | getField => ⟨0x40, "GET_ATTR", [2], none⟩
  | setField => ⟨0x41, "SET_ATTR", [2], none⟩
  | initField => ⟨0x42, "SET_ATTR_INPLACE", [2], none⟩
  | arrayGet => ⟨0x43, "ARR_IDX", [], none⟩
  | arraySet => ⟨0x44, "ARR_IDX_W", [], none⟩
  | mapGet => ⟨0x45, "MAP_IDX", [], none⟩
  | mapSet => ⟨0x46, "MAP_IDX_W", [], none⟩
  | arrayAdd => ⟨0x47, "ARR_ADD_INPLACE", [], none⟩
  | mapAdd => ⟨0x48, "MAP_ADD_INPLACE", [], none⟩
  | new => ⟨0x50, "NEW", [3], some 0⟩
  | typeCast => ⟨0x51, "TYPE_CAST", [3], some 0⟩
  | typeAs => ⟨0x52, "TYPE_AS", [3], some 0⟩
  | typeIs => ⟨0x53, "TYPE_IS", [3], some 0⟩
  | call => ⟨0x60, "CALL", [3, 4], none⟩
  | callNative => ⟨0x61, "CALL_NATIVE", [3, 4], none⟩
  | getFunc => ⟨0x62, "GET_FUNC", [3], some 0⟩
  | getFuncNative => ⟨0x63, "GET_FUNC_NATIVE", [3], none⟩
  | callMethod => ⟨0x64, "CALL_METHOD", [2, 4], some 0⟩
  | callMember => ⟨0x65, "CALL_METHOD_NATIVE", [2, 4], none⟩
  | callVirtual => ⟨0x66, "CALL_METHOD_VIRT", [2, 4], none⟩
  | callInterface => ⟨0x67, "CALL_METHOD_IFACE", [2, 3, 4], some 1⟩
  | callPtr => ⟨0x68, "CALL_PTR", [4], none⟩
  | lambda => ⟨0x69, "LAMBDA", [2], none⟩
  | useUpval => ⟨0x6A, "USE_UPVAL", [1, 1, 1], none⟩
  | initFrame => ⟨0x6B, "INIT_FRAME", [1], none⟩
  | ret => ⟨0x6C, "RETURN", [], none⟩
  | returnVal => ⟨0x6D, "RETURN_VAL", [1], none⟩
  | defArg => ⟨0x6E, "DEF_ARG", [1, 2], none⟩
  | jump => ⟨0x70, "JUMP", [2], none⟩
  | jumpZ => ⟨0x71, "JUMP_Z", [2], none⟩
  | jumpPeekZ => ⟨0x72, "JUMP_PEEK_Z", [2], none⟩
  | jumpPeekNZ => ⟨0x73, "JUMP_PEEK_NZ", [2], none⟩
  | brk => ⟨0x74, "BREAK", [2], none⟩
  | cont => ⟨0x75, "CONTINUE", [2], none⟩
  | block => ⟨0x76, "BLOCK", [1, 2], none⟩
  | yield => ⟨0x77, "YIELD", [], none⟩
  | importing => ⟨0xF0, "IMPORT", [3], some 0⟩

/-- The byte of an opcode. -/
def byte (op : Opcode) : UInt8 := op.info.byte

/-- The name of an opcode. -/
def name (op : Opcode) : String := op.info.name

/-- The widths of the operands of an opcode. -/
def widths (op : Opcode) : List Nat := op.info.widths

/-- The operand of an opcode that is an index into the constant pool. -/
def pool (op : Opcode) : Option Nat := op.info.pool

/-- The opcode with a byte. -/
def ofByte? (b : UInt8) : Option Opcode := all.find? fun op => op.byte = b

/-- The length of all operands of an instruction. -/
def operandsSize (op : Opcode) : Nat := op.widths.foldr (fun w n => w + n) 0

/-- The length of an instruction with its operands, if it is encoded. -/
def fullSize (op : Opcode) : Nat := 1 + op.operandsSize

/-- The length of an encoded instruction. Marks take no space. -/
def size (op : Opcode) : Nat := if op = mark then 0 else op.fullSize

/-- Whether the first operand is an offset in the code. -/
def isJump : Opcode → Bool
  | jump | jumpZ | jumpPeekZ | jumpPeekNZ | brk | cont | lambda => true
  | _ => false

/-- Whether an opcode leaves its frame. -/
def isReturn : Opcode → Bool
  | ret | returnVal => true
  | _ => false

/-- Whether an opcode invokes a function. -/
def isCall : Opcode → Bool
  | call | callNative | callMethod | callMember | callVirtual | callInterface | callPtr => true
  | _ => false

/-- The operand of an opcode that is an offset to another place in the code. -/
def offsetOperand? (op : Opcode) : Option Nat :=
  if op.isJump then some 0
  else match op with
    | defArg | block => some 1
    | _ => none

end Opcode

/-! ## Operands -/

/-- The least and the greatest operand of a width in bytes. Only widths up to eight bytes hold any. -/
def operandRange (width : Nat) : Int × Int :=
  if width = 0 ∨ 8 < width then (0, -1)
  else
    let limit : Int := Number.pow2 (8 * width - 1)
    (-limit, limit - 1)

/-- Whether an operand can be encoded in a number of bytes. -/
def fits (v : Int) (width : Nat) : Bool := (operandRange width).1 ≤ v && v ≤ (operandRange width).2

/-- An operand in two's complement, lowest byte first. -/
def encodeOperand (width : Nat) (v : Int) : List UInt8 :=
  Number.lowBytes width (v % Number.pow2 (8 * width)).toNat

/-- The operand in a list of bytes. -/
def decodeOperand (bs : List UInt8) : Int :=
  let n := Number.ofLowBytes bs
  if 2 * n < Number.pow2 (8 * bs.length) then n else (n : Int) - Number.pow2 (8 * bs.length)

end Weft.Bytecode
