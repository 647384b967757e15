import Weft.Bytecode.Module

/-!
# Reading code back

Encoded code is split into instructions again, and a whole module is listed as text.
-/

namespace Weft.Bytecode

/-- An instruction with its position. -/
structure Decoded where
  pos : Nat
  op : Opcode
  operands : List Int
deriving DecidableEq, Repr

/-- Why code cannot be split into instructions. -/
inductive DecodeError where
  | unknown (byte : UInt8) (pos : Nat)
  | truncated (op : Opcode) (pos : Nat)
deriving DecidableEq, Repr

/-- The text of the problem. -/
def DecodeError.message : DecodeError → String
  | unknown b pos => "bytecode: unknown opcode 0x" ++ upperHex b ++ s!" at {pos}"
  | truncated op pos => "bytecode: truncated instruction: " ++ op.name ++ s!" at {pos}"

/-- Where a jump, the skip of a lambda or the size of a block leads. -/
def Decoded.target? (d : Decoded) : Option Int :=
  d.op.offsetOperand?.bind fun i => d.operands[i]?.map fun v => d.pos + v

/-- The operands of some widths at the start of a list of bytes. -/
def splitOperands : List Nat → Bytes → List Int
  | [], _ => []
  | w :: ws, bs => decodeOperand (bs.take w) :: splitOperands ws (bs.drop w)

/-- The instructions of encoded code from a position on, up to the first problem. -/
def decodeFrom (pos : Nat) : Bytes → List Decoded × Option DecodeError
  | [] => ([], none)
  | b :: bs =>
    match Opcode.ofByte? b with
    | none | some .mark => ([], some (.unknown b pos))
    | some op =>
      let size := op.operandsSize
      if bs.length < size then ([], some (.truncated op pos))
      else
        let (rest, problem) := decodeFrom (pos + 1 + size) (bs.drop size)
        ({ pos, op, operands := splitOperands op.widths bs } :: rest, problem)
termination_by bs => bs.length
decreasing_by
  rw [List.length_drop, List.length_cons]
  omega

/-- The instructions of encoded code, up to the first problem. -/
def decode (code : Bytes) : List Decoded × Option DecodeError := decodeFrom 0 code

/-! ## Listings -/

/-- A number with at least a number of upper case hexadecimal digits; a sign counts as a digit. -/
def upperHexInt (width : Nat) (v : Int) : String :=
  let ds := (Nat.toDigits 16 v.natAbs).map Char.toUpper
  let width := if v < 0 then width - 1 else width
  (if v < 0 then "-" else "") ++ String.ofList (List.replicate (width - ds.length) '0' ++ ds)

/-- A text filled up with blanks to a number of characters. -/
def padRight (width : Nat) (s : String) : String :=
  s ++ String.ofList (List.replicate (width - s.length) ' ')

/-- A number with blanks before it up to a number of characters. -/
def padLeft (width : Nat) (s : String) : String :=
  String.ofList (List.replicate (width - s.length) ' ') ++ s

/-- A text cut to forty bytes. A character may be cut apart. -/
def shorten (s : String) : Bytes :=
  let b := Text.encode s
  if 40 < b.length then b.take 37 ++ Text.encode "..." else b

/-- An instruction with where it leads and the constant it uses. -/
def Decoded.text (constants : List Constant) (d : Decoded) : String :=
  let operands := String.join (d.operands.map fun v => s!" {v}")
  let target := match d.target? with
    | some t => " -> " ++ upperHexInt 4 t
    | none => ""
  let constant := match d.op.pool.bind fun p => d.operands[p]? with
    | some i => if i < 0 then "" else
      match constants[i.toNat]? with
      | some c => " ; " ++ c.text
      | none => ""
    | none => ""
  d.op.name ++ operands ++ target ++ constant

/-- The lines of a list of instructions. A source line is named where it changes. -/
def codeLines (constants : List Constant) (lines : List LinePos) (labels : List FuncPos) (last : Int) :
    List Decoded → List String
  | [] => []
  | d :: rest =>
    let label := match labels.reverse.find? fun f => f.pos = (d.pos : Int) with
      | some f => [f.name ++ ":"]
      | none => []
    let line := lineAt lines d.pos
    let start := upperHexInt 4 d.pos ++ "  "
    let text := d.text constants
    let shown :=
      if line ≠ last then start ++ padRight 40 text ++ s!" ; line {line}" else start ++ text
    label ++ [shown] ++ codeLines constants lines labels line rest

/-- The listing of encoded code. -/
def codeListing (m : Compiled) (code : Bytes) (lines : List LinePos) (labels : List FuncPos) :
    List String :=
  let (ds, problem) := decode code
  codeLines m.constants lines labels 0 ds ++
    problem.toList.map fun e => "; error: " ++ e.message

/-- The listing of the constants of a module. -/
def constantListing (cs : List Constant) : List Bytes :=
  cs.zipIdx.map fun (c, i) => Text.encode (";   [" ++ padLeft 3 (toString i) ++ "] ") ++ shorten c.text

/-- The listing of a module. Every line ends in a line break. -/
def Compiled.listing (m : Compiled) : Bytes :=
  let text := fun (ls : List String) => ls.map Text.encode
  let lines := text ["; === " ++ m.name ++ " ===", s!"; Loom Bytecode v{m.version}"]
    ++ (if m.imports.isEmpty then [] else text ["; Imports: " ++ ", ".intercalate m.imports])
    ++ text [""]
    ++ (if m.constants.isEmpty then []
        else text ["; Constants:"] ++ constantListing m.constants ++ text [""])
    ++ text ["; Init:"] ++ text (codeListing m m.init m.initLines [])
    ++ text ["", "; Code:"] ++ text (codeListing m m.code m.lines m.funcs)
  lines.flatMap fun l => l ++ [10]

end Weft.Bytecode
