import Weft.Bytecode.Opcode
import Weft.Text.Glyph
import Weft.Text.Quoted

/-!
# Assembling instructions

Instructions are put into two streams, one for the initialisation of a module and one for its functions.
A jump is put in with a zero operand and a request for the distance to another instruction; when a stream
is resolved, its instructions get their positions, the requests are met, and the patches, which may ask for
positions, are applied. An instruction is named by its number in the order of making.
-/

namespace Weft.Bytecode

/-- Something that only a mistake of the compiler can cause. -/
inductive Violation where
  | operandCount (op : String) (expected got : Nat)
  | operandRange (op : String) (i : Nat) (v lo hi : Int)
  | noOperand (op : String) (i : Int)
  | emitResolved (op : String)
  | unknownOpcode (byte : UInt8)
  | offsetSource (instr : String)
  | offsetDestination (instr : String)
  | resolvedTwice
  | unresolvedBytes
  | unresolvedLines
  | unusedConstant (i : Int)
  | constantRange (i : Int)
  | releasedConstant (op : String) (i : Int)
  | missingType
  | outsideLoop
  | noInterface (name : String)
  | noBody (name : String)
deriving DecidableEq, Repr

/-- A byte as two upper case hexadecimal digits. -/
def upperHex (b : UInt8) : String := (Text.hexByte b).toUpper

/-- The text of a violation. -/
def Violation.message (v : Violation) : String :=
  "bytecode invariant violated: " ++ match v with
  | operandCount op n m => s!"{op} takes {n} operands, got {m}"
  | operandRange op i v lo hi => s!"{op} operand {i}: {v} is outside [{lo}, {hi}]"
  | noOperand op i => s!"{op} has no operand {i}"
  | emitResolved op => s!"emit {op} into a resolved stream"
  | unknownOpcode b => "unknown opcode 0x" ++ upperHex b
  | offsetSource x => s!"offset source {x} was never emitted"
  | offsetDestination x => s!"offset destination {x} was never emitted"
  | resolvedTwice => "stream resolved twice"
  | unresolvedBytes => "encoding an unresolved stream"
  | unresolvedLines => "line map of an unresolved stream"
  | unusedConstant i => s!"release of unused constant {i}"
  | constantRange i => s!"constant {i} out of range"
  | releasedConstant op i => s!"{op} refers to released constant {i}"
  | missingType => "missing type"
  | outsideLoop => "break or continue outside a loop"
  | noInterface name => s!"interface call of '{name}' without an interface"
  | noBody name => s!"function '{name}' without a body"

/-- The name of the opcode with a byte. -/
def Opcode.nameOfByte (b : UInt8) : String :=
  match ofByte? b with
  | some op => op.name
  | none => "UNKNOWN(0x" ++ upperHex b ++ ")"

/-- An opcode with its operands, the source line, and the position in the encoded stream. The position
is -1 until the stream is resolved. -/
structure Instruction where
  op : Opcode
  operands : List Int
  line : Int
  pos : Int
deriving DecidableEq, Repr, Inhabited

namespace Instruction

/-- The name of the opcode and the operands. -/
def text (i : Instruction) : String :=
  i.op.name ++ " [" ++ " ".intercalate (i.operands.map toString) ++ "]"

/-- An instruction as bytes. Marks are not encoded. -/
def encode (i : Instruction) : List UInt8 :=
  if i.op = .mark then []
  else i.op.byte :: (i.op.widths.zip i.operands).flatMap fun (w, v) => encodeOperand w v

/-- An instruction with another operand, which has to fit its width. -/
def setOperand (x : Instruction) (i : Int) (v : Int) : Except Violation Instruction :=
  match if i < 0 then none else x.op.widths[i.toNat]? with
  | none => .error (.noOperand x.op.name i)
  | some w =>
    if fits v w then .ok { x with operands := x.operands.set i.toNat v }
    else .error (.operandRange x.op.name i.toNat v (operandRange w).1 (operandRange w).2)

/-- An operand of an instruction. -/
def operand (x : Instruction) (i : Int) : Except Violation Int :=
  match if i < 0 then none else x.operands[i.toNat]? with
  | some v => .ok v
  | none => .error (.noOperand x.op.name i)

end Instruction

/-- A request to store the distance from one instruction to another in an operand of the first. -/
structure OffsetRequest where
  src : Nat
  dst : Nat
  operand : Int
deriving DecidableEq, Repr

/-- A patch that stores a value in an operand of an instruction. The value may depend on the positions of all instructions,
by number. -/
structure Patch where
  instr : Nat
  operand : Int
  value : (Nat → Int) → Int

/-- A patch that stores the position of an instruction in an operand of another. -/
def Patch.position (instr dst : Nat) (operand : Int) : Patch := ⟨instr, operand, (· dst)⟩

/-- A list of instructions, by number, with the requests and patches for its resolution. -/
structure Stream where
  order : Array Nat
  requests : Array OffsetRequest
  patches : Array Patch
  resolved : Bool
deriving Inhabited

/-- A stream without instructions. -/
def Stream.empty : Stream := ⟨#[], #[], #[], false⟩

/-- The two streams of a module. -/
inductive Section where
  | init | code
deriving DecidableEq, Repr, Inhabited

/-- Every instruction made, by number, and the two streams. -/
structure Assembly where
  instrs : Array Instruction
  init : Stream
  code : Stream
deriving Inhabited

/-- No instructions. -/
def Assembly.empty : Assembly := ⟨#[], .empty, .empty⟩

/-- A computation that assembles instructions. After a violation the state is as it was left. -/
abbrev Assemble := ExceptT Violation (StateM Assembly)

namespace Assembly

/-- A stream. -/
def stream (a : Assembly) : Section → Stream
  | .init => a.init
  | .code => a.code

/-- Change a stream. -/
def update (s : Section) (f : Stream → Stream) (a : Assembly) : Assembly :=
  match s with
  | .init => { a with init := f a.init }
  | .code => { a with code := f a.code }

/-- An instruction by number. -/
def instr (a : Assembly) (n : Nat) : Instruction := a.instrs[n]?.getD default

/-- The instructions of a stream. -/
def listing (a : Assembly) (s : Section) : List Instruction := (a.stream s).order.toList.map a.instr

/-- Whether an instruction was put into a stream. -/
def contains (a : Assembly) (s : Section) (n : Nat) : Bool := (a.stream s).order.contains n

/-- The last instruction of a stream that is no mark. -/
def last? (a : Assembly) (s : Section) : Option Instruction :=
  (a.listing s).reverse.find? fun i => i.op ≠ .mark

end Assembly

namespace Assemble

open Assembly

/-- Make an instruction that is in no stream. -/
def make (i : Instruction) : Assemble Nat :=
  modifyGet fun a => (a.instrs.size, { a with instrs := a.instrs.push i })

/-- An instruction whose operands are set one after the other. -/
def withOperands (i : Instruction) (vs : List Int) : Except Violation Instruction :=
  vs.zipIdx.foldlM (fun x (v, n) => x.setOperand n v) i

/-- Put an instruction at the end of a stream. -/
def emit (s : Section) (op : Opcode) (line : Int) (operands : List Int) : Assemble Nat := do
  if ((← get).stream s).resolved then throw (.emitResolved op.name)
  if operands.length ≠ op.widths.length then
    throw (.operandCount op.name op.widths.length operands.length)
  let i ← withOperands { op, operands := op.widths.map fun _ => 0, line, pos := -1 } operands
  let n ← make i
  modify (update s fun st => { st with order := st.order.push n })
  return n

/-- Put an instruction with the opcode of a byte at the end of a stream. -/
def emitByte (s : Section) (b : UInt8) (line : Int) (operands : List Int) : Assemble Nat := do
  match Opcode.ofByte? b with
  | some op => emit s op line operands
  | none =>
    if ((← get).stream s).resolved then throw (.emitResolved (Opcode.nameOfByte b))
    throw (.unknownOpcode b)

/-- Put a mark at the end of a stream. -/
def mark (s : Section) (line : Int) : Assemble Nat := emit s .mark line []

/-- Change an operand of an instruction. -/
def setOperand (n : Nat) (i : Int) (v : Int) : Assemble Unit := do
  let x ← ((← get).instr n).setOperand i v
  modify fun a => { a with instrs := a.instrs.setIfInBounds n x }

/-- An operand of an instruction. -/
def operand (n : Nat) (i : Int) : Assemble Int := do ((← get).instr n).operand i

/-- Change the opcode and the operands of an instruction. Requests and patches for it stay. -/
def replace (n : Nat) (op : Opcode) (operands : List Int) : Assemble Unit := do
  if operands.length ≠ op.widths.length then
    throw (.operandCount op.name op.widths.length operands.length)
  modify fun a =>
    { a with instrs := a.instrs.modify n fun x => { x with op, operands := op.widths.map fun _ => 0 } }
  operands.zipIdx.forM fun (v, i) => setOperand n i v

/-- Change the opcode of an instruction to that of a byte. -/
def replaceByte (n : Nat) (b : UInt8) (operands : List Int) : Assemble Unit := do
  match Opcode.ofByte? b with
  | some op => replace n op operands
  | none => throw (.operandCount (Opcode.nameOfByte b) 0 operands.length)

/-- The number of an instruction of a stream, or the text of one that is not in it. -/
def owned (s : Section) (n : Option Nat) : Assemble (Except String Nat) := do
  let a ← get
  match n with
  | none => return .error "<nil>"
  | some n => return if a.contains s n then .ok n else .error (a.instr n).text

/-- Ask for the distance between two instructions of a stream. -/
def requestOffset (s : Section) (src dst : Option Nat) (operand : Int) : Assemble Unit := do
  match ← owned s src with
  | .error x => throw (.offsetSource x)
  | .ok src =>
    match ← owned s dst with
    | .error x => throw (.offsetDestination x)
    | .ok dst =>
      let _ ← ((← get).instr src).operand operand
      modify (update s fun st => { st with requests := st.requests.push { src, dst, operand } })

/-- Ask for the distance between two instructions of a stream. -/
def offset (s : Section) (src dst : Nat) (operand : Int) : Assemble Unit :=
  requestOffset s (some src) (some dst) operand

/-- Ask for a patch when a stream is resolved. -/
def onResolve (s : Section) (p : Patch) : Assemble Unit :=
  modify (update s fun st => { st with patches := st.patches.push p })

/-- Ask for the position of an instruction when a stream is resolved. -/
def patch (s : Section) (instr dst : Nat) (operand : Int) : Assemble Unit := onResolve s (.position instr dst operand)

/-- Give instructions their positions, one after the other. -/
def place : Int → List Nat → Assemble Unit
  | _, [] => return
  | pos, n :: rest => do
    let size := ((← get).instr n).op.size
    modify fun a => { a with instrs := a.instrs.modify n ({ · with pos }) }
    place (pos + size) rest

/-- Lay out a stream, meet its requests and apply its patches. -/
def resolve (s : Section) : Assemble Unit := do
  let st := (← get).stream s
  if st.resolved then throw .resolvedTwice
  modify (update s ({ · with resolved := true }))
  place 0 st.order.toList
  st.requests.forM fun r => do
    let a ← get
    setOperand r.src r.operand ((a.instr r.dst).pos - (a.instr r.src).pos)
  st.patches.forM fun p => do
    let a ← get
    setOperand p.instr p.operand (p.value fun n => (a.instr n).pos)

/-- The bytes of a resolved stream. -/
def bytes (s : Section) : Assemble (List UInt8) := do
  let a ← get
  if !(a.stream s).resolved then throw .unresolvedBytes
  return (a.listing s).flatMap Instruction.encode

end Assemble

/-- The source line of the instruction at a position, and of those after it up to the next entry. -/
structure LinePos where
  pos : Int
  line : Int
deriving DecidableEq, Repr, Inhabited

/-- The lines of instructions: an entry wherever the line changes. Marks do not count. -/
def lineMap (last : Int) : List Instruction → List LinePos
  | [] => []
  | i :: rest =>
    if i.op = .mark ∨ i.line = last then lineMap last rest
    else ⟨i.pos, i.line⟩ :: lineMap i.line rest

/-- The lines of a resolved stream. -/
def Assemble.lines (s : Section) : Assemble (List LinePos) := do
  let a ← get
  if !(a.stream s).resolved then throw .unresolvedLines
  return lineMap (-1) (a.listing s)

/-- The source line of a position, or zero before the first entry. -/
def lineAt (lines : List LinePos) (pos : Int) : Int :=
  ((lines.takeWhile fun l => l.pos ≤ pos).getLast?.map LinePos.line).getD 0

end Weft.Bytecode
