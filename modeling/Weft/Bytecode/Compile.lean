import Weft.Bytecode.Module
import Weft.Typed

/-!
# Compiling modules

A typed program becomes two streams of instructions. Conditions, loops and the operators that may skip
their second operand become jumps; blocks get a header with their kind and size, which a plain sequence
keeps only next to parallel or deferred blocks. Calls of functions of the same module are made direct at
the end.
-/

namespace Weft.Bytecode

open Typed (Expr Chain Call Append Lambda Frame VarDecl Stmt Block Arm)

mutual

/-- Whether a statement holds a parallel block. Lambdas run elsewhere and do not count. -/
def hasParallel : Stmt → Bool
  | .block b => blockHasParallel b
  | _ => false

/-- Whether a block is or holds a parallel block. -/
def blockHasParallel : Block → Bool
  | .group _ k ss => k.isParallel || someParallel ss
  | .cond _ arms none => armsHaveParallel arms
  | .cond _ arms (some b) => armsHaveParallel arms || blockHasParallel b
  | .whileLoop _ _ b none => blockHasParallel b
  | .whileLoop _ _ b (some post) => blockHasParallel b || blockHasParallel post
  | .doLoop _ b _ => blockHasParallel b

/-- Whether one of a list of statements holds a parallel block. -/
def someParallel : List Stmt → Bool
  | [] => false
  | s :: ss => hasParallel s || someParallel ss

/-- Whether one of the branches of a condition holds a parallel block. -/
def armsHaveParallel : List Arm → Bool
  | [] => false
  | ⟨_, b⟩ :: arms => blockHasParallel b || armsHaveParallel arms

end

/-- Whether a statement is a deferred block. -/
def isDefer : Stmt → Bool
  | .block (.group _ .defer _) => true
  | _ => false

/-- Whether a statement can stand in a parallel block as it is. -/
def isSeqOrDefer : Stmt → Bool
  | .block (.group _ .seq _) | .block (.group _ .defer _) => true
  | _ => false

/-- The jumps that wait for the ends of a loop. -/
structure Loop where
  breaks : List Nat
  continues : List Nat

/-- A call of a function of the module: the instructions that push the function and call it, and the
constant that names it. -/
structure DirectCall where
  part : Section
  get : Nat
  call : Nat
  func : FuncId
  constant : Nat

/-- What is known while a module is compiled: the instructions, the constants, the loops around the
current place, innermost first, where the functions start, and the calls of functions of the module. -/
structure Lowering where
  asm : Assembly
  pool : Pool
  loops : List Loop
  entries : List (FuncId × Nat)
  direct : List DirectCall

/-- Where a function starts. If it was compiled more than once, the last time counts. -/
def Lowering.startOf? (l : Lowering) (f : FuncId) : Option Nat := l.entries.reverse.lookup f

/-- A computation that compiles a part of a module. -/
abbrev Lower := ReaderT (Store × Module) (ExceptT Violation (StateM Lowering))

namespace Lower

/-- Run a computation on the instructions. -/
def assemble {α : Type} (m : Assemble α) : Lower α := do
  let (r, asm) := m (← getThe Lowering).asm
  modifyThe Lowering ({ · with asm })
  match r with
  | .ok a => return a
  | .error e => throw e

/-- Put an instruction at the end of a stream. -/
def emit (s : Section) (op : Opcode) (line : Nat) (operands : List Int) : Lower Nat :=
  assemble (Assemble.emit s op line operands)

/-- Put an instruction at the end of a stream that nothing refers to. -/
def put (s : Section) (op : Opcode) (line : Nat) (operands : List Int) : Lower PUnit := do
  let _ ← emit s op line operands

/-- Put a mark at the end of a stream. -/
def mark (s : Section) (line : Nat) : Lower Nat := assemble (Assemble.mark s line)

/-- Ask for the distance between two instructions. -/
def offset (s : Section) (src dst : Nat) (operand : Int) : Lower PUnit :=
  assemble (Assemble.offset s src dst operand)

/-- The symbols. -/
def store : Lower Store := return (← read).1

/-- The name of the module. -/
def moduleName : Lower String := return (← read).2.name

/-- The position of a constant, as an operand. -/
def constant (c : Constant) : Lower Int := do
  let (i, pool) := (← getThe Lowering).pool.add c
  modifyThe Lowering ({ · with pool })
  return i

/-- The module that declares a type. -/
def typeModule (s : Store) : Ty → String
  | .cls c => (s.cls c).module
  | .iface i => (s.iface i).module
  | .enumeration e => (s.enumeration e).module
  | _ => ""

/-- The position of a type among the constants. -/
def typeConstant (t : Option Ty) : Lower Int := do
  match t with
  | none => throw .missingType
  | some t =>
    let s ← store
    constant (.type (typeModule s t) (t.typeName s))

/-- The position of a function among the constants. -/
def funcConstant (f : Func) : Lower Int := constant (.func f.module f.fullName)

/-- The constant of a literal. -/
def literal : Typed.Literal → Constant
  | .int v => .ofInt v
  | .float v => .ofFloat v
  | .string v => .ofString v
  | .bool v => .ofBool v
  | .null => .null

/-- The opcode of a binary operator that evaluates both operands. -/
def binaryOpcode : BinaryOp → Opcode
  | .add => .add
  | .sub => .sub
  | .mul => .mul
  | .div => .div
  | .mod => .mod
  | .lt => .lt
  | .le => .le
  | .gt => .gt
  | .ge => .ge
  | .eq => .eq
  | .ne => .ne
  | .and => .jumpPeekZ
  | .or => .jumpPeekNZ

/-- The opcode of a cast. -/
def castOpcode : Typed.CastKind → Opcode
  | .explicit => .typeCast
  | .asType => .typeAs
  | .isType => .typeIs

/-- The number of the kind of a block. -/
def kindNumber : Typed.Grouping → Int
  | .seq => 0
  | .paral => 5
  | .paralAll => 6
  | .defer => 7

/-! ## Accesses -/

/-- Read or write a global variable, which another module may declare. -/
def global (s : Section) (line : Nat) (g : GlobalId) (own imported : Opcode) : Lower PUnit := do
  let x := (← store).global g
  if x.module = "" ∨ x.module = (← moduleName) then put s own line [x.index]
  else put s imported line [← constant (.ofModule x.module), x.index]

/-- Call a function. Its arguments are pushed by `args` after the function itself. -/
def callFunc (s : Section) (line : Nat) (f : FuncId) (bits : Int) (args : Lower PUnit) :
    Lower PUnit := do
  let x := (← store).func f
  if x.native then
    args
    put s .callNative line [x.index, bits]
  else
    let i ← funcConstant x
    let get ← emit s .getFunc line [i]
    args
    let call ← emit s .callPtr line [bits]
    if x.module = (← moduleName) then
      let d : DirectCall := { part := s, get, call, func := f, constant := i.toNat }
      modifyThe Lowering fun l => { l with direct := l.direct ++ [d] }

/-- Perform an access. Its arguments, indexes and stored values are pushed by `children`. -/
def access (s : Section) (line : Nat) (a : Typed.Access) (bits : Int) (children : Lower PUnit) :
    Lower PUnit := do
  let st ← store
  match a with
  | .readVar v => put s .getVar line [v.slot]
  | .writeVar v =>
    children
    put s .setVar line [v.slot]
  | .varRef v => put s .refVar line [v.slot]
  | .readGlobal g => global s line g .getGlobal .getImported
  | .writeGlobal g =>
    children
    global s line g .setGlobal .setImported
  | .readField f =>
    let x := st.field f
    if x.native then put s .callMember line [x.index, 0] else put s .getField line [x.index]
  | .readNative slot => put s .callMember line [slot, 0]
  | .writeField f =>
    children
    put s .setField line [(st.field f).index]
  | .initField f =>
    children
    put s .initField line [(st.field f).index]
  | .func f => callFunc s line f bits children
  | .funcRef f =>
    let x := st.func f
    if x.native then put s .getFuncNative line [x.index]
    else put s .getFunc line [← funcConstant x]
  | .method f =>
    children
    let x := st.func f
    if x.native then put s .callMember line [x.index, bits]
    else put s .callMethod line [← funcConstant x, bits]
  | .methodNative slot =>
    children
    put s .callMember line [slot, bits]
  | .methodVirtual f =>
    children
    put s .callVirtual line [(st.func f).index, bits]
  | .methodIface f =>
    children
    let x := st.func f
    match x.owner with
    | some (.iface i) => put s .callInterface line [x.index, ← typeConstant (some (.iface i)), bits]
    | _ => throw (.noInterface x.name)
  | .funcPtr =>
    children
    put s .callPtr line [bits]
  | .arrayGet =>
    children
    put s .arrayGet line []
  | .arraySet =>
    children
    put s .arraySet line []
  | .mapGet =>
    children
    put s .mapGet line []
  | .mapSet =>
    children
    put s .mapSet line []

/-! ## Frames -/

/-- The line of the last statement of a body. -/
def lastLine (f : Frame) : Nat := ((f.body.getLast?).map Stmt.line).getD f.line

/-- Compile a body with no loops around it, and make sure that control never runs past its end. -/
def closed (s : Section) (line : Nat) (m : Lower PUnit) : Lower PUnit := do
  let loops := (← getThe Lowering).loops
  modifyThe Lowering ({ · with loops := [] })
  m
  modifyThe Lowering ({ · with loops })
  let asm := (← getThe Lowering).asm
  match (asm.stream s).order.back? with
  | some n => if (asm.instr n).op.isReturn then return
  | none => pure ()
  put s .ret line []

/-- The position of the first parameter with a default value. -/
def firstDefault (ps : List VarDecl) : Nat := (ps.findIdx? (·.init.isSome)).getD ps.length

/-- Wait for the ends of a loop. -/
def inLoop (m : Lower PUnit) : Lower PUnit := do
  modifyThe Lowering fun l => { l with loops := ⟨[], []⟩ :: l.loops }
  m

/-- Add a jump to those that wait for an end of the innermost loop. -/
def waitLoop (f : Loop → Loop) : Lower PUnit := do
  match (← getThe Lowering).loops with
  | [] => throw .outsideLoop
  | l :: rest => modifyThe Lowering ({ · with loops := f l :: rest })

/-- Leave the innermost loop, and let its jumps lead to its ends. -/
def leaveLoop (s : Section) (exit next : Nat) : Lower PUnit := do
  match (← getThe Lowering).loops with
  | [] => return
  | l :: rest =>
    modifyThe Lowering ({ · with loops := rest })
    l.breaks.forM fun b => offset s b exit 0
    l.continues.forM fun c => offset s c next 0

mutual

/-- Compile an expression. -/
def expr (s : Section) : Expr → Lower PUnit
  | .literal line v _ => do put s .constant line [← constant (literal v)]
  | .unary line op _ x => do
    expr s x
    put s (match op with | .neg => .neg | .not => .not) line []
  | .binary line op _ x y => do
    expr s x
    match op with
    | .and | .or =>
      let j ← emit s (binaryOpcode op) line [0]
      expr s y
      offset s j (← mark s line) 0
    | op =>
      expr s y
      put s (binaryOpcode op) line []
  | .chain ⟨_, _, _, links⟩ => exprs s links
  | .call c => call s c
  | .cast line kind t x => do
    expr s x
    put s (castOpcode kind) line [← typeConstant t]
  | .new line t inits => do
    put s .new line [← typeConstant t]
    calls s inits
  | .collection line t items => do
    put s .new line [← typeConstant (some t)]
    appends s items
  | .lambda fn => lambda s fn

/-- Compile expressions one after the other. -/
def exprs (s : Section) : List Expr → Lower PUnit
  | [] => return
  | x :: xs => do
    expr s x
    exprs s xs

/-- Compile an access. -/
def call (s : Section) : Call → Lower PUnit
  | ⟨line, a, _, _, args, _, children⟩ => access s line a args.operand (exprs s children)

/-- Compile accesses one after the other. -/
def calls (s : Section) : List Call → Lower PUnit
  | [] => return
  | c :: cs => do
    call s c
    calls s cs

/-- Compile the elements and entries of a collection. -/
def appends (s : Section) : List Append → Lower PUnit
  | [] => return
  | .element line x :: rest => do
    expr s x
    put s .arrayAdd line []
    appends s rest
  | .entry line k v :: rest => do
    expr s k
    expr s v
    put s .mapAdd line []
    appends s rest

/-- Compile a lambda: its body, which is skipped, and what it captures. -/
def lambda (s : Section) : Lambda → Lower PUnit
  | ⟨line, _, upvals, ⟨slots, ps, bodyLine, body⟩⟩ => do
    let head ← emit s .lambda line [0]
    put s .initFrame line [slots]
    params s (firstDefault ps) 0 ps
    closed s (lastLine ⟨slots, ps, bodyLine, body⟩) (stmts s false body)
    offset s head (← mark s line) 0
    upvals.forM fun u => put s .useUpval line [u.src, u.dst, if u.copied then 0 else 1]

/-- Take arguments from the stack, the last parameter first. A default value is computed only if the
caller has not passed it. -/
def params (s : Section) (first i : Nat) : List VarDecl → Lower PUnit
  | [] => return
  | ⟨line, v, none⟩ :: rest => do
    params s first (i + 1) rest
    put s (if v.ref then .argRef else .argVar) line [v.slot]
  | ⟨line, v, some x⟩ :: rest => do
    params s first (i + 1) rest
    let d ← emit s .defArg line [(i : Int) - first, 0]
    expr s x
    offset s d (← mark s line) 1
    put s (if v.ref then .argRef else .argVar) line [v.slot]

/-- Compile a statement. `under` says that a parallel block is around it. -/
def stmt (s : Section) (under : Bool) : Stmt → Lower PUnit
  | .expr x => expr s x
  | .discard line n x => do
    expr s x
    (List.replicate n ()).forM fun _ => put s .pop line []
  | .var ⟨line, v, none⟩ => do put s .declVar line [v.slot, ← typeConstant v.type]
  | .var ⟨line, v, some x⟩ => do
    expr s x
    put s .setVar line [v.slot]
  | .ret line n values => do
    exprs s values
    if n = 0 then put s .ret line [] else put s .returnVal line [n]
  | .brk line => do
    waitLoop id
    let j ← emit s .brk line [0]
    waitLoop fun l => { l with breaks := l.breaks ++ [j] }
  | .cont line => do
    waitLoop id
    let j ← emit s .cont line [0]
    waitLoop fun l => { l with continues := l.continues ++ [j] }
  | .yield line => put s .yield line []
  | .block b => block s under b

/-- Compile statements one after the other. -/
def stmts (s : Section) (under : Bool) : List Stmt → Lower PUnit
  | [] => return
  | x :: xs => do
    stmt s under x
    stmts s under xs

/-- Compile the statements of a parallel block. Each is a block of its own. -/
def branches (s : Section) : List Stmt → Lower PUnit
  | [] => return
  | x :: xs => do
    if isSeqOrDefer x then stmt s true x
    else
      let head ← emit s .block x.line [0, 0]
      stmt s true x
      offset s head (← mark s x.line) 1
    branches s xs

/-- Compile a block. -/
def block (s : Section) (under : Bool) : Block → Lower PUnit
  | .group line kind ss => do
    let head ← emit s .block line [kindNumber kind, 0]
    if kind.isParallel then branches s ss else stmts s under ss
    let stop ← mark s line
    if kind ≠ .seq || under || someParallel ss || ss.any isDefer then offset s head stop 1
    else assemble (Assemble.replace head .mark [])
  | .cond line as none => do
    let exits ← arms s under line false as
    let stop ← mark s line
    exits.forM fun j => offset s j stop 0
  | .cond line as (some b) => do
    let exits ← arms s under line true as
    block s under b
    let stop ← mark s line
    exits.forM fun j => offset s j stop 0
  | .whileLoop line test body none => do
    let top ← mark s line
    expr s test
    let jz ← emit s .jumpZ line [0]
    inLoop (block s under body)
    let next ← mark s line
    let back ← emit s .jump line [0]
    offset s back top 0
    let exit ← mark s line
    offset s jz exit 0
    leaveLoop s exit next
  | .whileLoop line test body (some post) => do
    let top ← mark s line
    expr s test
    let jz ← emit s .jumpZ line [0]
    inLoop (block s under body)
    let next ← mark s line
    block s under post
    let back ← emit s .jump line [0]
    offset s back top 0
    let exit ← mark s line
    offset s jz exit 0
    leaveLoop s exit next
  | .doLoop line body test => do
    let top ← mark s line
    inLoop (block s under body)
    let next ← mark s line
    expr s test
    let jz ← emit s .jumpZ line [0]
    let back ← emit s .jump line [0]
    offset s back top 0
    let exit ← mark s line
    offset s jz exit 0
    leaveLoop s exit next

/-- Compile the branches of a condition, and give the jumps that wait for its end. `more` says that
another body follows the last of them. -/
def arms (s : Section) (under : Bool) (line : Nat) (more : Bool) : List Arm → Lower (List Nat)
  | [] => return []
  | ⟨test, body⟩ :: rest => do
    expr s test
    let jz ← emit s .jumpZ test.line [0]
    block s under body
    let exits ← if more || !rest.isEmpty then do pure [← emit s .jump body.line [0]] else pure []
    offset s jz (← mark s line) 0
    return exits ++ (← arms s under line more rest)

end

/-! ## Declarations -/

/-- Compile a function or method. A method takes `this` after its parameters. -/
def func (d : Typed.FuncDecl) : Lower PUnit := do
  let f := (← store).func d.symbol
  match d.frame with
  | none => throw (.noBody f.fullName)
  | some frame =>
    let entry ← emit .code .initFrame d.line [frame.slots]
    modifyThe Lowering fun l => { l with entries := l.entries ++ [(d.symbol, entry)] }
    params .code (firstDefault frame.params) 0 frame.params
    if f.owner.isSome then put .code .argVar d.line [0]
    closed .code (lastLine frame) (stmts .code false frame.body)

/-- Compile a declaration. -/
def decl : Typed.Decl → Lower PUnit
  | .importing line name => do put .init .importing line [← constant (.ofModule name)]
  | .func d => func d
  | .cls _ _ methods => methods.forM func
  | .global _ _ none => return
  | .global line g (some x) => do
    expr .init x
    put .init .setGlobal line [((← store).global g).index]

/-- Compile the declarations of a program. -/
def program (p : Typed.Program) : Lower PUnit := do
  p.decls.forM decl
  put .init .ret ((p.decls.getLast?.map Typed.Decl.line).getD 0) []

/-! ## Finishing -/

/-- Make a call of a function of the module direct: the function is not pushed any more, and its position
is filled in when the stream of the call is resolved. -/
def makeDirect (d : DirectCall) : Lower PUnit := do
  match (← getThe Lowering).startOf? d.func with
  | none => return
  | some entry =>
    let bits ← assemble (Assemble.operand d.call 0)
    assemble (Assemble.replace d.get .mark [])
    modifyThe Lowering ({ · with pool := ← (← getThe Lowering).pool.release d.constant })
    assemble (Assemble.replace d.call .call [0, bits])
    assemble (Assemble.patch d.part d.call entry 0)

/-- Give an instruction the new position of its constant. -/
def remap (positions : Array (Option Nat)) (n : Nat) : Lower PUnit := do
  let i := (← getThe Lowering).asm.instr n
  match i.op.pool with
  | none => return
  | some p =>
    let old := i.operands[p]?.getD 0
    match if old < 0 then none else (positions[old.toNat]?).join with
    | none => throw (.releasedConstant i.op.name old)
    | some new => assemble (Assemble.setOperand n p new)

/-- Finish a module: make calls direct, drop constants that are not used any more, and resolve the code
before the initialisation, which may call into it. -/
def finish : Lower Compiled := do
  (← getThe Lowering).direct.forM makeDirect
  let (positions, pool) := (← getThe Lowering).pool.compact
  modifyThe Lowering ({ · with pool })
  let positions := positions.toArray
  for part in [Section.init, .code] do
    ((← getThe Lowering).asm.stream part).order.forM (remap positions)
  assemble (Assemble.resolve .code)
  assemble (Assemble.resolve .init)
  let (s, m) ← read
  let l ← getThe Lowering
  return { version := Compiled.formatVersion, name := m.name, file := m.file, imports := m.imports,
           space := some (s.exportModule m), constants := pool.constants,
           init := ← assemble (Assemble.bytes .init), code := ← assemble (Assemble.bytes .code),
           initLines := ← assemble (Assemble.lines .init), lines := ← assemble (Assemble.lines .code),
           funcs := l.entries.map fun (f, n) =>
             { name := (s.func f).fullName, pos := (l.asm.instr n).pos } }

end Lower

/-- Compile the typed program of a module whose analysis found no problem. -/
def compile (s : Store) (m : Module) (p : Typed.Program) : Except Violation Compiled :=
  let start : Lowering :=
    { asm := .empty, pool := .empty, loops := [], entries := [], direct := [] }
  (do Lower.program p; Lower.finish : Lower Compiled) (s, m) start |>.1

end Weft.Bytecode
