import Mathlib
import Weft.Bytecode.Compile

/-!
# The code of typed trees

The instructions that a typed tree becomes, as a list. An instruction that leads somewhere says how many
instructions away that is, so that the code of a part does not depend on where the part stands. The jumps
out of a loop wait until the loop is whole. What is left to the layout are positions and the places of
constants.
-/

namespace Weft.Typed

/-- The functions and methods of a declaration. -/
def Decl.funcs : Decl → List FuncDecl
  | .func d => [d]
  | .cls _ _ methods => methods
  | .importing .. | .global .. => []

/-- The functions and methods of a program. -/
def Program.funcs (p : Program) : List FuncDecl := p.decls.flatMap Decl.funcs

end Weft.Typed

namespace Weft.Bytecode

open Typed (Expr Chain Call Append Lambda Frame VarDecl Stmt Block Arm)

/-- Where an instruction leads: to an instruction at a distance, or to an end of the loop around it. -/
inductive Goal where
  | ahead (distance : Int)
  | exit
  | next
deriving DecidableEq, Repr

/-- An instruction before layout. The operands for a constant and for an offset are zero. An instruction
that pushes a function of the module in order to call it, and the one that calls it, name the function. -/
structure Piece where
  op : Opcode
  operands : List Int
  line : Nat
  const : Option Constant
  goal : Option Goal
  callee : Option FuncId
deriving DecidableEq, Repr

namespace Piece

/-- An instruction that leads nowhere and uses no constant. -/
def plain (op : Opcode) (line : Nat) (operands : List Int) : Piece := ⟨op, operands, line, none, none, none⟩

/-- A place in the code. -/
def mark (line : Nat) : Piece := plain .mark line []

/-- An instruction that uses a constant. -/
def withConst (op : Opcode) (line : Nat) (operands : List Int) (c : Option Constant) : Piece :=
  ⟨op, operands, line, c, none, none⟩

/-- An instruction that leads somewhere. -/
def leading (op : Opcode) (line : Nat) (operands : List Int) (g : Goal) : Piece :=
  ⟨op, operands, line, none, some g, none⟩

/-- An instruction that belongs to the call of a function. -/
def calling (callee : Option FuncId) (q : Piece) : Piece := { q with callee }

/-- The operand for the offset. -/
def offsetIndex (q : Piece) : Nat := q.op.offsetOperand?.getD 0

/-- Whether an instruction waits for an end of the loop around it. -/
def Waits (q : Piece) : Prop := q.goal = some .exit ∨ q.goal = some .next

/-- The constants that code uses, in the order of the code. -/
def consts (code : List Piece) : List Constant := code.filterMap Piece.const

/-- An instruction with no loop around it. A jump that waits for one leads to itself. -/
def alone (q : Piece) : Piece :=
  match q.goal with
  | some .exit | some .next => { q with goal := some (.ahead 0) }
  | _ => q

/-- An instruction of a loop whose ends are at two positions, itself at a third. -/
def settle (exit next i : Nat) (q : Piece) : Piece :=
  match q.goal with
  | some .exit => { q with goal := some (.ahead ((exit : Int) - i)) }
  | some .next => { q with goal := some (.ahead ((next : Int) - i)) }
  | _ => q

end Piece

/-- The code of a loop whose ends are at two of its positions. -/
def settleLoop (exit next : Nat) (code : List Piece) : List Piece :=
  code.mapIdx fun i q => q.settle exit next i

/-! ### Places in code -/

theorem getElem?_append_cases {α : Type} {a b : List α} {i : Nat} {x : α} :
    (a ++ b)[i]? = some x ↔ a[i]? = some x ∨ ∃ j, i = a.length + j ∧ b[j]? = some x := by
  by_cases h : i < a.length
  · rw [List.getElem?_append_left h]
    constructor
    · exact .inl
    · rintro (h' | ⟨j, rfl, -⟩)
      · exact h'
      · omega
  · rw [List.getElem?_append_right (by omega)]
    constructor
    · exact fun h' => .inr ⟨i - a.length, by omega, h'⟩
    · rintro (h' | ⟨j, rfl, h'⟩)
      · have := (List.getElem?_eq_some_iff.mp h').1
        omega
      · rwa [Nat.add_sub_cancel_left]

theorem getElem?_middle {a b : List Piece} {q r : Piece} {i : Nat} (q' : Piece) :
    (a ++ q :: b)[i]? = some r ↔ i = a.length ∧ r = q ∨ i ≠ a.length ∧ (a ++ q' :: b)[i]? = some r := by
  rw [getElem?_append_cases, getElem?_append_cases]
  by_cases hi : i = a.length
  · subst hi
    simp [eq_comm]
  · simp only [hi, false_and, ne_eq, not_false_eq_true, true_and, false_or]
    constructor
    · rintro (h | ⟨j, rfl, h⟩)
      · exact .inl h
      · cases j with
        | zero => simp at hi
        | succ j => exact .inr ⟨j + 1, rfl, by simpa using h⟩
    · rintro (h | ⟨j, rfl, h⟩)
      · exact .inl h
      · cases j with
        | zero => simp at hi
        | succ j => exact .inr ⟨j + 1, rfl, by simpa using h⟩

theorem getElem?_settleLoop {b : List Piece} {e k i : Nat} {q : Piece} :
    (settleLoop e k b)[i]? = some q ↔ ∃ r, b[i]? = some r ∧ q = r.settle e k i := by
  rw [settleLoop, List.getElem?_mapIdx, Option.map_eq_some_iff]
  simp only [eq_comm (a := q)]

theorem settle_of_not_waits {q : Piece} {e k i : Nat} (h : ¬q.Waits) : q.settle e k i = q := by
  unfold Piece.settle
  split
  · next hg => exact absurd (.inl hg) h
  · next hg => exact absurd (.inr hg) h
  · rfl

theorem goal_settle_exit {q : Piece} {e k i : Nat} (h : q.goal = some .exit) :
    q.settle e k i = { q with goal := some (.ahead ((e : Int) - i)) } := by
  simp [Piece.settle, h]

theorem goal_settle_next {q : Piece} {e k i : Nat} (h : q.goal = some .next) :
    q.settle e k i = { q with goal := some (.ahead ((k : Int) - i)) } := by
  simp [Piece.settle, h]

@[simp]
theorem Piece.consts_append (a b : List Piece) : consts (a ++ b) = consts a ++ consts b := List.filterMap_append

/-- Nothing waits in a whole loop. -/
theorem not_waits_settle {q : Piece} {e k i : Nat} : ¬(q.settle e k i).Waits := by
  by_cases h : q.Waits
  · rcases h with h | h
    · simp [goal_settle_exit h, Piece.Waits]
    · simp [goal_settle_next h, Piece.Waits]
  · rwa [settle_of_not_waits h]

theorem alone_of_not_waits {q : Piece} (h : ¬q.Waits) : q.alone = q := by
  unfold Piece.alone
  split
  · next hg => exact absurd (.inl hg) h
  · next hg => exact absurd (.inr hg) h
  · rfl

/-! ### Code of trees -/

/-- The constant of a type. -/
def typeConst? (st : Store) (t : Option Ty) : Option Constant :=
  t.map fun t => .type (Lower.typeModule st t) (t.typeName st)

/-- The constant of a function. -/
def funcConst (f : Func) : Constant := .func f.module f.fullName

/-- The constant of the interface that declares a method, if one does. -/
def ifaceConst? (st : Store) (f : Func) : Option Constant :=
  match f.owner with
  | some (.iface i) => typeConst? st (some (.iface i))
  | _ => none

/-- Code that control never runs past, with no loops around it. -/
def closeCode (line : Nat) (code : List Piece) : List Piece :=
  code.map Piece.alone ++ if code.getLast?.any (·.op.isReturn) then [] else [Piece.plain .ret line []]

/-- The access to a global variable, which another module may declare. -/
def globalCode (c : Store × Module) (line : Nat) (g : GlobalId) (own imported : Opcode) : List Piece :=
  let x := c.1.global g
  if x.module = "" ∨ x.module = c.2.name then [.plain own line [x.index]]
  else [.withConst imported line [0, x.index] (some (.ofModule x.module))]

/-- The call of a function, around the code of its arguments. -/
def callFuncCode (c : Store × Module) (line : Nat) (f : FuncId) (bits : Int) (args : List Piece) :
    List Piece :=
  let x := c.1.func f
  if x.native then args ++ [Piece.plain .callNative line [x.index, bits]]
  else
    let own := if x.module = c.2.name then some f else none
    Piece.calling own (Piece.withConst .getFunc line [0] (some (funcConst x))) ::
      (args ++ [Piece.calling own (Piece.plain .callPtr line [bits])])

/-- An access, after the code of its children. -/
def accessCode (c : Store × Module) (line : Nat) (a : Typed.Access) (bits : Int) (kids : List Piece) :
    List Piece :=
  let st := c.1
  match a with
  | .readVar v => [Piece.plain .getVar line [v.slot]]
  | .writeVar v => kids ++ [Piece.plain .setVar line [v.slot]]
  | .varRef v => [Piece.plain .refVar line [v.slot]]
  | .readGlobal g => globalCode c line g .getGlobal .getImported
  | .writeGlobal g => kids ++ globalCode c line g .setGlobal .setImported
  | .readField f =>
    if (st.field f).native then [.plain .callMember line [(st.field f).index, 0]]
    else [.plain .getField line [(st.field f).index]]
  | .readNative slot => [Piece.plain .callMember line [slot, 0]]
  | .writeField f => kids ++ [Piece.plain .setField line [(st.field f).index]]
  | .initField f => kids ++ [Piece.plain .initField line [(st.field f).index]]
  | .func f => callFuncCode c line f bits kids
  | .funcRef f =>
    if (st.func f).native then [.plain .getFuncNative line [(st.func f).index]]
    else [.withConst .getFunc line [0] (some (funcConst (st.func f)))]
  | .method f =>
    if (st.func f).native then kids ++ [Piece.plain .callMember line [(st.func f).index, bits]]
    else kids ++ [Piece.withConst .callMethod line [0, bits] (some (funcConst (st.func f)))]
  | .methodNative slot => kids ++ [Piece.plain .callMember line [slot, bits]]
  | .methodVirtual f => kids ++ [Piece.plain .callVirtual line [(st.func f).index, bits]]
  | .methodIface f =>
    kids ++ [Piece.withConst .callInterface line [(st.func f).index, 0, bits] (ifaceConst? st (st.func f))]
  | .funcPtr => kids ++ [Piece.plain .callPtr line [bits]]
  | .arrayGet => kids ++ [Piece.plain .arrayGet line []]
  | .arraySet => kids ++ [Piece.plain .arraySet line []]
  | .mapGet => kids ++ [Piece.plain .mapGet line []]
  | .mapSet => kids ++ [Piece.plain .mapSet line []]

/-- The instruction that takes an argument from the stack. -/
def argPiece (line : Nat) (v : LocalVar) : Piece :=
  .plain (if v.ref then .argRef else .argVar) line [v.slot]

/-- Whether a block keeps its header. -/
def keepsHeader (under : Bool) (kind : Typed.Grouping) (ss : List Stmt) : Bool :=
  kind ≠ .seq || under || someParallel ss || ss.any isDefer

/-- A block around the code of its statements. -/
def groupCode (keep : Bool) (line : Nat) (number : Int) (body : List Piece) : List Piece :=
  (if keep then Piece.leading .block line [number, 0] (.ahead (body.length + 1)) else Piece.mark line) ::
    (body ++ [Piece.mark line])

/-- A loop that tests before its body. -/
def whileCode (line : Nat) (test body post : List Piece) : List Piece :=
  Piece.mark line :: test ++ Piece.leading .jumpZ line [0] (.ahead (body.length + post.length + 3)) ::
    settleLoop (body.length + post.length + 2) body.length (body ++ Piece.mark line :: post ++
      [Piece.leading .jump line [0] (.ahead (-(test.length + body.length + post.length + 3 : Int))), Piece.mark line])

/-- A loop that tests after its body. -/
def doCode (line : Nat) (body test : List Piece) : List Piece :=
  Piece.mark line :: settleLoop (body.length + test.length + 3) body.length (body ++ Piece.mark line :: test ++
    [Piece.leading .jumpZ line [0] (.ahead 2),
      .leading .jump line [0] (.ahead (-(body.length + test.length + 3 : Int))), .mark line])

/-- One branch of a condition. `leave` is the jump to the end, if the branch needs one. -/
def armCode (line testLine : Nat) (test body leave : List Piece) : List Piece :=
  test ++ Piece.leading .jumpZ testLine [0] (.ahead (body.length + leave.length + 1)) ::
    (body ++ leave ++ [Piece.mark line])

/-- The jump at the end of a branch, if more code follows the branch. -/
def leaveCode (leaves : Bool) (line : Nat) (goal : Option Goal) : List Piece :=
  if leaves then [⟨.jump, [0], line, none, goal, none⟩] else []

mutual

/-- The code of an expression. -/
def exprCode (c : Store × Module) : Expr → List Piece
  | .literal line v _ => [Piece.withConst .constant line [0] (some (Lower.literal v))]
  | .unary line op _ x => exprCode c x ++ [Piece.plain (match op with | .neg => .neg | .not => .not) line []]
  | .binary line op _ x y =>
    if op = .and ∨ op = .or then
      exprCode c x ++
        Piece.leading (Lower.binaryOpcode op) line [0] (.ahead ((exprCode c y).length + 1)) ::
          (exprCode c y ++ [Piece.mark line])
    else exprCode c x ++ exprCode c y ++ [Piece.plain (Lower.binaryOpcode op) line []]
  | .chain ⟨_, _, _, links⟩ => exprsCode c links
  | .call x => callCode c x
  | .cast line kind t x => exprCode c x ++ [Piece.withConst (Lower.castOpcode kind) line [0] (typeConst? c.1 t)]
  | .new line t inits => Piece.withConst .new line [0] (typeConst? c.1 t) :: callsCode c inits
  | .collection line t items => .withConst .new line [0] (typeConst? c.1 (some t)) :: appendsCode c items
  | .lambda fn => lambdaCode c fn

/-- The code of expressions one after the other. -/
def exprsCode (c : Store × Module) : List Expr → List Piece
  | [] => []
  | x :: xs => exprCode c x ++ exprsCode c xs

/-- The code of an access. -/
def callCode (c : Store × Module) : Call → List Piece
  | ⟨line, a, _, _, args, _, children⟩ => accessCode c line a args.operand (exprsCode c children)

/-- The code of accesses one after the other. -/
def callsCode (c : Store × Module) : List Call → List Piece
  | [] => []
  | x :: xs => callCode c x ++ callsCode c xs

/-- The code of the elements and entries of a collection. -/
def appendsCode (c : Store × Module) : List Append → List Piece
  | [] => []
  | .element line x :: rest => exprCode c x ++ Piece.plain .arrayAdd line [] :: appendsCode c rest
  | .entry line k v :: rest =>
    exprCode c k ++ exprCode c v ++ Piece.plain .mapAdd line [] :: appendsCode c rest

/-- The code of a lambda. -/
def lambdaCode (c : Store × Module) : Lambda → List Piece
  | ⟨line, _, upvals, ⟨slots, ps, bodyLine, body⟩⟩ =>
    let inner := Piece.plain .initFrame line [(slots : Int)] ::
      (paramsCode c (Lower.firstDefault ps) 0 ps ++
        closeCode (Lower.lastLine ⟨slots, ps, bodyLine, body⟩) (stmtsCode c false body))
    Piece.leading .lambda line [0] (.ahead (inner.length + 1)) :: (inner ++ Piece.mark line ::
      upvals.map fun u => .plain .useUpval line [(u.src : Int), u.dst, if u.copied then 0 else 1])

/-- The code that takes the arguments of a function from the stack. -/
def paramsCode (c : Store × Module) (first i : Nat) : List VarDecl → List Piece
  | [] => []
  | ⟨line, v, none⟩ :: rest => paramsCode c first (i + 1) rest ++ [argPiece line v]
  | ⟨line, v, some x⟩ :: rest =>
    paramsCode c first (i + 1) rest ++
      Piece.leading .defArg line [(i : Int) - first, 0] (.ahead ((exprCode c x).length + 1)) ::
        (exprCode c x ++ [Piece.mark line, argPiece line v])

/-- The code of a statement. -/
def stmtCode (c : Store × Module) (under : Bool) : Stmt → List Piece
  | .expr x => exprCode c x
  | .discard line n x => exprCode c x ++ List.replicate n (Piece.plain .pop line [])
  | .var ⟨line, v, none⟩ => [Piece.withConst .declVar line [v.slot, 0] (typeConst? c.1 v.type)]
  | .var ⟨line, v, some x⟩ => exprCode c x ++ [Piece.plain .setVar line [v.slot]]
  | .ret line n values =>
    exprsCode c values ++ [if n = 0 then Piece.plain .ret line [] else Piece.plain .returnVal line [(n : Int)]]
  | .brk line => [Piece.leading .brk line [0] .exit]
  | .cont line => [.leading .cont line [0] .next]
  | .yield line => [.plain .yield line []]
  | .block b => blockCode c under b

/-- The code of statements one after the other. -/
def stmtsCode (c : Store × Module) (under : Bool) : List Stmt → List Piece
  | [] => []
  | x :: xs => stmtCode c under x ++ stmtsCode c under xs

/-- The code of the statements of a parallel block. -/
def branchesCode (c : Store × Module) : List Stmt → List Piece
  | [] => []
  | x :: xs =>
    (if isSeqOrDefer x then stmtCode c true x else groupCode true x.line 0 (stmtCode c true x)) ++
      branchesCode c xs

/-- The code of a block. -/
def blockCode (c : Store × Module) (under : Bool) : Block → List Piece
  | .group line kind ss =>
    groupCode (keepsHeader under kind ss) line (Lower.kindNumber kind)
      (if kind.isParallel then branchesCode c ss else stmtsCode c under ss)
  | .cond line as none => armsCode c under line false 0 as ++ [Piece.mark line]
  | .cond line as (some b) =>
    armsCode c under line true (blockCode c under b).length as ++ blockCode c under b ++ [Piece.mark line]
  | .whileLoop line test body none => whileCode line (exprCode c test) (blockCode c under body) []
  | .whileLoop line test body (some post) =>
    whileCode line (exprCode c test) (blockCode c under body) (blockCode c under post)
  | .doLoop line body test => doCode line (blockCode c under body) (exprCode c test)

/-- The code of the branches of a condition. `rest` is how much code follows them before the end, and
`more` says that another body does. -/
def armsCode (c : Store × Module) (under : Bool) (line : Nat) (more : Bool) (rest : Nat) :
    List Arm → List Piece
  | [] => []
  | ⟨test, body⟩ :: as =>
    let others := armsCode c under line more rest as
    armCode line test.line (exprCode c test) (blockCode c under body)
      (leaveCode (more || !as.isEmpty) body.line (some (.ahead (others.length + rest + 2)))) ++ others

end

/-- The code of the body of a function or lambda after its frame is made. -/
def frameCode (c : Store × Module) (line : Nat) (method : Bool) (f : Frame) : List Piece :=
  Piece.plain .initFrame line [(f.slots : Int)] ::
    (paramsCode c (Lower.firstDefault f.params) 0 f.params ++
      (if method then [Piece.plain .argVar line [0]] else []) ++
        closeCode (Lower.lastLine f) (stmtsCode c false f.body))

/-- The code of a function or method; without a body it has none. -/
def funcCode (c : Store × Module) (d : Typed.FuncDecl) : List Piece :=
  match d.frame with
  | none => []
  | some f => frameCode c d.line (c.1.func d.symbol).owner.isSome f

/-- What a declaration adds to the code that initialises the module. -/
def initCode (c : Store × Module) : Typed.Decl → List Piece
  | .importing line name => [.withConst .importing line [0] (some (.ofModule name))]
  | .func _ | .cls .. | .global _ _ none => []
  | .global line g (some x) => exprCode c x ++ [Piece.plain .setGlobal line [(c.1.global g).index]]

/-- The code of a program in a section. -/
def programCode (c : Store × Module) (p : Typed.Program) : Section → List Piece
  | .code => p.funcs.flatMap (funcCode c)
  | .init => p.decls.flatMap (initCode c) ++
    [Piece.plain .ret ((p.decls.getLast?.map Typed.Decl.line).getD 0) []]

end Weft.Bytecode
