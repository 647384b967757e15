import Weft.Proofs.Bytecode.Completes
import Weft.Proofs.Bytecode.Reaching
import Weft.Proofs.Analysis.Binding

/-!
# Operands of calls

Every call in a typed tree becomes one instruction that calls. The last operand of the instruction is the word of the
packed arguments, also where the call is made direct, and the instructions stand in the code in the order of the calls.
-/

namespace Weft

namespace Typed

open Bytecode (Section)

/-- The packed arguments of the call that an access makes. A native member is read by a call without arguments. -/
def Access.packed (s : Store) (args : Arguments) : Access → List Arguments
  | .func _ | .method _ | .methodNative _ | .methodVirtual _ | .methodIface _ | .funcPtr => [args]
  | .readNative _ => [.empty]
  | .readField f => if (s.field f).native then [.empty] else []
  | _ => []

mutual

/-- The packed arguments of the calls of an expression in the order of their instructions. -/
def Expr.packed (s : Store) : Expr → List Arguments
  | .literal .. => []
  | .unary _ _ _ x | .cast _ _ _ x => x.packed s
  | .binary _ _ _ x y => x.packed s ++ y.packed s
  | .chain ⟨_, _, _, links⟩ => exprsPacked s links
  | .call c => c.packed s
  | .new _ _ inits => callsPacked s inits
  | .collection _ _ items => appendsPacked s items
  | .lambda fn => fn.packed s

/-- The packed arguments of the calls of expressions one after the other. -/
def exprsPacked (s : Store) : List Expr → List Arguments
  | [] => []
  | x :: xs => x.packed s ++ exprsPacked s xs

/-- The packed arguments of an access, after those of its children. There is no code for children of a leaf. -/
def Call.packed (s : Store) : Call → List Arguments
  | ⟨_, a, _, _, args, _, kids⟩ => (if a.isLeaf then [] else exprsPacked s kids) ++ a.packed s args

/-- The packed arguments of accesses one after the other. -/
def callsPacked (s : Store) : List Call → List Arguments
  | [] => []
  | c :: cs => c.packed s ++ callsPacked s cs

/-- The packed arguments of the calls of the elements and entries of a collection. -/
def appendsPacked (s : Store) : List Append → List Arguments
  | [] => []
  | .element _ x :: rest => x.packed s ++ appendsPacked s rest
  | .entry _ k v :: rest => k.packed s ++ v.packed s ++ appendsPacked s rest

/-- The packed arguments of the calls of a lambda. -/
def Lambda.packed (s : Store) : Lambda → List Arguments
  | ⟨_, _, _, ⟨_, ps, _, body⟩⟩ => paramsPacked s ps ++ stmtsPacked s body

/-- The packed arguments of the calls of the defaults of parameters, those of the last parameter first. -/
def paramsPacked (s : Store) : List VarDecl → List Arguments
  | [] => []
  | ⟨_, _, none⟩ :: rest => paramsPacked s rest
  | ⟨_, _, some x⟩ :: rest => paramsPacked s rest ++ x.packed s

/-- The packed arguments of the calls of a statement. -/
def Stmt.packed (s : Store) : Stmt → List Arguments
  | .expr x | .discard _ _ x | .var ⟨_, _, some x⟩ => x.packed s
  | .ret _ _ values => exprsPacked s values
  | .block b => b.packed s
  | .var ⟨_, _, none⟩ | .brk _ | .cont _ | .yield _ => []

/-- The packed arguments of the calls of statements one after the other. -/
def stmtsPacked (s : Store) : List Stmt → List Arguments
  | [] => []
  | x :: xs => x.packed s ++ stmtsPacked s xs

/-- The packed arguments of the calls of a block. -/
def Block.packed (s : Store) : Block → List Arguments
  | .group _ _ ss => stmtsPacked s ss
  | .cond _ arms none => armsPacked s arms
  | .cond _ arms (some b) => armsPacked s arms ++ b.packed s
  | .whileLoop _ test body none => test.packed s ++ body.packed s
  | .whileLoop _ test body (some post) => test.packed s ++ body.packed s ++ post.packed s
  | .doLoop _ body test => body.packed s ++ test.packed s

/-- The packed arguments of the calls of branches one after the other. -/
def armsPacked (s : Store) : List Arm → List Arguments
  | [] => []
  | ⟨test, body⟩ :: arms => test.packed s ++ body.packed s ++ armsPacked s arms

end

/-- The packed arguments of the calls of a function or method. -/
def FuncDecl.packed (s : Store) (d : FuncDecl) : List Arguments :=
  match d.frame with
  | none => []
  | some f => paramsPacked s f.params ++ stmtsPacked s f.body

/-- The packed arguments of the calls that a declaration makes when the module is initialised. -/
def Decl.packed (s : Store) : Decl → List Arguments
  | .global _ _ (some x) => x.packed s
  | .global _ _ none | .importing .. | .func _ | .cls .. => []

/-- The packed arguments of the calls of a program in a section, in the order of their instructions. -/
def Program.packed (s : Store) (p : Program) : Section → List Arguments
  | .init => p.decls.flatMap (Decl.packed s)
  | .code => p.funcs.flatMap (FuncDecl.packed s)

end Typed

namespace Bytecode

open Typed (Expr Chain Call Append Lambda Frame VarDecl Stmt Block Arm Arguments)
open Typed (exprsPacked callsPacked appendsPacked paramsPacked stmtsPacked armsPacked)

/-- The last operands of the instructions that call. -/
def callOperands (code : List Piece) : List (Option Int) :=
  (code.filter fun q => q.op.isCall).map fun q => q.operands.getLast?

/-- Code makes calls with some packed arguments, in this order. -/
def Packed (code : List Piece) (as : List Arguments) : Prop := callOperands code = as.map fun a => some a.operand

section Pieces

variable {a b code : List Piece} {xs ys zs : List Arguments}

theorem Packed.nil : Packed [] [] := rfl

theorem Packed.append (ha : Packed a xs) (hb : Packed b ys) : Packed (a ++ b) (xs ++ ys) := by
  unfold Packed callOperands at *
  rw [List.filter_append, List.map_append, ha, hb, List.map_append]

theorem Packed.cons {q : Piece} (h : q.op.isCall = false) (hb : Packed b ys) : Packed (q :: b) ys := by
  unfold Packed callOperands at *
  rw [List.filter_cons_of_neg (by simp [h]), hb]

theorem Packed.one {q : Piece} (h : q.op.isCall = false) : Packed [q] [] := .cons h .nil

theorem Packed.followed (ha : Packed a xs) (hb : Packed b []) : Packed (a ++ b) xs := by
  simpa using ha.append hb

theorem Packed.call {q : Piece} {args : Arguments} (h : q.op.isCall = true)
    (hlast : q.operands.getLast? = some args.operand) : Packed [q] [args] := by
  simp [Packed, callOperands, h, hlast]

theorem callOperands_congr {f : Piece → Piece} (hop : ∀ q, (f q).op = q.op) (hargs : ∀ q, (f q).operands = q.operands) :
    callOperands (code.map f) = callOperands code := by
  simp [callOperands, List.filter_map, Function.comp_def, hop, hargs]

theorem Packed.alone (h : Packed code xs) : Packed (code.map Piece.alone) xs := by
  have hsame : ∀ q : Piece, q.alone.operands = q.operands := fun q => by
    unfold Piece.alone
    split <;> rfl
  exact (callOperands_congr Piece.op_alone hsame).trans h

theorem Packed.settle {exit next : Nat} (h : Packed code xs) : Packed (settleLoop exit next code) xs := by
  unfold Packed at *
  rw [← h]
  clear h
  unfold settleLoop
  induction code using List.reverseRecOn with
  | nil => rfl
  | append_singleton code q ih =>
    have hop : (q.settle exit next code.length).op = q.op ∧ (q.settle exit next code.length).operands = q.operands := by
      unfold Piece.settle
      split <;> exact ⟨rfl, rfl⟩
    unfold callOperands at *
    simp only [List.mapIdx_concat, List.filter_append, List.map_append, ih]
    simp [List.filter_cons, hop]
    split <;> simp [hop]

theorem Packed.ofSimple (h : ∀ q ∈ code, q.op.isCall = false) : Packed code [] := by
  induction code with
  | nil => exact .nil
  | cons q code ih => exact .cons (h q (by simp)) (ih fun r hr => h r (by simp [hr]))

theorem Packed.mark {line : Nat} : Packed [.mark line] [] := .one rfl

theorem packed_closeCode {line : Nat} (h : Packed code xs) : Packed (closeCode line code) xs := by
  have hlast : Packed (if code.getLast?.any (·.op.isReturn) then [] else [.plain .ret line []]) [] := by
    split
    · exact .nil
    · exact .one rfl
  exact h.alone.followed hlast

theorem packed_groupCode {keep : Bool} {line : Nat} {number : Int} {body : List Piece} (h : Packed body xs) :
    Packed (groupCode keep line number body) xs := by
  unfold groupCode
  cases keep with
  | true => exact .cons rfl (h.followed .mark)
  | false => exact .cons rfl (h.followed .mark)

theorem packed_whileCode {line : Nat} {test body post : List Piece} (ht : Packed test xs)
    (hb : Packed body ys) (hp : Packed post zs) : Packed (whileCode line test body post) (xs ++ ys ++ zs) := by
  have hloop : Packed (body ++ Piece.mark line :: post ++
      [Piece.leading .jump line [0] (.ahead (-(test.length + body.length + post.length + 3 : Int))), Piece.mark line]) (ys ++ zs) :=
    (hb.append (.cons rfl hp)).followed (.cons rfl .mark)
  have htop : Packed (Piece.mark line :: test ++ [Piece.leading .jumpZ line [0] (.ahead (body.length + post.length + 3))]) xs :=
    Packed.followed (.cons rfl ht) (.one rfl)
  simpa [whileCode] using htop.append hloop.settle

theorem packed_doCode {line : Nat} {test body : List Piece} (hb : Packed body xs) (ht : Packed test ys) :
    Packed (doCode line body test) (xs ++ ys) := by
  have hloop : Packed (body ++ Piece.mark line :: test ++ [Piece.leading .jumpZ line [0] (.ahead 2),
      Piece.leading .jump line [0] (.ahead (-(body.length + test.length + 3 : Int))), Piece.mark line]) (xs ++ ys) :=
    (hb.append (.cons rfl ht)).followed (.cons rfl (.cons rfl .mark))
  exact .cons rfl hloop.settle

theorem packed_armCode {line testLine : Nat} {test body leave : List Piece} (ht : Packed test xs) (hb : Packed body ys)
    (hl : Packed leave []) : Packed (armCode line testLine test body leave) (xs ++ ys) := by
  have hrest : Packed (body ++ leave ++ [Piece.mark line]) ys := (hb.followed hl).followed .mark
  exact ht.append (.cons rfl hrest)

theorem packed_leaveCode {leaves : Bool} {line : Nat} {goal : Option Goal} : Packed (leaveCode leaves line goal) [] := by
  unfold leaveCode
  split
  · exact .one rfl
  · exact .nil

theorem packed_argPiece {line : Nat} {v : LocalVar} : Packed [argPiece line v] [] :=
  .one (by unfold argPiece; cases v.ref <;> rfl)

end Pieces

/-! ## Calls of trees -/

section Trees

variable {c : Store × Module} {xs : List Arguments}

theorem packed_globalCode {line : Nat} {g : GlobalId} {own imported : Opcode} (hown : own.isCall = false)
    (himported : imported.isCall = false) : Packed (globalCode c line g own imported) [] := by
  unfold globalCode
  dsimp only
  split
  · exact .one hown
  · exact .one himported

theorem packed_accessCode {line : Nat} {acc : Typed.Access} {args : Arguments} {kids : List Piece}
    (h : Packed kids xs) :
    Packed (accessCode c line acc args.operand kids) ((if acc.isLeaf then [] else xs) ++ acc.packed c.1 args) := by
  have calls : ∀ {q : Piece}, q.op.isCall = true → q.operands.getLast? = some args.operand →
      Packed (kids ++ [q]) (xs ++ [args]) := fun hq hlast => h.append (.call hq hlast)
  have passes : ∀ {q : Piece}, q.op.isCall = false → Packed (kids ++ [q]) (xs ++ []) := fun hq => h.append (.one hq)
  have reads : ∀ {i : Int}, Packed [Piece.plain .callMember line [i, 0]] [.empty] := .call rfl rfl
  cases acc with
  | readVar _ | varRef _ => exact .one rfl
  | writeVar _ | writeField _ | initField _ | arrayGet | arraySet | mapGet | mapSet => exact passes rfl
  | readGlobal g => exact packed_globalCode rfl rfl
  | writeGlobal g => exact h.append (packed_globalCode rfl rfl)
  | readField f =>
    simp only [accessCode, Typed.Access.packed, Typed.Access.isLeaf]
    split
    · exact reads
    · exact .one rfl
  | readNative slot => exact reads
  | func f =>
    simp only [accessCode, callFuncCode, Typed.Access.packed, Typed.Access.isLeaf]
    split
    · exact calls rfl rfl
    · exact .cons rfl (calls rfl rfl)
  | funcRef f =>
    simp only [accessCode, Typed.Access.packed, Typed.Access.isLeaf]
    split
    · exact .one rfl
    · exact .one rfl
  | method f =>
    simp only [accessCode, Typed.Access.packed, Typed.Access.isLeaf]
    split
    · exact calls rfl rfl
    · exact calls rfl rfl
  | methodNative _ | methodVirtual _ | methodIface _ | funcPtr => exact calls rfl rfl

mutual

theorem packed_expr : (x : Expr) → Packed (exprCode c x) (x.packed c.1)
  | .literal _ _ _ => .one rfl
  | .unary _ op _ x => (packed_expr x).followed (.one (by cases op <;> rfl))
  | .binary line op _ x y => by
    have hop : (Lower.binaryOpcode op).isCall = false := by cases op <;> rfl
    have hy : Packed (exprCode c y ++ [Piece.mark line]) (y.packed c.1) := (packed_expr y).followed .mark
    rw [exprCode, Expr.packed]
    split
    · exact (packed_expr x).append (.cons hop hy)
    · exact ((packed_expr x).append (packed_expr y)).followed (.one hop)
  | .chain ⟨_, _, _, links⟩ => packed_exprs links
  | .call x => packed_call x
  | .cast _ kind _ x => (packed_expr x).followed (.one (by cases kind <;> rfl))
  | .new _ _ inits => .cons rfl (packed_calls inits)
  | .collection _ _ items => .cons rfl (packed_appends items)
  | .lambda fn => packed_lambda fn

theorem packed_exprs : (xs : List Expr) → Packed (exprsCode c xs) (exprsPacked c.1 xs)
  | [] => .nil
  | x :: xs => (packed_expr x).append (packed_exprs xs)

theorem packed_call : (x : Call) → Packed (callCode c x) (x.packed c.1)
  | ⟨_, _, _, _, _, _, kids⟩ => packed_accessCode (packed_exprs kids)

theorem packed_calls : (xs : List Call) → Packed (callsCode c xs) (callsPacked c.1 xs)
  | [] => .nil
  | x :: xs => (packed_call x).append (packed_calls xs)

theorem packed_appends : (xs : List Append) → Packed (appendsCode c xs) (appendsPacked c.1 xs)
  | [] => .nil
  | .element _ x :: rest => (packed_expr x).append (.cons rfl (packed_appends rest))
  | .entry _ k v :: rest => ((packed_expr k).append (packed_expr v)).append (.cons rfl (packed_appends rest))

theorem packed_lambda : (x : Lambda) → Packed (lambdaCode c x) (x.packed c.1)
  | ⟨line, sig, upvals, ⟨slots, ps, bodyLine, body⟩⟩ => by
    have hups : Packed (upvals.map fun u =>
        Piece.plain .useUpval line [(u.src : Int), u.dst, if u.copied then 0 else 1]) [] := by
      refine .ofSimple fun q hq => ?_
      obtain ⟨u, -, rfl⟩ := List.mem_map.mp hq
      rfl
    have hinner : Packed (Piece.plain .initFrame line [(slots : Int)] ::
        (paramsCode c (Lower.firstDefault ps) 0 ps ++
          closeCode (Lower.lastLine ⟨slots, ps, bodyLine, body⟩) (stmtsCode c false body)))
        (paramsPacked c.1 ps ++ stmtsPacked c.1 body) :=
      .cons rfl ((packed_params ps).append (packed_closeCode (packed_stmts body)))
    exact .cons rfl (hinner.followed (.cons rfl hups))

theorem packed_params {first i : Nat} : (ps : List VarDecl) → Packed (paramsCode c first i ps) (paramsPacked c.1 ps)
  | [] => .nil
  | ⟨_, _, none⟩ :: rest => (packed_params rest).followed packed_argPiece
  | ⟨_, _, some x⟩ :: rest =>
    (packed_params rest).append (.cons rfl ((packed_expr x).followed (.cons rfl packed_argPiece)))

theorem packed_stmt {under : Bool} : (x : Stmt) → Packed (stmtCode c under x) (x.packed c.1)
  | .expr x => packed_expr x
  | .discard _ _ x => by
    refine (packed_expr x).followed (.ofSimple fun q hq => ?_)
    rw [List.eq_of_mem_replicate hq]
    rfl
  | .var ⟨_, _, none⟩ => .one rfl
  | .var ⟨_, _, some x⟩ => (packed_expr x).followed (.one rfl)
  | .ret line n values => (packed_exprs values).followed (.one (by split <;> rfl))
  | .brk _ => .one rfl
  | .cont _ => .one rfl
  | .yield _ => .one rfl
  | .block b => packed_block b

theorem packed_stmts {under : Bool} : (xs : List Stmt) → Packed (stmtsCode c under xs) (stmtsPacked c.1 xs)
  | [] => .nil
  | x :: xs => (packed_stmt x).append (packed_stmts xs)

theorem packed_branches : (xs : List Stmt) → Packed (branchesCode c xs) (stmtsPacked c.1 xs)
  | [] => .nil
  | x :: xs => by
    rw [branchesCode, stmtsPacked]
    split
    · exact (packed_stmt x).append (packed_branches xs)
    · exact (packed_groupCode (packed_stmt x)).append (packed_branches xs)

theorem packed_block {under : Bool} : (b : Block) → Packed (blockCode c under b) (b.packed c.1)
  | .group _ _ ss => by
    rw [blockCode, Block.packed]
    split
    · exact packed_groupCode (packed_branches ss)
    · exact packed_groupCode (packed_stmts ss)
  | .cond _ as none => (packed_arms as).followed .mark
  | .cond _ as (some b) => ((packed_arms as).append (packed_block b)).followed .mark
  | .whileLoop _ test body none => by
    rw [blockCode, Block.packed]
    simpa using packed_whileCode (packed_expr test) (packed_block body) .nil
  | .whileLoop _ test body (some post) => packed_whileCode (packed_expr test) (packed_block body) (packed_block post)
  | .doLoop _ body test => packed_doCode (packed_block body) (packed_expr test)

theorem packed_arms {under more : Bool} {line rest : Nat} :
    (as : List Arm) → Packed (armsCode c under line more rest as) (armsPacked c.1 as)
  | [] => .nil
  | ⟨test, body⟩ :: as => by
    rw [armsCode, armsPacked]
    exact (packed_armCode (packed_expr test) (packed_block body) packed_leaveCode).append (packed_arms as)

end

/-! ## Calls of programs -/

theorem packed_funcCode (d : Typed.FuncDecl) : Packed (funcCode c d) (d.packed c.1) := by
  unfold funcCode Typed.FuncDecl.packed
  cases d.frame with
  | none => exact .nil
  | some f =>
    have hthis : Packed (if (c.1.func d.symbol).owner.isSome then [Piece.plain .argVar d.line [0]] else []) [] := by
      split
      · exact .one rfl
      · exact .nil
    exact .cons rfl (((packed_params f.params).followed hthis).append (packed_closeCode (packed_stmts f.body)))

theorem packed_initCode (d : Typed.Decl) : Packed (initCode c d) (d.packed c.1) := by
  unfold initCode Typed.Decl.packed
  cases d with
  | importing _ _ => exact .one rfl
  | func _ | cls _ _ _ => exact .nil
  | global line g init =>
    cases init with
    | none => exact .nil
    | some x => exact (packed_expr x).followed (.one rfl)

theorem packed_flatMap {α : Type} {f : α → List Piece} {g : α → List Arguments} (h : ∀ x, Packed (f x) (g x))
    (l : List α) : Packed (l.flatMap f) (l.flatMap g) := by
  induction l with
  | nil => exact .nil
  | cons x l ih =>
    rw [List.flatMap_cons, List.flatMap_cons]
    exact (h x).append ih

theorem packed_program (p : Typed.Program) (part : Section) : Packed (programCode c p part) (p.packed c.1 part) := by
  cases part with
  | code => exact packed_flatMap packed_funcCode p.funcs
  | init => exact (packed_flatMap packed_initCode p.decls).followed (.one rfl)

end Trees

/-! ## Calls in decoded code -/

section Decoded

variable {cs : List Constant} {code : List Piece} {xs : List Instruction} {direct : FuncId → Prop}

theorem Opcode.isCall_offsetOperand? {op : Opcode} (h : op.isCall = true) : op.offsetOperand? = none := by
  cases op <;> first | rfl | cases h

theorem Opcode.isCall_width {op : Opcode} (h : op.isCall = true) : op.widths.getLast? = some 4 := by
  cases op <;> first | rfl | cases h

theorem Opcode.isCall_pool {op : Opcode} {p : Nat} (h : op.isCall = true) (hp : op.pool = some p) :
    p + 1 < op.widths.length := by
  have hall : op.isCall = true → op.pool.all fun p => p + 1 < op.widths.length := by
    cases op <;> decide
  simpa [hp] using hall h

theorem getLast?_set_of_lt {vs : List Int} {p : Nat} {v : Int} (h : p + 1 < vs.length) :
    (vs.set p v).getLast? = vs.getLast? := by
  rw [List.getLast?_eq_getElem?, List.getLast?_eq_getElem?, List.length_set, List.getElem?_set_ne (by omega)]

theorem Matches.getLast? {y : Instruction} {q : Piece} (h : Matches cs y q) (hcall : q.op.isCall = true) :
    y.operands.getLast? = q.operands.getLast? := by
  cases hc : q.const with
  | none => rw [(h.bare hc).2]
  | some v =>
    obtain ⟨p, i, hp, -, hops⟩ := h.const v hc
    have hlength : q.operands.length = q.op.widths.length := by
      rw [← h.op, ← h.sound.count, hops, List.length_set]
    rw [hops, getLast?_set_of_lt (hlength ▸ Opcode.isCall_pool hcall hp)]

/-- The instruction of a piece calls if the piece does, and then it keeps the last operand. -/
theorem Final.operand {i : Nat} {q : Piece} {x : Instruction} (h : Final cs code xs) (hd : Direct direct code xs)
    (haimed : Directed code) (hq : code[i]? = some q) (hx : xs[i]? = some x) :
    x.op.isCall = q.op.isCall ∧ (q.op.isCall = true → x.operands.getLast? = q.operands.getLast?) := by
  by_cases hdirect : q.Calls direct
  · rcases hd.named q (List.mem_of_getElem? hq) hdirect with hop | hop
    · rw [hd.got hq hx hdirect hop, hop]
      exact ⟨rfl, fun hcall => by cases hcall⟩
    · obtain ⟨hcall, hlast⟩ := hd.called hq hx hdirect hop
      have hlength : x.operands.length = 2 := by
        rw [(h.sound x (List.mem_of_getElem? hx)).count, hcall]
        rfl
      rw [hcall, hop, ← hlast, List.getLast?_eq_getElem?, hlength]
      exact ⟨rfl, fun _ => rfl⟩
  · have hop := hd.same hq hx hdirect
    refine ⟨by rw [hop], fun hcall => ?_⟩
    obtain ⟨x', hx', -, hkept | ⟨hget, hmark⟩ | ⟨hptr, hcalled⟩⟩ := h.shows hq
    · obtain rfl : x' = x := Option.some.inj (hx'.symm.trans hx)
      obtain ⟨y, hy, hsame, -⟩ := hkept.operands
      have hgoal : q.goal = none := by
        have haim : q.op.offsetOperand?.isSome = q.goal.isSome := haimed q (List.mem_of_getElem? hq)
        rw [Opcode.isCall_offsetOperand? hcall] at haim
        simpa using haim
      rw [hsame (by simp [hgoal]), hy.getLast? hcall]
    · simp [hget, Opcode.isCall] at hcall
    · obtain rfl : x' = x := Option.some.inj (hx'.symm.trans hx)
      rw [hop, hptr] at hcalled
      cases hcalled

theorem Final.callOperands (h : Final cs code xs) (hd : Direct direct code xs) (haimed : Directed code) :
    ((xs.filterMap Instruction.decoded?).filter (·.op.isCall)).map (·.operands.getLast?) = callOperands code := by
  have hpairs : List.Forall₂ (fun (q : Piece) (x : Instruction) => x.op.isCall = q.op.isCall ∧
      (q.op.isCall = true → x.operands.getLast? = q.operands.getLast?)) code xs := by
    refine List.forall₂_iff_get.mpr ⟨h.length.symm, fun i hi hi' => ?_⟩
    exact h.operand hd haimed (List.getElem?_eq_getElem hi) (List.getElem?_eq_getElem hi')
  clear h hd haimed
  unfold Bytecode.callOperands
  induction hpairs with
  | nil => rfl
  | @cons q x code xs hpair _ ih =>
    obtain ⟨hop, hlast⟩ := hpair
    rw [List.filterMap_cons]
    cases hq : q.op.isCall with
    | false =>
      rw [List.filter_cons_of_neg (by simp [hq]), ← ih]
      unfold Instruction.decoded?
      split
      · next hmark =>
        split at hmark
        · rfl
        · cases hmark
      · next y hy =>
        split at hy
        · cases hy
        · obtain rfl := Option.some.inj hy
          rw [List.filter_cons_of_neg (by simp [hop, hq])]
    | true =>
      have hmark : x.op ≠ .mark := by
        intro hm
        rw [hm, hq] at hop
        cases hop
      have hx : x.decoded? = some ⟨x.pos.toNat, x.op, x.operands⟩ := if_neg hmark
      rw [List.filter_cons_of_pos (by exact hq), hx]
      dsimp only
      rw [List.filter_cons_of_pos (by exact hop.trans hq), List.map_cons, List.map_cons, ih, hlast hq]

/-- The calls in a section of a compiled program are those of the program, each with its packed arguments as the last
operand. -/
theorem compile_packed {st : Store} {m : Module} {p : Typed.Program} {out : Compiled} (part : Section)
    (h : compile st m p = .ok out) :
    ((decode (out.bytes part)).1.filter (·.op.isCall)).map (·.operands.getLast?) =
      (p.packed st part).map fun args => some args.operand := by
  obtain ⟨xs, hfinal, hdirect, -, hinit, hcode, -⟩ := compile_linked h
  have hbytes : out.bytes part = (xs part).flatMap Instruction.encode := by
    cases part
    · exact hinit
    · exact hcode
  rw [hbytes, (hfinal part).decode, (hfinal part).callOperands (hdirect part) (directed_programCode p part)]
  exact packed_program p part

end Decoded

end Bytecode

namespace Analysis

open Bytecode (Compiled Section compile decode)
open Typed (Arguments)

/-- The arguments of a call that is accepted are bound to the parameters, and its children and its packed arguments say how.
Wherever the call is compiled, the last operand of its instruction has four bytes, which are the word of the packed
arguments. -/
theorem arguments_packed {v : Visit} {line : Nat} {sig : Signature} {names : List String} {c : Tree.Call} {pl : Place}
    {st st' : State} {xs : List Typed.Expr} {args : Arguments} (hnames : names.Nodup) (hlow : 0 ≤ sig.defaults)
    (hfew : sig.defaults ≤ Arguments.maxDefaults) (htrailing : sig.defaults ≤ sig.params.length)
    (h : Accepts (arguments v line sig names c) pl st (xs, args) st') :
    Packs v line sig names c pl st xs args st' ∧
      ∀ {s : Store} {m : Module} {p : Typed.Program} {out : Compiled} {part : Section} {k : Nat},
        compile s m p = .ok out → (p.packed s part)[k]? = some args →
        ∃ d, ((decode (out.bytes part)).1.filter (·.op.isCall))[k]? = some d ∧ d.op.widths.getLast? = some 4 ∧
          ∃ i, d.operands.getLast? = some i ∧ BitVec.ofInt 32 i = args.word.toBitVec := by
  refine ⟨accepts_arguments hnames hlow hfew htrailing h, ?_⟩
  intro s m p out part k hout hk
  have hlast := congrArg (·[k]?) (Bytecode.compile_packed part hout)
  simp only [List.getElem?_map, hk, Option.map_some, Option.map_eq_some_iff] at hlast
  obtain ⟨d, hd, hlast⟩ := hlast
  have hcall : d.op.isCall = true := (List.mem_filter.mp (List.mem_of_getElem? hd)).2
  exact ⟨d, hd, Bytecode.Opcode.isCall_width hcall, _, hlast, Arguments.word_operand⟩

/-- A function of three integers of which the last two have default values. -/
def defaultsSig : Signature := ⟨.builtin .void, [(false, .int), (false, .int), (false, .int)], 2, false⟩

/-- A function value without parameters, held by a local variable. -/
def producer : LocalVar := ⟨"g", some (.func ⟨.builtin .int, [], 0, false⟩), 0, false⟩

/-- The value of a call of the function in the variable. -/
def producerChain : Tree.Chain := ⟨default, .name default "g", [.call ⟨default, []⟩]⟩

/-- A call that passes that value first and leaves the second argument out. -/
def defaultsCall : Tree.Call :=
  ⟨default, [⟨default, false, none, .chain producerChain⟩, ⟨default, false, some "c", .int default 3⟩]⟩

/-- Where the call is analyzed. -/
def defaultsPlace : Place := ⟨"", .file default⟩

/-- The state with the local variable. -/
def defaultsState : State := ⟨default, [.add (.empty default) producer]⟩

theorem accepts_producerChain {v : Visit} {f : Tree.Lambda → Analysis (Typed.Expr × Option Ty)} :
    ∃ x, Accepts (chain v f .read producerChain) defaultsPlace defaultsState (x, some .int) defaultsState := by
  let w : Walk := .push ⟨[], .failed⟩ (access 0 (.readVar producer) "g" producer.type []) producer.type
  have hroot : Accepts (rootStep v f .read producerChain) defaultsPlace defaultsState (w, false) defaultsState := rfl
  have hplaces : Accepts (passArguments [] [] ⟨[], 0, false⟩) defaultsPlace defaultsState [] defaultsState := by
    simp [passArguments]
  have hargs : Accepts (arguments v 0 ⟨.builtin .int, [], 0, false⟩ [] ⟨default, []⟩) defaultsPlace defaultsState
      ([], .empty) defaultsState := accepts_bind.mpr ⟨_, _, hplaces, rfl⟩
  have hcall : ∃ x, Accepts (callStep v ⟨default, []⟩ w) defaultsPlace defaultsState (w.push x (some .int)) defaultsState :=
    ⟨_, accepts_bind.mpr ⟨_, _, hargs, rfl⟩⟩
  obtain ⟨x, hcall⟩ := hcall
  have hitems : Accepts (followItems v .read false producerChain.items w) defaultsPlace defaultsState
      (w.push x (some .int)) defaultsState := accepts_bind.mpr ⟨_, _, hcall, rfl⟩
  exact ⟨_, accepts_bind.mpr ⟨_, _, hroot, accepts_bind.mpr ⟨_, _, hitems, rfl⟩⟩⟩

theorem accepts_defaultsCall : ∃ x, Accepts (arguments (visit 2) 1 defaultsSig ["a", "b", "c"] defaultsCall) defaultsPlace
    defaultsState ([.chain x, Typed.nullLiteral 1, .literal 0 (.int 3) .int], ⟨67⟩) defaultsState := by
  have hplaces : Accepts (passArguments ["a", "b", "c"] defaultsCall.args ⟨List.replicate 3 none, 0, false⟩) defaultsPlace
      defaultsState [defaultsCall.args[0]?, none, defaultsCall.args[1]?] defaultsState := by
    simp [passArguments, passArguments.give, defaultsCall, paramPosition?]
  obtain ⟨x, hchain⟩ := accepts_producerChain (v := visit 1) (f := lambda (visit 1))
  have hexpr : Accepts ((visit 2).expr (.chain producerChain) (some .int)) defaultsPlace defaultsState
      (.chain x, some .int) defaultsState := accepts_bind.mpr ⟨_, _, hchain, rfl⟩
  have hfirst : Accepts (passArgument (visit 2) ⟨default, false, none, .chain producerChain⟩ false .int) defaultsPlace
      defaultsState (.chain x) defaultsState := accepts_bind.mpr ⟨_, _, hexpr, rfl⟩
  exact ⟨x, accepts_bind.mpr ⟨_, _, hplaces, accepts_bind.mpr ⟨_, _, accepts_bind.mpr ⟨_, _, hfirst, rfl⟩, rfl⟩⟩⟩

theorem arguments_packed_defaultsCall : ∃ xs args st',
    Packs (visit 2) 1 defaultsSig ["a", "b", "c"] defaultsCall defaultsPlace defaultsState xs args st' ∧
      args.word = 67 ∧ xs.length = 3 ∧ args.defaultUsed 0 = true ∧ args.defaultUsed 1 = false := by
  have hfew : 0 ≤ defaultsSig.defaults ∧ defaultsSig.defaults ≤ Arguments.maxDefaults ∧
      defaultsSig.defaults ≤ defaultsSig.params.length := by decide
  obtain ⟨x, haccepts⟩ := accepts_defaultsCall
  obtain ⟨hpacks, -⟩ := arguments_packed (by decide) hfew.1 hfew.2.1 hfew.2.2 haccepts
  exact ⟨_, _, _, hpacks, rfl, rfl, hpacks.leftOut 0 (by decide), hpacks.leftOut 1 (by decide)⟩

end Analysis

end Weft
