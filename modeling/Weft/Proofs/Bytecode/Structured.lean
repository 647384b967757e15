import Mathlib
import Weft.Proofs.Bytecode.Codec
import Weft.Proofs.Bytecode.Pieces

/-!
# Structured code and the machine that runs it

The meaning of code on a machine with a stack and slots, and the meaning of structured trees without one.
-/

/-! ## The machine that runs code

A frame has an operand stack and slots for variables. What the arithmetic instructions compute, when a value
counts as true and which value a variable starts with are left open.
-/

namespace Weft.Bytecode

/-- What instructions compute on some values. A variable starts with the value of the constant of its type. -/
structure Interpretation (V : Type) where
  constant : Constant → V
  zero : Constant → V
  truth : V → Bool
  neg : V → V
  not : V → V
  add : V → V → V
  sub : V → V → V
  mul : V → V → V
  div : V → V → V
  mod : V → V → V
  lt : V → V → V
  le : V → V → V
  gt : V → V → V
  ge : V → V → V
  eq : V → V → V
  ne : V → V → V

/-- The variables of a frame by their slots. -/
abbrev Slots (V : Type) := Int → V

/-- The state of a frame: the position of the next instruction, the operand stack and the variables. -/
structure MachineState (V : Type) where
  pc : Int
  stack : List V
  slots : Slots V

/-- What an instruction does: it goes on, or it leaves the frame with some values. -/
inductive Effect (V : Type) where
  | go (s : MachineState V)
  | leave (values : List V) (slots : Slots V)

variable {V : Type}

/-- The instructions that replace the two values on top of the stack. -/
def Interpretation.binary? (I : Interpretation V) : Opcode → Option (V → V → V)
  | .add => some I.add
  | .sub => some I.sub
  | .mul => some I.mul
  | .div => some I.div
  | .mod => some I.mod
  | .lt => some I.lt
  | .le => some I.le
  | .gt => some I.gt
  | .ge => some I.ge
  | .eq => some I.eq
  | .ne => some I.ne
  | _ => none

/-- The constant at an index that an instruction holds. -/
def constantAt? (cs : List Constant) (i : Int) : Option Constant :=
  if i < 0 then none else cs[i.toNat]?

/-- The effect of an instruction of a frame that calls nothing. -/
def Decoded.effect (I : Interpretation V) (cs : List Constant) (d : Decoded) (m : Slots V) :
    List V → Option (Effect V) :=
  let go := fun stack slots => some (.go ⟨d.next, stack, slots⟩)
  let jump := fun (offset : Int) stack => some (.go ⟨d.pos + offset, stack, m⟩)
  match d.op, d.operands with
  | .constant, [i] => fun σ => (constantAt? cs i).bind fun c => go (I.constant c :: σ) m
  | .getVar, [x] => fun σ => go (m x :: σ) m
  | .declVar, [x, i] => fun σ => (constantAt? cs i).bind fun c => go σ (Function.update m x (I.zero c))
  | .setVar, [x] | .argVar, [x] | .argRef, [x] => fun
    | a :: σ => go σ (Function.update m x a)
    | [] => none
  | .pop, [] => fun
    | _ :: σ => go σ m
    | [] => none
  | .neg, [] => fun
    | a :: σ => go (I.neg a :: σ) m
    | [] => none
  | .not, [] => fun
    | a :: σ => go (I.not a :: σ) m
    | [] => none
  | .jump, [o] | .brk, [o] | .cont, [o] => fun σ => jump o σ
  | .jumpZ, [o] => fun
    | a :: σ => if I.truth a then go σ m else jump o σ
    | [] => none
  | .jumpPeekZ, [o] => fun
    | a :: σ => if I.truth a then go σ m else jump o (a :: σ)
    | [] => none
  | .jumpPeekNZ, [o] => fun
    | a :: σ => if I.truth a then jump o (a :: σ) else go σ m
    | [] => none
  | .initFrame, [_] => fun σ => go σ m
  | .ret, [] => fun _ => some (.leave [] m)
  | .returnVal, [n] => fun σ =>
    if 0 ≤ n ∧ n ≤ σ.length then some (.leave (σ.take n.toNat).reverse m) else none
  | op, [] => fun
    | b :: a :: σ => (I.binary? op).bind fun f => go (f a b :: σ) m
    | _ => none
  | _, _ => fun _ => none

/-- One step of the machine on a list of instructions. -/
def machineStep (I : Interpretation V) (cs : List Constant) (ds : List Decoded) (s : MachineState V) :
    Option (Effect V) :=
  (ds.find? fun d => (d.pos : Int) = s.pc).bind fun d => d.effect I cs s.slots s.stack

/-- Whether the machine leaves the frame with some values and variables after a number of steps. -/
def HaltsIn (I : Interpretation V) (cs : List Constant) (ds : List Decoded) :
    Nat → MachineState V → List V × Slots V → Prop
  | 0, s, r => machineStep I cs ds s = some (.leave r.1 r.2)
  | n + 1, s, r => ∃ s', machineStep I cs ds s = some (.go s') ∧ HaltsIn I cs ds n s' r

/-- Whether the machine leaves the frame with some values and variables. -/
def Halts (I : Interpretation V) (cs : List Constant) (ds : List Decoded) (s : MachineState V)
    (r : List V × Slots V) : Prop :=
  ∃ n, HaltsIn I cs ds n s r

end Weft.Bytecode

/-! ## Structured code and its meaning

The statements and expressions that use variables only: sequences, conditions and loops, and operators on
variables and literals. Their meaning is given on the trees, without instructions.
-/

namespace Weft.Bytecode

open Typed (Expr Chain Call Frame VarDecl Stmt Block Arm)

/-! ## Structured trees -/

mutual

/-- How many values a structured expression leaves on the stack. Operands leave one value each. -/
def yields : Expr → Option Nat
  | .literal .. => some 1
  | .unary _ _ _ x => if yields x = some 1 then some 1 else none
  | .binary _ _ _ x y => if yields x = some 1 ∧ yields y = some 1 then some 1 else none
  | .chain ⟨_, _, _, links⟩ => yieldsAll links
  | .call ⟨_, .readVar _, _, _, _, _, _⟩ => some 1
  | .call ⟨_, .writeVar _, _, _, _, _, children⟩ => if yieldsAll children = some 1 then some 0 else none
  | _ => none

/-- How many values structured expressions leave on the stack, one after the other. -/
def yieldsAll : List Expr → Option Nat
  | [] => some 0
  | x :: xs => (yields x).bind fun n => (yieldsAll xs).map (n + ·)

end

mutual

/-- Whether a statement is structured. -/
def structured : Stmt → Bool
  | .expr x => (yields x).isSome
  | .var ⟨_, _, none⟩ => true
  | .var ⟨_, _, some x⟩ => yields x = some 1
  | .ret _ n values => values.length = n && values.all fun x => yields x = some 1
  | .brk _ | .cont _ => true
  | .block b => structuredBlock b
  | .discard .. | .yield _ => false

/-- Whether statements are structured. -/
def structuredAll : List Stmt → Bool
  | [] => true
  | s :: ss => structured s && structuredAll ss

/-- Whether a block is structured. -/
def structuredBlock : Block → Bool
  | .group _ kind ss => kind = .seq && structuredAll ss
  | .cond _ as none => structuredArms as
  | .cond _ as (some b) => structuredArms as && structuredBlock b
  | .whileLoop _ test body none => yields test = some 1 && structuredBlock body
  | .whileLoop _ test body (some post) => yields test = some 1 && structuredBlock body && structuredBlock post
  | .doLoop _ body test => structuredBlock body && yields test = some 1

/-- Whether the branches of a condition are structured. -/
def structuredArms : List Arm → Bool
  | [] => true
  | ⟨test, body⟩ :: as => yields test = some 1 && structuredBlock body && structuredArms as

end

/-- Whether the body of a function is structured and its parameters have no default values. -/
def structuredFrame (f : Frame) : Bool := structuredAll f.body && f.params.all fun p => p.init.isNone

/-! ## The meaning of expressions -/

section Meaning

variable {V : Type} (I : Interpretation V)

/-- The value of a unary operator. -/
def Interpretation.unary : UnaryOp → V → V
  | .neg => I.neg
  | .not => I.not

/-- The value of a binary operator on both operands. -/
def Interpretation.binary : BinaryOp → V → V → V
  | .add => I.add
  | .sub => I.sub
  | .mul => I.mul
  | .div => I.div
  | .mod => I.mod
  | .lt => I.lt
  | .le => I.le
  | .gt => I.gt
  | .ge => I.ge
  | .eq => I.eq
  | .ne => I.ne
  | .and | .or => fun _ b => b

/-- Whether the first operand of an operator is its value, so that the second one is not evaluated. -/
def Interpretation.decides : BinaryOp → V → Bool
  | .and, a => !I.truth a
  | .or, a => I.truth a
  | _, _ => false

mutual

/-- The values of a structured expression, and the variables after it. -/
def evalExpr : Expr → Slots V → Option (List V × Slots V)
  | .literal _ v _, m => some ([I.constant (Lower.literal v)], m)
  | .unary _ op _ x, m =>
    match evalExpr x m with
    | some ([a], m₁) => some ([I.unary op a], m₁)
    | _ => none
  | .binary _ op _ x y, m =>
    match evalExpr x m with
    | some ([a], m₁) =>
      if I.decides op a then some ([a], m₁)
      else match evalExpr y m₁ with
        | some ([b], m₂) => some ([I.binary op a b], m₂)
        | _ => none
    | _ => none
  | .chain ⟨_, _, _, links⟩, m => evalExprs links m
  | .call ⟨_, .readVar v, _, _, _, _, _⟩, m => some ([m v.slot], m)
  | .call ⟨_, .writeVar v, _, _, _, _, children⟩, m =>
    match evalExprs children m with
    | some ([a], m₁) => some ([], Function.update m₁ v.slot a)
    | _ => none
  | _, _ => none

/-- The values of structured expressions one after the other. -/
def evalExprs : List Expr → Slots V → Option (List V × Slots V)
  | [], m => some ([], m)
  | x :: xs, m =>
    match evalExpr x m with
    | some (vs, m₁) =>
      match evalExprs xs m₁ with
      | some (ws, m₂) => some (vs ++ ws, m₂)
      | none => none
    | none => none

end

/-- The value of a structured expression that has one. -/
def Evaluates (x : Expr) (m : Slots V) (a : V) (m' : Slots V) : Prop := evalExpr I x m = some ([a], m')

/-! ## The meaning of statements -/

/-- How a statement ends. -/
inductive Outcome (V : Type) where
  | normal
  | brk
  | cont
  | ret (values : List V)

/-- Whether a loop goes on after its body. -/
def Outcome.resumes : Outcome V → Bool
  | normal | cont => true
  | brk | ret _ => false

/-- How a loop ends when its body ends it. -/
def Outcome.past : Outcome V → Outcome V
  | ret vs => ret vs
  | _ => normal

/-- A part of a body: a statement or block, the rest of the statements of a block, the rest of the branches
of a condition, or the part of a loop after its body. -/
inductive Part where
  | stmt (s : Stmt)
  | stmts (ss : List Stmt)
  | block (b : Block)
  | arms (line : Nat) (as : List Arm) (other : Option Block)
  | post (line : Nat) (b : Option Block)

/-- What parts of a body do. A `continue` in the part after the body of a loop starts that part again. -/
inductive Exec (st : Store) : Part → Slots V → Outcome V → Slots V → Prop
  | expr {x m vs m'} : evalExpr I x m = some (vs, m') → Exec st (.stmt (.expr x)) m .normal m'
  | declare {l v m t} : typeConst? st v.type = some t →
    Exec st (.stmt (.var ⟨l, v, none⟩)) m .normal (Function.update m v.slot (I.zero t))
  | init {l v x m a m'} : Evaluates I x m a m' →
    Exec st (.stmt (.var ⟨l, v, some x⟩)) m .normal (Function.update m' v.slot a)
  | ret {l n values m vs m'} : evalExprs I values m = some (vs, m') →
    Exec st (.stmt (.ret l n values)) m (.ret vs) m'
  | brk {l m} : Exec st (.stmt (.brk l)) m .brk m
  | cont {l m} : Exec st (.stmt (.cont l)) m .cont m
  | block {b m o m'} : Exec st (.block b) m o m' → Exec st (.stmt (.block b)) m o m'
  | nil {m} : Exec st (.stmts []) m .normal m
  | cons {s ss m m₁ o m₂} : Exec st (.stmt s) m .normal m₁ → Exec st (.stmts ss) m₁ o m₂ →
    Exec st (.stmts (s :: ss)) m o m₂
  | leave {s ss m o m'} : Exec st (.stmt s) m o m' → o ≠ .normal → Exec st (.stmts (s :: ss)) m o m'
  | group {l k ss m o m'} : Exec st (.stmts ss) m o m' → Exec st (.block (.group l k ss)) m o m'
  | cond {l as other m o m'} : Exec st (.arms l as other) m o m' → Exec st (.block (.cond l as other)) m o m'
  | skip {l m} : Exec st (.arms l [] none) m .normal m
  | other {l b m o m'} : Exec st (.block b) m o m' → Exec st (.arms l [] (some b)) m o m'
  | taken {l test body as other m a m₁ o m'} : Evaluates I test m a m₁ → I.truth a = true →
    Exec st (.block body) m₁ o m' → Exec st (.arms l (⟨test, body⟩ :: as) other) m o m'
  | passed {l test body as other m a m₁ o m'} : Evaluates I test m a m₁ → I.truth a = false →
    Exec st (.arms l as other) m₁ o m' → Exec st (.arms l (⟨test, body⟩ :: as) other) m o m'
  | whileStop {l test body post m a m₁} : Evaluates I test m a m₁ → I.truth a = false →
    Exec st (.block (.whileLoop l test body post)) m .normal m₁
  | whileLeave {l test body post m a m₁ o m₂} : Evaluates I test m a m₁ → I.truth a = true →
    Exec st (.block body) m₁ o m₂ → o.resumes = false →
    Exec st (.block (.whileLoop l test body post)) m o.past m₂
  | whilePost {l test body post m a m₁ o m₂ o' m₃} : Evaluates I test m a m₁ → I.truth a = true →
    Exec st (.block body) m₁ o m₂ → o.resumes = true → Exec st (.post l post) m₂ o' m₃ →
    o'.resumes = false → Exec st (.block (.whileLoop l test body post)) m o'.past m₃
  | whileAgain {l test body post m a m₁ o m₂ m₃ o' m₄} : Evaluates I test m a m₁ → I.truth a = true →
    Exec st (.block body) m₁ o m₂ → o.resumes = true → Exec st (.post l post) m₂ .normal m₃ →
    Exec st (.block (.whileLoop l test body post)) m₃ o' m₄ →
    Exec st (.block (.whileLoop l test body post)) m o' m₄
  | doLeave {l body test m o m₁} : Exec st (.block body) m o m₁ → o.resumes = false →
    Exec st (.block (.doLoop l body test)) m o.past m₁
  | doStop {l body test m o m₁ a m₂} : Exec st (.block body) m o m₁ → o.resumes = true →
    Evaluates I test m₁ a m₂ → I.truth a = false → Exec st (.block (.doLoop l body test)) m .normal m₂
  | doAgain {l body test m o m₁ a m₂ o' m₃} : Exec st (.block body) m o m₁ → o.resumes = true →
    Evaluates I test m₁ a m₂ → I.truth a = true → Exec st (.block (.doLoop l body test)) m₂ o' m₃ →
    Exec st (.block (.doLoop l body test)) m o' m₃
  | postNone {l m} : Exec st (.post l none) m .normal m
  | postDone {l b m o m'} : Exec st (.block b) m o m' → o ≠ .cont → Exec st (.post l (some b)) m o m'
  | postAgain {l b m m₁ o m₂} : Exec st (.block b) m .cont m₁ → Exec st (.post l (some b)) m₁ o m₂ →
    Exec st (.post l (some b)) m o m₂

/-- The variables of a frame after its arguments are stored. The first of two parameters with one slot
keeps it. -/
def bindArguments : List VarDecl → List V → Slots V → Slots V
  | p :: ps, a :: as, m => Function.update (bindArguments ps as m) p.var.slot a
  | _, _, m => m

/-- The variables of a frame when its body starts. The instance of a method has the first slot. -/
def enterFrame (f : Frame) (self : Option V) (args : List V) (m : Slots V) : Slots V :=
  match self with
  | none => bindArguments f.params args m
  | some a => Function.update (bindArguments f.params args m) 0 a

/-- What the body of a function returns. A body that ends without a return returns no values. -/
def Returns (st : Store) (body : List Stmt) (m : Slots V) (r : List V × Slots V) : Prop :=
  Exec I st (.stmts body) m (.ret r.1) r.2 ∨ r.1 = [] ∧ Exec I st (.stmts body) m .normal r.2

end Meaning

end Weft.Bytecode
