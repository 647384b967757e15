import Weft.Proofs.Bytecode.Arity

/-!
# Answers of typed trees

The lambdas of a typed tree, what its statements return, and whether they return on every path. A function answers a
type if each of its returns gives as many values as the type has, and if it returns on every path unless the type is
void.
-/

namespace Weft

namespace Typed

mutual

/-- The lambdas of an expression in the order of their instructions, each before those inside it. -/
def Expr.lambdas : Expr → List Lambda
  | .literal .. => []
  | .unary _ _ _ x | .cast _ _ _ x => x.lambdas
  | .binary _ _ _ x y => x.lambdas ++ y.lambdas
  | .chain ⟨_, _, _, links⟩ => exprsLambdas links
  | .call c => c.lambdas
  | .new _ _ inits => callsLambdas inits
  | .collection _ _ items => appendsLambdas items
  | .lambda fn => fn.lambdas

/-- The lambdas of expressions one after the other. -/
def exprsLambdas : List Expr → List Lambda
  | [] => []
  | x :: xs => x.lambdas ++ exprsLambdas xs

/-- The lambdas of an access. There is no code for children of a leaf. -/
def Call.lambdas : Call → List Lambda
  | ⟨_, a, _, _, _, _, kids⟩ => if a.isLeaf then [] else exprsLambdas kids

/-- The lambdas of accesses one after the other. -/
def callsLambdas : List Call → List Lambda
  | [] => []
  | c :: cs => c.lambdas ++ callsLambdas cs

/-- The lambdas of the elements and entries of a collection. -/
def appendsLambdas : List Append → List Lambda
  | [] => []
  | .element _ x :: rest => x.lambdas ++ appendsLambdas rest
  | .entry _ k v :: rest => k.lambdas ++ v.lambdas ++ appendsLambdas rest

/-- A lambda with the lambdas inside it. -/
def Lambda.lambdas : Lambda → List Lambda
  | ⟨line, sig, upvals, ⟨slots, ps, bodyLine, body⟩⟩ =>
    ⟨line, sig, upvals, ⟨slots, ps, bodyLine, body⟩⟩ :: (paramsLambdas ps ++ stmtsLambdas body)

/-- The lambdas of the defaults of parameters, those of the last parameter first. -/
def paramsLambdas : List VarDecl → List Lambda
  | [] => []
  | ⟨_, _, none⟩ :: rest => paramsLambdas rest
  | ⟨_, _, some x⟩ :: rest => paramsLambdas rest ++ x.lambdas

/-- The lambdas of a statement. -/
def Stmt.lambdas : Stmt → List Lambda
  | .expr x | .discard _ _ x | .var ⟨_, _, some x⟩ => x.lambdas
  | .ret _ _ values => exprsLambdas values
  | .block b => b.lambdas
  | .var ⟨_, _, none⟩ | .brk _ | .cont _ | .yield _ => []

/-- The lambdas of statements one after the other. -/
def stmtsLambdas : List Stmt → List Lambda
  | [] => []
  | x :: xs => x.lambdas ++ stmtsLambdas xs

/-- The lambdas of a block. -/
def Block.lambdas : Block → List Lambda
  | .group _ _ ss => stmtsLambdas ss
  | .cond _ arms none => armsLambdas arms
  | .cond _ arms (some b) => armsLambdas arms ++ b.lambdas
  | .whileLoop _ test body none => test.lambdas ++ body.lambdas
  | .whileLoop _ test body (some post) => test.lambdas ++ body.lambdas ++ post.lambdas
  | .doLoop _ body test => body.lambdas ++ test.lambdas

/-- The lambdas of branches one after the other. -/
def armsLambdas : List Arm → List Lambda
  | [] => []
  | ⟨test, body⟩ :: arms => test.lambdas ++ body.lambdas ++ armsLambdas arms

end

/-- The lambdas of a function. -/
def Frame.lambdas (f : Frame) : List Lambda := paramsLambdas f.params ++ stmtsLambdas f.body

/-- The lambdas of the initial value of a global variable. -/
def Decl.initLambdas : Decl → List Lambda
  | .global _ _ (some x) => x.lambdas
  | _ => []

/-- The lambdas of a program in a section. -/
def Program.lambdas (p : Program) : Bytecode.Section → List Lambda
  | .init => p.decls.flatMap Decl.initLambdas
  | .code => p.funcs.flatMap fun d => (d.frame.map Frame.lambdas).getD []

/-! ## Returns -/

mutual

/-- Whether control never goes on after a statement. Loops and parallel blocks never count. -/
def Stmt.returns : Stmt → Bool
  | .ret .. => true
  | .block b => b.returns
  | .expr _ | .discard .. | .var _ | .brk _ | .cont _ | .yield _ => false

/-- Whether control never goes on after a block. -/
def Block.returns : Block → Bool
  | .group _ .seq ss => someReturns ss
  | .cond _ arms (some b) => allReturn arms && b.returns
  | .group .. | .cond _ _ none | .whileLoop .. | .doLoop .. => false

/-- Whether control goes on after none of some branches. -/
def allReturn : List Arm → Bool
  | [] => true
  | ⟨_, body⟩ :: arms => body.returns && allReturn arms

/-- Whether control never goes on after one of some statements. -/
def someReturns : List Stmt → Bool
  | [] => false
  | x :: xs => x.returns || someReturns xs

end

mutual

/-- How many values the returns of a statement give, one after the other. Those of lambdas are left out. -/
def Stmt.results : Stmt → List Nat
  | .ret _ n _ => [n]
  | .block b => b.results
  | .expr _ | .discard .. | .var _ | .brk _ | .cont _ | .yield _ => []

/-- How many values the returns of a block give. -/
def Block.results : Block → List Nat
  | .group _ _ ss => stmtsResults ss
  | .cond _ arms none => armsResults arms
  | .cond _ arms (some b) => armsResults arms ++ b.results
  | .whileLoop _ _ body none => body.results
  | .whileLoop _ _ body (some post) => body.results ++ post.results
  | .doLoop _ body _ => body.results

/-- How many values the returns of some branches give. -/
def armsResults : List Arm → List Nat
  | [] => []
  | ⟨_, body⟩ :: arms => body.results ++ armsResults arms

/-- How many values the returns of some statements give. -/
def stmtsResults : List Stmt → List Nat
  | [] => []
  | x :: xs => x.results ++ stmtsResults xs

end

/-- A function answers a type: its returns give as many values as the type has, and unless the type is void, it has
values and the function returns on every path. -/
structure Frame.Answers (t : Ty) (f : Frame) : Prop where
  results : ∀ n ∈ stmtsResults f.body, n = t.valueCount
  returns : t ≠ .void → t.valueCount ≠ 0 ∧ someReturns f.body = true

/-- A lambda answers the type that its signature says. -/
def Lambda.Answers (fn : Lambda) : Prop := fn.frame.Answers fn.sig.returns

end Typed

end Weft
