import Weft.Proofs.Bytecode.Pieces

/-!
# Arities of typed trees

How many values the parts of a typed tree take from the operand stack and leave on it. A tree is well
formed if every part that is used as a value leaves exactly one, every call passes as many arguments as it
says, and what a statement leaves is what the next statements of the list store.
-/

namespace Weft.Typed

namespace Access

/-- How many values an access takes when it passes a number of arguments, those of its children
included. -/
def takes (args : Nat) : Access → Nat
  | readVar _ | varRef _ | readGlobal _ | funcRef _ => 0
  | readField _ | readNative _ | writeVar _ | writeGlobal _ => 1
  | writeField _ | initField _ | arrayGet | mapGet => 2
  | arraySet | mapSet => 3
  | func _ => args
  | method _ | methodNative _ | methodVirtual _ | methodIface _ | funcPtr => args + 1

/-- How many values an access of a type leaves. The instance whose field is initialised stays. -/
def leaves (type : Option Ty) : Access → Nat
  | writeVar _ | writeGlobal _ | writeField _ | arraySet | mapSet => 0
  | func _ | method _ | methodNative _ | methodVirtual _ | methodIface _ | funcPtr =>
    (type.map Ty.valueCount).getD 0
  | readVar _ | varRef _ | readGlobal _ | readField _ | readNative _ | funcRef _ | initField _
  | arrayGet | mapGet => 1

/-- Whether an access has no children. -/
def isLeaf : Access → Bool
  | readVar _ | varRef _ | readGlobal _ | readField _ | readNative _ | funcRef _ => true
  | _ => false

/-- Whether an access calls a function in the code of a program. Native properties are read by calls. -/
def isCall (s : Store) : Access → Bool
  | func _ | method _ | methodNative _ | methodVirtual _ | methodIface _ | funcPtr | readNative _ => true
  | readField f => (s.field f).native
  | _ => false

end Access

mutual

/-- How many values are on the stack after an expression that finds a number of values there. There is no
answer for an expression that is not well formed. -/
def Expr.after : Expr → Nat → Option Nat
  | .literal .., n => some (n + 1)
  | .unary _ _ _ x, n => if x.after 0 = some 1 then some (n + 1) else none
  | .binary _ _ _ x y, n => if x.after 0 = some 1 ∧ y.after 0 = some 1 then some (n + 1) else none
  | .chain ⟨_, _, _, links⟩, n => exprsAfter links n
  | .call c, n => c.after n
  | .cast _ _ _ x, n => if x.after 0 = some 1 then some (n + 1) else none
  | .new _ _ inits, n => if callsAfter inits 1 = some 1 then some (n + 1) else none
  | .collection _ _ items, n => if areItems items then some (n + 1) else none
  | .lambda fn, n => if fn.isBalanced then some (n + 1) else none

/-- How many values are on the stack after expressions one after the other. -/
def exprsAfter : List Expr → Nat → Option Nat
  | [], n => some n
  | x :: xs, n => (x.after n).bind (exprsAfter xs)

/-- Whether each of some expressions leaves one value. -/
def areValues : List Expr → Bool
  | [] => true
  | x :: xs => x.after 0 = some 1 && areValues xs

/-- How many values are on the stack after an access. It takes those of its children and, where these are
not enough, those that were there before. -/
def Call.after : Call → Nat → Option Nat
  | ⟨_, a, _, t, args, _, kids⟩, n =>
    if areValues kids ∧ (a.isLeaf → kids.isEmpty) ∧ (a.kind.isCall → args.count = kids.length) ∧
        a.takes args.count ≤ n + kids.length then
      some (n + kids.length - a.takes args.count + a.leaves t)
    else none

/-- How many values are on the stack after accesses one after the other. -/
def callsAfter : List Call → Nat → Option Nat
  | [], n => some n
  | c :: cs, n => (c.after n).bind (callsAfter cs)

/-- Whether the elements and entries of a collection leave one value each. -/
def areItems : List Append → Bool
  | [] => true
  | .element _ x :: rest => x.after 0 = some 1 && areItems rest
  | .entry _ k v :: rest => k.after 0 = some 1 && v.after 0 = some 1 && areItems rest

/-- Whether the defaults and the body of a lambda are well formed. -/
def Lambda.isBalanced : Lambda → Bool
  | ⟨_, _, _, ⟨_, ps, _, body⟩⟩ => areDefaults ps && stmtsAfter 0 body 0 = some 0

/-- Whether the defaults of parameters leave one value each. -/
def areDefaults : List VarDecl → Bool
  | [] => true
  | ⟨_, _, none⟩ :: rest => areDefaults rest
  | ⟨_, _, some x⟩ :: rest => x.after 0 = some 1 && areDefaults rest

/-- How many values are on the stack after a statement. A jump to an end of the loop around it is made
with as many values as the loop found. -/
def Stmt.after (loop : Nat) : Stmt → Nat → Option Nat
  | .expr x, n => x.after n
  | .discard _ k x, n => if x.after 0 = some k then some n else none
  | .var ⟨_, _, none⟩, n => some n
  | .var ⟨_, _, some x⟩, n => if x.after 0 = some 1 then some n else none
  | .ret _ k values, n => if n = 0 ∧ exprsAfter values 0 = some k then some n else none
  | .brk _, n => if n = loop then some n else none
  | .cont _, n => if n = loop then some n else none
  | .yield _, n => some n
  | .block b, n => if b.keeps loop n then some n else none

/-- How many values are on the stack after statements one after the other. -/
def stmtsAfter (loop : Nat) : List Stmt → Nat → Option Nat
  | [], n => some n
  | s :: ss, n => (s.after loop n).bind (stmtsAfter loop ss)

/-- Whether a block leaves the number of values on the stack as it finds it. -/
def Block.keeps (loop : Nat) : Block → Nat → Bool
  | .group _ _ ss, n => stmtsAfter loop ss n = some n
  | .cond _ arms none, n => armsKeep loop arms n
  | .cond _ arms (some b), n => armsKeep loop arms n && b.keeps loop n
  | .whileLoop _ test body none, n => test.after 0 = some 1 && body.keeps n n
  | .whileLoop _ test body (some post), n =>
    test.after 0 = some 1 && body.keeps n n && post.keeps n n
  | .doLoop _ body test, n => body.keeps n n && test.after 0 = some 1

/-- Whether the conditions of branches leave one value each and their bodies none. -/
def armsKeep (loop : Nat) : List Arm → Nat → Bool
  | [], _ => true
  | ⟨test, body⟩ :: arms, n => test.after 0 = some 1 && body.keeps loop n && armsKeep loop arms n

end

mutual

/-- What the calls and lambdas of an expression do to the stack, in the order of their instructions: how
many values a call leaves, how many parameters a lambda finds. -/
def Expr.counts (s : Store) : Expr → List Nat
  | .literal .. => []
  | .unary _ _ _ x | .cast _ _ _ x => x.counts s
  | .binary _ _ _ x y => x.counts s ++ y.counts s
  | .chain ⟨_, _, _, links⟩ => exprsCounts s links
  | .call c => c.counts s
  | .new _ _ inits => callsCounts s inits
  | .collection _ _ items => appendsCounts s items
  | .lambda fn => fn.counts s

/-- The counts of expressions one after the other. -/
def exprsCounts (s : Store) : List Expr → List Nat
  | [] => []
  | x :: xs => x.counts s ++ exprsCounts s xs

/-- The counts of an access. -/
def Call.counts (s : Store) : Call → List Nat
  | ⟨_, a, _, t, _, _, kids⟩ => exprsCounts s kids ++ if a.isCall s then [a.leaves t] else []

/-- The counts of accesses one after the other. -/
def callsCounts (s : Store) : List Call → List Nat
  | [] => []
  | c :: cs => c.counts s ++ callsCounts s cs

/-- The counts of the elements and entries of a collection. -/
def appendsCounts (s : Store) : List Append → List Nat
  | [] => []
  | .element _ x :: rest => x.counts s ++ appendsCounts s rest
  | .entry _ k v :: rest => k.counts s ++ v.counts s ++ appendsCounts s rest

/-- The counts of a lambda, its own first. -/
def Lambda.counts (s : Store) : Lambda → List Nat
  | ⟨_, _, _, ⟨_, ps, _, body⟩⟩ => ps.length :: (paramsCounts s ps ++ stmtsCounts s body)

/-- The counts of the defaults of parameters, those of the last parameter first. -/
def paramsCounts (s : Store) : List VarDecl → List Nat
  | [] => []
  | ⟨_, _, none⟩ :: rest => paramsCounts s rest
  | ⟨_, _, some x⟩ :: rest => paramsCounts s rest ++ x.counts s

/-- The counts of a statement. -/
def Stmt.counts (s : Store) : Stmt → List Nat
  | .expr x | .discard _ _ x | .var ⟨_, _, some x⟩ => x.counts s
  | .ret _ _ values => exprsCounts s values
  | .block b => b.counts s
  | .var ⟨_, _, none⟩ | .brk _ | .cont _ | .yield _ => []

/-- The counts of statements one after the other. -/
def stmtsCounts (s : Store) : List Stmt → List Nat
  | [] => []
  | x :: xs => x.counts s ++ stmtsCounts s xs

/-- The counts of a block. -/
def Block.counts (s : Store) : Block → List Nat
  | .group _ _ ss => stmtsCounts s ss
  | .cond _ arms none => armsCounts s arms
  | .cond _ arms (some b) => armsCounts s arms ++ b.counts s
  | .whileLoop _ test body none => test.counts s ++ body.counts s
  | .whileLoop _ test body (some post) => test.counts s ++ body.counts s ++ post.counts s
  | .doLoop _ body test => body.counts s ++ test.counts s

/-- The counts of branches one after the other. -/
def armsCounts (s : Store) : List Arm → List Nat
  | [] => []
  | ⟨test, body⟩ :: arms => test.counts s ++ body.counts s ++ armsCounts s arms

end

/-- Whether the defaults and the body of a function are well formed. -/
def Frame.isBalanced (f : Frame) : Bool := areDefaults f.params && stmtsAfter 0 f.body 0 = some 0

/-- The counts of a function. -/
def Frame.counts (s : Store) (f : Frame) : List Nat := paramsCounts s f.params ++ stmtsCounts s f.body

/-- How many values a function finds on the stack: its parameters and, in a method, the instance. -/
def FuncDecl.arity (s : Store) (d : FuncDecl) : Nat :=
  ((d.frame.map fun f => f.params.length).getD 0) + if (s.func d.symbol).owner.isSome then 1 else 0

/-- Whether a declaration is well formed. -/
def Decl.isBalanced : Decl → Bool
  | .importing .. | .global _ _ none => true
  | .global _ _ (some x) => x.after 0 = some 1
  | .func d => d.frame.all Frame.isBalanced
  | .cls _ _ methods => methods.all fun d => d.frame.all Frame.isBalanced

/-- Whether all declarations of a program are well formed. -/
def Program.isBalanced (p : Program) : Bool := p.decls.all Decl.isBalanced

/-- The counts of the code that initialises a module. -/
def Decl.initCounts (s : Store) : Decl → List Nat
  | .global _ _ (some x) => x.counts s
  | _ => []

/-- The counts of a program in a section. -/
def Program.counts (s : Store) (p : Program) : Bytecode.Section → List Nat
  | .init => p.decls.flatMap (Decl.initCounts s)
  | .code => p.funcs.flatMap fun d => (d.frame.map (Frame.counts s)).getD []

end Weft.Typed
