import Weft.Proofs.Bytecode.Answers
import Weft.Proofs.Bytecode.Nesting

/-!
# Lambdas in code

The lambdas of the code of a typed tree are those of the tree, in the same order. The code of each of them stands
undivided in the code of the tree, whatever is around it.
-/

namespace Weft

namespace Bytecode

open Typed (Expr Chain Call Append Lambda Frame VarDecl Stmt Block Arm)
open Typed (exprsLambdas callsLambdas appendsLambdas paramsLambdas stmtsLambdas armsLambdas)

/-! ## Parts of code -/

/-- A part stands at a place of code. -/
def Holds (code : List Piece) (i : Nat) (part : List Piece) : Prop :=
  ∀ (j : Nat) q, part[j]? = some q → code[i + j]? = some q

/-- The places of the lambdas of code. -/
def lambdaPlaces : List Piece → List Nat
  | [] => []
  | q :: code => (if q.op = .lambda then [0] else []) ++ (lambdaPlaces code).map (· + 1)

/-- The lambdas of code are some lambdas in this order, each with its whole code. -/
def Makes (c : Store × Module) (code : List Piece) (fns : List Lambda) : Prop :=
  List.Forall₂ (fun fn i => Holds code i (lambdaCode c fn)) fns (lambdaPlaces code)

section Parts

variable {a b code part : List Piece} {i : Nat}

theorem Holds.refl (code : List Piece) : Holds code 0 code := fun _ _ h => by simpa using h

theorem Holds.append (h : Holds a i part) (b : List Piece) : Holds (a ++ b) i part :=
  fun j q hq => getElem?_append_cases.mpr (.inl (h j q hq))

theorem Holds.after (h : Holds b i part) (a : List Piece) : Holds (a ++ b) (a.length + i) part :=
  fun j q hq => getElem?_append_cases.mpr (.inr ⟨i + j, Nat.add_assoc .., h j q hq⟩)

/-- A part of a part is a part. -/
theorem Holds.trans {j : Nat} (h : Holds code i a) (h' : Holds a j b) : Holds code (i + j) b := by
  intro k q hq
  rw [Nat.add_assoc]
  exact h _ q (h' k q hq)

theorem lambdaPlaces_append : lambdaPlaces (a ++ b) = lambdaPlaces a ++ (lambdaPlaces b).map (a.length + ·) := by
  induction a with
  | nil => simp [lambdaPlaces]
  | cons q a ih =>
    simp only [List.cons_append, lambdaPlaces, ih, List.map_append, List.map_map, List.append_assoc,
      List.length_cons]
    congr 3
    funext k
    simp only [Function.comp_apply]
    omega

/-- The places of lambdas are determined by the opcodes. -/
theorem lambdaPlaces_congr (h : b.map Piece.op = a.map Piece.op) : lambdaPlaces b = lambdaPlaces a := by
  induction a generalizing b with
  | nil =>
    obtain rfl : b = [] := by simpa using h
    rfl
  | cons q a ih =>
    cases b with
    | nil => simp at h
    | cons r b =>
      obtain ⟨hop, hrest⟩ : r.op = q.op ∧ b.map Piece.op = a.map Piece.op := by simpa using h
      rw [lambdaPlaces, lambdaPlaces, hop, ih hrest]

end Parts

/-! ## Lambdas of parts -/

theorem not_lambda_mark {line : Nat} : (Piece.mark line).op ≠ .lambda := by
  simp [Piece.mark, Piece.plain]

section Makes

variable {c : Store × Module} {a b code : List Piece} {xs ys : List Lambda}

theorem Makes.nil : Makes c [] [] := List.Forall₂.nil

theorem Makes.append (ha : Makes c a xs) (hb : Makes c b ys) : Makes c (a ++ b) (xs ++ ys) := by
  rw [Makes, lambdaPlaces_append]
  refine List.rel_append (ha.imp fun _ _ h => h.append b) ?_
  rw [List.forall₂_map_right_iff]
  exact hb.imp fun _ _ h => h.after a

/-- Code without lambdas after some code. -/
theorem Makes.followed (ha : Makes c a xs) (hb : Makes c b []) : Makes c (a ++ b) xs := by
  simpa using ha.append hb

theorem Makes.one {q : Piece} (h : q.op ≠ .lambda) : Makes c [q] [] := by
  simp [Makes, lambdaPlaces, h]

theorem Makes.cons {q : Piece} (h : q.op ≠ .lambda) (hb : Makes c b ys) : Makes c (q :: b) ys := (Makes.one h).append hb

theorem Makes.ofSimple (h : ∀ q ∈ code, q.Simple) : Makes c code [] := by
  induction code with
  | nil => exact .nil
  | cons q code ih => exact .cons (h q (by simp)).not_lambda (ih fun r hr => h r (by simp [hr]))

theorem Makes.plain {op : Opcode} {line : Nat} {vs : List Int} (h : op ≠ .lambda) : Makes c [.plain op line vs] [] := .one h

theorem Makes.mark {line : Nat} : Makes c [.mark line] [] := .plain (by decide)

theorem Makes.withConst {op : Opcode} {line : Nat} {vs : List Int} {v : Option Constant} (h : op ≠ .lambda) :
    Makes c [.withConst op line vs v] [] := .one h

theorem idle_holds {i : Nat} {fn : Lambda} {code' : List Piece} (h : Holds code i (lambdaCode c fn))
    (hsame : ∀ {k : Nat} {q}, code[k]? = some q → ¬q.Waits → code'[k]? = some q) : Holds code' i (lambdaCode c fn) :=
  fun j q hq => hsame (h j q hq) (idle_lambda fn q (List.mem_of_getElem? hq))

/-- What waits for the ends of a loop is in no lambda. -/
theorem Makes.settle {exit next : Nat} (h : Makes c code xs) : Makes c (settleLoop exit next code) xs := by
  have hops : (settleLoop exit next code).map Piece.op = code.map Piece.op := by
    apply List.ext_getElem?
    intro k
    simp only [settleLoop, List.getElem?_map, List.getElem?_mapIdx, Option.map_map]
    congr 1
    funext q
    simp only [Function.comp_apply, Piece.settle]
    split <;> rfl
  rw [Makes, lambdaPlaces_congr hops]
  refine h.imp fun fn i hh => idle_holds hh fun {k q} hq hw => ?_
  exact getElem?_settleLoop.mpr ⟨q, hq, (settle_of_not_waits hw).symm⟩

theorem Makes.alone (h : Makes c code xs) : Makes c (code.map Piece.alone) xs := by
  have hops : (code.map Piece.alone).map Piece.op = code.map Piece.op := by
    rw [List.map_map]
    exact List.map_congr_left fun q _ => q.op_alone
  rw [Makes, lambdaPlaces_congr hops]
  refine h.imp fun fn i hh => idle_holds hh fun {k q} hq hw => ?_
  rw [List.getElem?_map, hq, Option.map_some, alone_of_not_waits hw]

theorem makes_closeCode {line : Nat} (h : Makes c code xs) : Makes c (closeCode line code) xs := by
  have hlast : Makes c (if code.getLast?.any (·.op.isReturn) then [] else [.plain .ret line []]) [] := by
    split
    · exact .nil
    · exact .plain (by decide)
  exact h.alone.followed hlast

theorem makes_groupCode {keep : Bool} {line : Nat} {number : Int} {body : List Piece} (h : Makes c body xs) :
    Makes c (groupCode keep line number body) xs := by
  have hrest : Makes c (body ++ [Piece.mark line]) xs := h.followed .mark
  unfold groupCode
  cases keep with
  | true => exact .cons (by simp [Piece.leading]) hrest
  | false => exact .cons (by simp [Piece.mark, Piece.plain]) hrest

theorem makes_whileCode {line : Nat} {test body post : List Piece} {zs : List Lambda} (ht : Makes c test xs)
    (hb : Makes c body ys) (hp : Makes c post zs) : Makes c (whileCode line test body post) (xs ++ ys ++ zs) := by
  have hloop : Makes c (body ++ Piece.mark line :: post ++
      [Piece.leading .jump line [0] (.ahead (-(test.length + body.length + post.length + 3 : Int))), Piece.mark line]) (ys ++ zs) := by
    exact (hb.append (.cons not_lambda_mark hp)).followed (.cons (by simp [Piece.leading]) .mark)
  have htop : Makes c (Piece.mark line :: test ++ [Piece.leading .jumpZ line [0] (.ahead (body.length + post.length + 3))]) xs :=
    Makes.followed (.cons not_lambda_mark ht) (.cons (by simp [Piece.leading]) .nil)
  simpa [whileCode] using htop.append hloop.settle

theorem makes_doCode {line : Nat} {test body : List Piece} (hb : Makes c body xs) (ht : Makes c test ys) :
    Makes c (doCode line body test) (xs ++ ys) := by
  have hloop : Makes c (body ++ Piece.mark line :: test ++ [Piece.leading .jumpZ line [0] (.ahead 2),
      Piece.leading .jump line [0] (.ahead (-(body.length + test.length + 3 : Int))), Piece.mark line]) (xs ++ ys) := by
    exact (hb.append (.cons not_lambda_mark ht)).followed
      (.cons (by simp [Piece.leading]) (.cons (by simp [Piece.leading]) .mark))
  exact .cons not_lambda_mark hloop.settle

theorem makes_armCode {line testLine : Nat} {test body leave : List Piece} (ht : Makes c test xs) (hb : Makes c body ys)
    (hl : Makes c leave []) : Makes c (armCode line testLine test body leave) (xs ++ ys) := by
  have hrest : Makes c (body ++ leave ++ [Piece.mark line]) ys := (hb.followed hl).followed .mark
  exact ht.append (.cons (by simp [Piece.leading]) hrest)

theorem makes_leaveCode {leaves : Bool} {line : Nat} {goal : Option Goal} : Makes c (leaveCode leaves line goal) [] := by
  unfold leaveCode
  split
  · exact .one (by simp)
  · exact .nil

theorem makes_accessCode {line : Nat} {acc : Typed.Access} {bits : Int} {kids : List Piece} (h : Makes c kids xs) :
    Makes c (accessCode c line acc bits kids) (if acc.isLeaf then [] else xs) := by
  obtain ⟨x, y, hx, hy, he⟩ := accessCode_shape (c := c) line acc bits kids
  rw [he]
  have hkids : Makes c (if acc.isLeaf then [] else kids) (if acc.isLeaf then [] else xs) := by
    split
    · exact .nil
    · exact h
  exact ((Makes.ofSimple hx).append hkids).followed (.ofSimple hy)

theorem makes_argPiece {line : Nat} {v : LocalVar} : Makes c [argPiece line v] [] :=
  .plain (by cases v.ref <;> decide)

/-! ## Lambdas of trees -/

mutual

/-- The lambdas of the code of an expression are those of the expression. -/
theorem makes_expr : (x : Expr) → Makes c (exprCode c x) x.lambdas
  | .literal _ _ _ => .withConst (by decide)
  | .unary _ op _ x => (makes_expr x).followed (.plain (by cases op <;> decide))
  | .binary line op _ x y => by
    have hop : Lower.binaryOpcode op ≠ .lambda := by cases op <;> decide
    have hy : Makes c (exprCode c y ++ [Piece.mark line]) y.lambdas := (makes_expr y).followed .mark
    simp only [exprCode, Expr.lambdas]
    split
    · exact (makes_expr x).append (.cons hop hy)
    · exact ((makes_expr x).append (makes_expr y)).followed (.plain hop)
  | .chain ⟨_, _, _, links⟩ => makes_exprs links
  | .call x => makes_call x
  | .cast _ kind _ x => (makes_expr x).followed (.withConst (by cases kind <;> decide))
  | .new _ _ inits => .cons (by simp [Piece.withConst]) (makes_calls inits)
  | .collection _ _ items => .cons (by simp [Piece.withConst]) (makes_appends items)
  | .lambda fn => makes_lambda fn

theorem makes_exprs : (xs : List Expr) → Makes c (exprsCode c xs) (exprsLambdas xs)
  | [] => .nil
  | x :: xs => (makes_expr x).append (makes_exprs xs)

theorem makes_call : (x : Call) → Makes c (callCode c x) x.lambdas
  | ⟨_, _, _, _, _, _, children⟩ => makes_accessCode (makes_exprs children)

theorem makes_calls : (xs : List Call) → Makes c (callsCode c xs) (callsLambdas xs)
  | [] => .nil
  | x :: xs => (makes_call x).append (makes_calls xs)

theorem makes_appends : (xs : List Append) → Makes c (appendsCode c xs) (appendsLambdas xs)
  | [] => .nil
  | .element _ x :: rest => (makes_expr x).append (.cons (by simp [Piece.plain]) (makes_appends rest))
  | .entry _ k v :: rest =>
    ((makes_expr k).append (makes_expr v)).append (.cons (by simp [Piece.plain]) (makes_appends rest))

theorem makes_lambda : (x : Lambda) → Makes c (lambdaCode c x) x.lambdas
  | ⟨line, sig, upvals, ⟨slots, ps, bodyLine, body⟩⟩ => by
    let last := Lower.lastLine ⟨slots, ps, bodyLine, body⟩
    let inner := Piece.plain .initFrame line [(slots : Int)] ::
      (paramsCode c (Lower.firstDefault ps) 0 ps ++ closeCode last (stmtsCode c false body))
    let ups := upvals.map fun u => Piece.plain .useUpval line [(u.src : Int), u.dst, if u.copied then 0 else 1]
    have hups : Makes c ups [] := by
      refine .ofSimple fun q hq => ?_
      obtain ⟨u, -, rfl⟩ := List.mem_map.mp hq
      exact simple_plain (by decide)
    have hinner : Makes c inner (paramsLambdas ps ++ stmtsLambdas body) :=
      .cons (by simp [Piece.plain]) ((makes_params ps).append (makes_closeCode (makes_stmts body)))
    have hrest : Makes c (inner ++ Piece.mark line :: ups) (paramsLambdas ps ++ stmtsLambdas body) :=
      hinner.followed (.cons not_lambda_mark hups)
    -- the lambda itself is the code as a whole, and its inner lambdas come after its first instruction
    let whole := Piece.leading .lambda line [0] (.ahead (inner.length + 1)) :: (inner ++ Piece.mark line :: ups)
    have hcode : lambdaCode c ⟨line, sig, upvals, ⟨slots, ps, bodyLine, body⟩⟩ = whole := by rw [lambdaCode]
    rw [Makes, Lambda.lambdas, hcode]
    refine .cons (hcode ▸ Holds.refl _) (List.forall₂_map_right_iff.mpr (hrest.imp fun fn i h => ?_))
    rw [Nat.add_comm]
    exact h.after [_]

theorem makes_params {first i : Nat} : (ps : List VarDecl) → Makes c (paramsCode c first i ps) (paramsLambdas ps)
  | [] => .nil
  | ⟨_, _, none⟩ :: rest => (makes_params rest).followed makes_argPiece
  | ⟨_, _, some x⟩ :: rest =>
    (makes_params rest).append (.cons (by simp [Piece.leading])
      ((makes_expr x).followed (.cons not_lambda_mark makes_argPiece)))

theorem makes_stmt {under : Bool} : (x : Stmt) → Makes c (stmtCode c under x) x.lambdas
  | .expr x => makes_expr x
  | .discard _ _ x => by
    refine (makes_expr x).followed (.ofSimple fun q hq => ?_)
    rw [List.eq_of_mem_replicate hq]
    exact simple_plain (by decide)
  | .var ⟨_, _, none⟩ => .withConst (by decide)
  | .var ⟨_, _, some x⟩ => (makes_expr x).followed (.plain (by decide))
  | .ret line n values => by
    have hlast : Makes c [if n = 0 then Piece.plain .ret line [] else .plain .returnVal line [(n : Int)]] [] := by
      split
      · exact .plain (by decide)
      · exact .plain (by decide)
    exact (makes_exprs values).followed hlast
  | .brk _ => .one (by simp [Piece.leading])
  | .cont _ => .one (by simp [Piece.leading])
  | .yield _ => .plain (by decide)
  | .block b => makes_block b

theorem makes_stmts {under : Bool} : (xs : List Stmt) → Makes c (stmtsCode c under xs) (stmtsLambdas xs)
  | [] => .nil
  | x :: xs => (makes_stmt x).append (makes_stmts xs)

theorem makes_branches : (xs : List Stmt) → Makes c (branchesCode c xs) (stmtsLambdas xs)
  | [] => .nil
  | x :: xs => by
    rw [branchesCode, stmtsLambdas]
    split
    · exact (makes_stmt x).append (makes_branches xs)
    · exact (makes_groupCode (makes_stmt x)).append (makes_branches xs)

theorem makes_block {under : Bool} : (b : Block) → Makes c (blockCode c under b) b.lambdas
  | .group _ _ ss => by
    rw [blockCode, Block.lambdas]
    split
    · exact makes_groupCode (makes_branches ss)
    · exact makes_groupCode (makes_stmts ss)
  | .cond _ as none => (makes_arms as).followed .mark
  | .cond _ as (some b) => ((makes_arms as).append (makes_block b)).followed .mark
  | .whileLoop _ test body none => by
    rw [blockCode, Block.lambdas]
    simpa using makes_whileCode (makes_expr test) (makes_block body) .nil
  | .whileLoop _ test body (some post) => makes_whileCode (makes_expr test) (makes_block body) (makes_block post)
  | .doLoop _ body test => makes_doCode (makes_block body) (makes_expr test)

theorem makes_arms {under more : Bool} {line rest : Nat} :
    (as : List Arm) → Makes c (armsCode c under line more rest as) (armsLambdas as)
  | [] => .nil
  | ⟨test, body⟩ :: as => by
    rw [armsCode, armsLambdas]
    exact (makes_armCode (makes_expr test) (makes_block body) makes_leaveCode).append (makes_arms as)

end

/-! ## Lambdas of programs -/

theorem makes_funcCode (d : Typed.FuncDecl) : Makes c (funcCode c d) ((d.frame.map Frame.lambdas).getD []) := by
  unfold funcCode
  cases d.frame with
  | none => exact .nil
  | some f =>
    have hthis : Makes c (if (c.1.func d.symbol).owner.isSome then [Piece.plain .argVar d.line [0]] else []) [] := by
      split
      · exact .plain (by decide)
      · exact .nil
    have hframe : Makes c (paramsCode c (Lower.firstDefault f.params) 0 f.params ++
        if (c.1.func d.symbol).owner.isSome then [Piece.plain .argVar d.line [0]] else []) (paramsLambdas f.params) :=
      (makes_params f.params).followed hthis
    exact .cons (by simp [Piece.plain]) (hframe.append (makes_closeCode (makes_stmts f.body)))

theorem makes_flatMap {α : Type} {f : α → List Piece} {g : α → List Lambda} (h : ∀ x, Makes c (f x) (g x)) (l : List α) :
    Makes c (l.flatMap f) (l.flatMap g) := by
  induction l with
  | nil => exact .nil
  | cons x l ih =>
    rw [List.flatMap_cons, List.flatMap_cons]
    exact (h x).append ih

/-- The lambdas of the code of a program are those of the program. -/
theorem makes_program (p : Typed.Program) (part : Section) : Makes c (programCode c p part) (p.lambdas part) := by
  cases part with
  | code => exact makes_flatMap makes_funcCode p.funcs
  | init =>
    have hdecl : ∀ d : Typed.Decl, Makes c (initCode c d) d.initLambdas := by
      intro d
      unfold initCode
      split
      · exact .withConst (by decide)
      · exact .nil
      · exact .nil
      · exact .nil
      · exact (makes_expr _).followed (.plain (by decide))
    exact (makes_flatMap hdecl p.decls).followed (.plain (by decide))

end Makes

end Bytecode

end Weft
