import Weft.Proofs.Bytecode.Completes

/-!
# Where the constants of a module come from

Every constant of a compiled module is a literal of its program or names a function, a type or a module that the
code refers to. Constants that lose all their uses are dropped, so none is left over.
-/

namespace Weft.Bytecode

open Typed (Expr Chain Call Append Lambda Frame VarDecl Stmt Block Arm)

/-- Whether a constant is made from a literal or names a function, a type or a module. -/
inductive Constant.Made : Constant → Prop where
  | literal (v : Typed.Literal) : Made (Lower.literal v)
  | func (module name : String) : Made (.func module name)
  | type (module name : String) : Made (.type module name)
  | module (name : String) : Made (.ofModule name)

/-- There are eight kinds of constants. -/
theorem Constant.Made.kind_lt {v : Constant} (h : v.Made) : v.kind < 8 := by
  cases h with
  | literal l => cases l <;> simp [Lower.literal, ofInt, ofFloat, ofString, ofBool, null, bare]
  | func m n => exact (by decide : 5 < 8)
  | type m n => exact (by decide : 6 < 8)
  | module n => exact (by decide : 7 < 8)

/-! ## Constants of pieces -/

namespace Piece

@[simp] theorem consts_nil : consts [] = [] := rfl

@[simp] theorem consts_cons (q : Piece) (code : List Piece) : consts (q :: code) = q.const.toList ++ consts code := by
  cases h : q.const <;> simp [consts, h]

@[simp] theorem const_plain (op : Opcode) (line : Nat) (vs : List Int) : (plain op line vs).const = none := rfl

@[simp] theorem const_mark (line : Nat) : (mark line).const = none := rfl

@[simp] theorem const_leading (op : Opcode) (line : Nat) (vs : List Int) (g : Goal) :
    (leading op line vs g).const = none := rfl

@[simp] theorem const_withConst (op : Opcode) (line : Nat) (vs : List Int) (v : Option Constant) :
    (withConst op line vs v).const = v := rfl

@[simp] theorem const_calling (f : Option FuncId) (q : Piece) : (calling f q).const = q.const := rfl

@[simp] theorem const_alone (q : Piece) : q.alone.const = q.const := by
  unfold alone
  split <;> rfl

@[simp] theorem const_settle (exit next i : Nat) (q : Piece) : (q.settle exit next i).const = q.const := by
  unfold settle
  split <;> rfl

theorem consts_map {f : Piece → Piece} (h : ∀ q, (f q).const = q.const) (code : List Piece) :
    consts (code.map f) = consts code := by
  induction code with
  | nil => rfl
  | cons q code ih => simp [h, ih]

end Piece

open Piece (consts consts_append)

theorem consts_settleLoop (exit next : Nat) (code : List Piece) : consts (settleLoop exit next code) = consts code := by
  have hmap : ∀ k, consts (code.mapIdx fun i q => q.settle exit next (i + k)) = consts code := by
    induction code with
    | nil => simp
    | cons q code ih =>
      intro k
      have h := ih (k + 1)
      simp only [List.mapIdx_cons, Piece.consts_cons, Piece.const_settle, Nat.add_assoc, Nat.add_comm 1] at h ⊢
      rw [h]
  exact hmap 0

theorem consts_closeCode (line : Nat) (code : List Piece) : consts (closeCode line code) = consts code := by
  rw [closeCode, consts_append, Piece.consts_map Piece.const_alone]
  split <;> simp

theorem consts_groupCode (keep : Bool) (line : Nat) (number : Int) (body : List Piece) :
    consts (groupCode keep line number body) = consts body := by
  cases keep <;> simp [groupCode, consts_append]

theorem consts_whileCode (line : Nat) (test body post : List Piece) :
    consts (whileCode line test body post) = consts test ++ consts body ++ consts post := by
  simp [whileCode, consts_append, consts_settleLoop]

theorem consts_doCode (line : Nat) (body test : List Piece) :
    consts (doCode line body test) = consts body ++ consts test := by
  simp [doCode, consts_append, consts_settleLoop]

theorem consts_armCode (line testLine : Nat) (test body leave : List Piece) :
    consts (armCode line testLine test body leave) = consts test ++ consts body ++ consts leave := by
  simp [armCode, consts_append]

theorem consts_leaveCode (leaves : Bool) (line : Nat) (goal : Option Goal) :
    consts (leaveCode leaves line goal) = [] := by
  cases leaves <;> simp [leaveCode]

/-! ## Constants of trees -/

/-- Whether all constants of code are literals or names. -/
def AllMade (code : List Piece) : Prop := ∀ v ∈ consts code, v.Made

section Trees

variable {c : Store × Module} {a b code : List Piece}

theorem AllMade.none (h : consts code = []) : AllMade code := by simp [AllMade, h]

theorem AllMade.append (ha : AllMade a) (hb : AllMade b) : AllMade (a ++ b) := by
  simp only [AllMade, consts_append, List.mem_append]
  rintro v (hv | hv)
  · exact ha v hv
  · exact hb v hv

theorem AllMade.of_eq (ha : AllMade a) (h : consts b = consts a) : AllMade b := by rwa [AllMade, h]

/-- Code around other code that uses no constants itself. -/
theorem AllMade.cons {q : Piece} (hq : ∀ v ∈ q.const, v.Made) (ha : AllMade a) : AllMade (q :: a) := by
  simp only [AllMade, Piece.consts_cons, List.mem_append, Option.mem_toList]
  rintro v (hv | hv)
  · exact hq v hv
  · exact ha v hv

theorem AllMade.one {q : Piece} (hq : ∀ v ∈ q.const, v.Made) : AllMade [q] := .cons hq (.none rfl)

theorem made_typeConst? (st : Store) (t : Option Ty) : ∀ v ∈ typeConst? st t, v.Made := by
  cases t with
  | none => simp [typeConst?]
  | some t => simpa [typeConst?] using Constant.Made.type _ _

theorem made_globalCode {line : Nat} {g : GlobalId} {own imported : Opcode} :
    AllMade (globalCode c line g own imported) := by
  unfold globalCode
  dsimp only
  split
  · exact .none (by simp)
  · exact .one (by simpa using Constant.Made.module _)

theorem made_accessCode {line : Nat} {acc : Typed.Access} {bits : Int} {kids : List Piece} (h : AllMade kids) :
    AllMade (accessCode c line acc bits kids) := by
  have hfunc : ∀ (f : Func), ∀ v ∈ some (funcConst f), v.Made := fun f => by
    rintro v ⟨⟩
    exact .func f.module f.fullName
  cases acc
  case readGlobal => exact made_globalCode
  case writeGlobal => exact h.append made_globalCode
  case readField f =>
    simp only [accessCode]
    split <;> exact .none (by simp)
  case func f =>
    simp only [accessCode, callFuncCode]
    split
    · exact h.append (.none (by simp))
    · exact .cons (hfunc _) (h.append (.none (by simp)))
  case funcRef f =>
    simp only [accessCode]
    split
    · exact .none (by simp)
    · exact .one (hfunc _)
  case method f =>
    simp only [accessCode]
    split
    · exact h.append (.none (by simp))
    · exact h.append (.one (hfunc _))
  case methodIface f =>
    refine h.append (.one ?_)
    rw [Piece.const_withConst, ifaceConst?]
    split
    · exact made_typeConst? _ _
    · simp
  all_goals first | exact h.append (.none (by simp)) | exact .none (by simp [accessCode])

mutual

theorem made_expr : (x : Expr) → AllMade (exprCode c x)
  | .literal _ v _ => .one (by simpa using Constant.Made.literal v)
  | .unary _ _ _ x => (made_expr x).append (.none (by simp))
  | .binary _ _ _ x y => by
    rw [exprCode]
    split
    · exact (made_expr x).append (.cons (by simp) ((made_expr y).append (.none (by simp))))
    · exact ((made_expr x).append (made_expr y)).append (.none (by simp))
  | .chain ⟨_, _, _, links⟩ => made_exprs links
  | .call x => made_call x
  | .cast _ _ t x => (made_expr x).append (.one (made_typeConst? _ t))
  | .new _ t inits => .cons (made_typeConst? _ t) (made_calls inits)
  | .collection _ t items => .cons (made_typeConst? _ (some t)) (made_appends items)
  | .lambda fn => made_lambda fn

theorem made_exprs : (xs : List Expr) → AllMade (exprsCode c xs)
  | [] => .none rfl
  | x :: xs => (made_expr x).append (made_exprs xs)

theorem made_call : (x : Call) → AllMade (callCode c x)
  | ⟨_, _, _, _, _, _, children⟩ => made_accessCode (made_exprs children)

theorem made_calls : (xs : List Call) → AllMade (callsCode c xs)
  | [] => .none rfl
  | x :: xs => (made_call x).append (made_calls xs)

theorem made_appends : (xs : List Append) → AllMade (appendsCode c xs)
  | [] => .none rfl
  | .element _ x :: rest => (made_expr x).append (.cons (by simp) (made_appends rest))
  | .entry _ k v :: rest => ((made_expr k).append (made_expr v)).append (.cons (by simp) (made_appends rest))

theorem made_lambda : (fn : Lambda) → AllMade (lambdaCode c fn)
  | ⟨line, _, upvals, ⟨_, ps, _, body⟩⟩ => by
    have hupvals : AllMade
        (upvals.map fun u => Piece.plain .useUpval line [(u.src : Int), u.dst, if u.copied then 0 else 1]) :=
      .none (by induction upvals <;> simp_all)
    exact .cons (by simp) ((AllMade.cons (by simp) ((made_params _ _ ps).append
      ((made_stmts false body).of_eq (consts_closeCode _ _)))).append (.cons (by simp) hupvals))

theorem made_params (first i : Nat) : (ps : List VarDecl) → AllMade (paramsCode c first i ps)
  | [] => .none rfl
  | ⟨_, _, none⟩ :: rest => (made_params first (i + 1) rest).append (.none (by simp [argPiece]))
  | ⟨_, _, some x⟩ :: rest =>
    (made_params first (i + 1) rest).append (.cons (by simp) ((made_expr x).append (.none (by simp [argPiece]))))

theorem made_stmt (under : Bool) : (x : Stmt) → AllMade (stmtCode c under x)
  | .expr x => made_expr x
  | .discard _ n x => (made_expr x).append (.none (by induction n <;> simp_all [List.replicate_succ]))
  | .var ⟨_, v, none⟩ => .one (made_typeConst? _ v.type)
  | .var ⟨_, _, some x⟩ => (made_expr x).append (.none (by simp))
  | .ret _ n values => (made_exprs values).append (.none (by cases n <;> simp))
  | .brk _ | .cont _ | .yield _ => .none (by simp [stmtCode])
  | .block b => made_block under b

theorem made_stmts (under : Bool) : (xs : List Stmt) → AllMade (stmtsCode c under xs)
  | [] => .none rfl
  | x :: xs => (made_stmt under x).append (made_stmts under xs)

theorem made_branches : (xs : List Stmt) → AllMade (branchesCode c xs)
  | [] => .none rfl
  | x :: xs => by
    rw [branchesCode]
    refine AllMade.append ?_ (made_branches xs)
    split
    · exact made_stmt true x
    · exact (made_stmt true x).of_eq (consts_groupCode _ _ _ _)

theorem made_block (under : Bool) : (b : Block) → AllMade (blockCode c under b)
  | .group _ kind ss => by
    refine AllMade.of_eq ?_ (consts_groupCode _ _ _ _)
    split
    · exact made_branches ss
    · exact made_stmts under ss
  | .cond line as none => (made_arms under line false 0 as).append (.none (by simp))
  | .cond line as (some b) =>
    ((made_arms under line true _ as).append (made_block under b)).append (.none (by simp))
  | .whileLoop _ test body none =>
    ((made_expr test).append (made_block under body)).of_eq (by simp [blockCode, consts_whileCode, consts_append])
  | .whileLoop _ test body (some post) =>
    (((made_expr test).append (made_block under body)).append (made_block under post)).of_eq
      (by simp [blockCode, consts_whileCode, consts_append])
  | .doLoop _ body test =>
    ((made_block under body).append (made_expr test)).of_eq (by simp [blockCode, consts_doCode, consts_append])

theorem made_arms (under : Bool) (line : Nat) (more : Bool) (rest : Nat) :
    (as : List Arm) → AllMade (armsCode c under line more rest as)
  | [] => .none rfl
  | ⟨test, body⟩ :: as =>
    (((made_expr test).append (made_block under body)).append (made_arms under line more rest as)).of_eq
      (by simp [armsCode, consts_armCode, consts_leaveCode, consts_append])

end

theorem made_funcCode (d : Typed.FuncDecl) : AllMade (funcCode c d) := by
  unfold funcCode
  split
  · exact .none rfl
  · refine .cons (by simp) (((made_params _ _ _).append ?_).append ((made_stmts false _).of_eq (consts_closeCode _ _)))
    split <;> exact .none (by simp)

theorem made_initCode (d : Typed.Decl) : AllMade (initCode c d) := by
  unfold initCode
  split
  · exact .one (by simpa using Constant.Made.module _)
  · exact .none rfl
  · exact .none rfl
  · exact .none rfl
  · exact (made_expr _).append (.none (by simp))

theorem made_flatMap {α : Type} {f : α → List Piece} (h : ∀ x, AllMade (f x)) (xs : List α) :
    AllMade (xs.flatMap f) := by
  induction xs with
  | nil => exact .none rfl
  | cons x xs ih => exact (h x).append ih

/-- The constants that the code of a program uses are literals and names. -/
theorem made_programCode (p : Typed.Program) (s : Section) : AllMade (programCode c p s) := by
  cases s with
  | code => exact made_flatMap made_funcCode _
  | init => exact (made_flatMap made_initCode _).append (.none (by simp))

end Trees

/-! ## Constants of modules -/

/-- The constants with uses have a property. -/
def Pool.Uses (P : Constant → Prop) (p : Pool) : Prop := ∀ e ∈ p.entries.toList, e.2 ≠ 0 → P e.1

section Pools

variable {P : Constant → Prop} {p p' : Pool}

theorem Pool.Tallies.uses_all {f : Constant → Nat} (h : p.Tallies f) (hf : ∀ v, 0 < f v → P v) : p.Uses P := by
  rintro ⟨v, n⟩ he hn
  obtain ⟨i, hi⟩ := List.mem_iff_getElem?.mp he
  rw [Array.getElem?_toList] at hi
  exact hf v (by have := h.uses hi; omega)

/-- A use that goes away leaves no new constant with uses. -/
theorem Pool.Uses.release {i : Int} (h : p.Uses P) (hr : p.release i = .ok p') : p'.Uses P := by
  unfold Pool.release at hr
  split at hr
  · next v n hv =>
    obtain rfl := Except.ok.inj hr
    split at hv
    · simp at hv
    rintro e he hn
    obtain ⟨j, hj⟩ := List.mem_iff_getElem?.mp he
    rw [Array.getElem?_toList, Pool.recount, Array.getElem?_modify] at hj
    split at hj
    · next hij =>
      subst hij
      rw [hv] at hj
      obtain rfl := Option.some.inj hj
      exact h (v, n + 1) (List.mem_of_getElem? (by rw [Array.getElem?_toList, hv])) (Nat.succ_ne_zero n)
    · exact h e (List.mem_of_getElem? (by rw [Array.getElem?_toList, hj])) hn
  · simp at hr

/-- Only constants with uses are left in the end. -/
theorem Pool.Uses.compact (h : p.Uses P) : ∀ v ∈ p.compact.2.constants, P v := by
  intro v hv
  obtain ⟨e, he, rfl⟩ := List.mem_map.mp hv
  simp only [Pool.compact, Array.toList_filter, List.mem_filter, decide_eq_true_eq] at he
  exact h e he.1 he.2

end Pools

section Finish

variable {c : Store × Module} {l l' : Lowering} {u : PUnit} {out : Compiled}

theorem Pool.Uses.makeDirects {P : Constant → Prop} {ds : List DirectCall} (h : l.pool.Uses P)
    (hr : Runs (ds.forM fun d => Lower.makeDirect d c) l u l') : l'.pool.Uses P := by
  induction ds generalizing l with
  | nil => rwa [runs_forM_nil.mp hr]
  | cons d ds ih =>
    obtain ⟨l₁, h1, h2⟩ := runs_forM_cons.mp hr
    refine ih ?_ h2
    rcases runs_makeDirect h1 with ⟨-, rfl⟩ | ⟨_, _, _, _, _, -, -, -, -, hpool, -, -, rfl⟩
    · exact h
    · exact h.release hpool

/-- What a finished module says besides its code. -/
theorem runs_finish_fields (h : Runs (Lower.finish c) l out l') : ∃ l₁ u,
    Runs (l.direct.forM fun d => Lower.makeDirect d c) l u l₁ ∧ out.version = Compiled.formatVersion ∧ out.name = c.2.name ∧
      out.space = some (c.1.exportModule c.2) ∧ out.constants = l₁.pool.compact.2.constants := by
  unfold Lower.finish at h
  rw [Lower.runs_get_bind] at h
  obtain ⟨u, l₁, h1, h⟩ := Lower.runs_bind.mp h
  rw [Lower.forM_apply] at h1
  rw [Lower.runs_get_bind] at h
  rcases hcompact : l₁.pool.compact with ⟨ps, pool⟩
  simp only [hcompact, Lower.runs_modify_bind] at h
  obtain ⟨_, l₄, -, h⟩ := Lower.runs_bind.mp h
  obtain ⟨_, l₅, -, h⟩ := Lower.runs_bind.mp h
  obtain ⟨_, l₆, -, h⟩ := Lower.runs_bind.mp h
  rw [Lower.runs_read_bind, Lower.runs_get_bind] at h
  obtain ⟨ib, l₇, -, h⟩ := Lower.runs_bind.mp h
  obtain ⟨cb, l₈, -, h⟩ := Lower.runs_bind.mp h
  obtain ⟨_, l₉, -, h⟩ := Lower.runs_bind.mp h
  obtain ⟨_, _, -, h⟩ := Lower.runs_bind.mp h
  obtain ⟨rfl, -⟩ := Lower.runs_pure.mp h
  exact ⟨l₁, u, h1, rfl, rfl, rfl, by rw [hcompact]⟩

/-- A compiled module has the version of the format, and the name and the declarations of its module, and every constant
is used by the code of the program. -/
theorem compile_fields {st : Store} {m : Module} {p : Typed.Program} (h : compile st m p = .ok out) :
    out.version = Compiled.formatVersion ∧ out.name = m.name ∧ out.space = some (st.exportModule m) ∧
      ∀ v ∈ out.constants, ∃ s, v ∈ consts (programCode (st, m) p s) := by
  obtain ⟨l, _, h1, h2⟩ := compile_runs h
  obtain ⟨hlaid, -, -⟩ := runs_program h1
  obtain ⟨l₁, _, hdirect, hversion, hname, hspace, hconstants⟩ := runs_finish_fields h2
  refine ⟨hversion, hname, hspace, ?_⟩
  rw [hconstants]
  refine Pool.Uses.compact (Pool.Uses.makeDirects (hlaid.tallies.uses_all fun v hv => ?_) hdirect)
  rcases Nat.add_pos_iff_pos_or_pos.mp hv with hv | hv
  · exact ⟨.init, List.count_pos_iff.mp hv⟩
  · exact ⟨.code, List.count_pos_iff.mp hv⟩

/-- The constants of a compiled module are literals and names. -/
theorem compile_made {st : Store} {m : Module} {p : Typed.Program} (h : compile st m p = .ok out) :
    ∀ v ∈ out.constants, v.Made := fun v hv => by
  obtain ⟨s, hs⟩ := (compile_fields h).2.2.2 v hv
  exact made_programCode p s v hs

end Finish

end Weft.Bytecode
