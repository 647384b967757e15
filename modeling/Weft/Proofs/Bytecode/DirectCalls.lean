import Weft.Proofs.Bytecode.References

/-!
# Direct calls

A program can also be compiled with all its calls as they are emitted: the function is pushed, then the arguments, then
what is below them is called. The code with direct calls refines that code. Where a function of the program is called,
nothing is pushed any more and the call names the position of the function; everything else is the same, but for the
numbers of constants and for positions, which move by what the instructions before them lost or gained.
-/

namespace Weft.Bytecode

open Typed (Expr Chain Call Append Lambda Frame VarDecl Stmt Block Arm)

/-! ### Calls in the code of trees -/

/-- An instruction that belongs to the call of a function: the function is one of the module, and the instruction either
pushes it or calls it. -/
def Piece.Labelled (c : Store × Module) (q : Piece) : Prop :=
  ∀ f, q.callee = some f → (c.1.func f).native = false ∧ (c.1.func f).module = c.2.name ∧
    (q.op = .getFunc ∧ q.operands = [0] ∧ q.const = some (funcConst (c.1.func f)) ∨
      q.op = .callPtr ∧ q.const = none ∧ ∃ bits, q.operands = [bits])

theorem Piece.Labelled.free {c : Store × Module} {q : Piece} (h : q.callee = none) : q.Labelled c := by
  intro f hf
  simp [h] at hf

/-- Code in which calls are labelled with functions of the module only. -/
def Labelled (c : Store × Module) (code : List Piece) : Prop := ∀ q ∈ code, q.Labelled c

namespace Labelled

variable {c : Store × Module} {a b code : List Piece} {q : Piece}

theorem nil : Labelled c [] := by simp [Labelled]

theorem append (ha : Labelled c a) (hb : Labelled c b) : Labelled c (a ++ b) := by
  intro q hq
  rcases List.mem_append.mp hq with hq | hq
  · exact ha q hq
  · exact hb q hq

theorem cons (hq : q.Labelled c) (hb : Labelled c b) : Labelled c (q :: b) := by
  intro r hr
  rcases List.mem_cons.mp hr with rfl | hr
  · exact hq
  · exact hb r hr

theorem one (h : q.callee = none) : Labelled c [q] := .cons (.free h) .nil

theorem settle {exit next : Nat} (h : Labelled c code) : Labelled c (settleLoop exit next code) := by
  intro q hq
  obtain ⟨i, hi⟩ := List.mem_iff_getElem?.mp hq
  obtain ⟨r, hr, rfl⟩ := getElem?_settleLoop.mp hi
  have hlabelled := h r (List.mem_of_getElem? hr)
  unfold Piece.settle
  split <;> exact hlabelled

theorem close {line : Nat} (h : Labelled c code) : Labelled c (closeCode line code) := by
  refine .append ?_ ?_
  · intro q hq
    obtain ⟨r, hr, rfl⟩ := List.mem_map.mp hq
    have hlabelled := h r hr
    unfold Piece.alone
    split <;> exact hlabelled
  · split
    · exact .nil
    · exact .one rfl

theorem callFunc {line : Nat} {f : FuncId} {bits : Int} (h : Labelled c code) :
    Labelled c (callFuncCode c line f bits code) := by
  unfold callFuncCode
  dsimp only
  split
  · exact h.append (.one rfl)
  · next hnative =>
    have hown : ∀ {g}, (if (c.1.func f).module = c.2.name then some f else none) = some g →
        g = f ∧ (c.1.func f).module = c.2.name := by
      intro g hg
      split at hg
      · next hmodule => exact ⟨(Option.some.inj hg).symm, hmodule⟩
      · simp at hg
    refine .cons ?_ (h.append (.cons ?_ .nil))
    · intro g hg
      obtain ⟨rfl, hmodule⟩ := hown hg
      exact ⟨by simpa using hnative, hmodule, .inl ⟨rfl, rfl, rfl⟩⟩
    · intro g hg
      obtain ⟨rfl, hmodule⟩ := hown hg
      exact ⟨by simpa using hnative, hmodule, .inr ⟨rfl, rfl, bits, rfl⟩⟩

theorem access {line : Nat} {acc : Typed.Access} {bits : Int} (h : Labelled c code) :
    Labelled c (accessCode c line acc bits code) := by
  have hglobal : ∀ {g own imported}, Labelled c (globalCode c line g own imported) := by
    intro g own imported
    unfold globalCode
    dsimp only
    split
    · exact .one rfl
    · exact .one rfl
  cases acc with
  | func f => exact h.callFunc
  | readGlobal g => exact hglobal
  | writeGlobal g => exact h.append hglobal
  | readField f =>
    simp only [accessCode]
    split
    · exact .one rfl
    · exact .one rfl
  | funcRef f =>
    simp only [accessCode]
    split
    · exact .one rfl
    · exact .one rfl
  | method f =>
    simp only [accessCode]
    split
    · exact h.append (.one rfl)
    · exact h.append (.one rfl)
  | readVar v => exact .one rfl
  | varRef v => exact .one rfl
  | readNative slot => exact .one rfl
  | writeVar v => exact h.append (.one rfl)
  | writeField f => exact h.append (.one rfl)
  | initField f => exact h.append (.one rfl)
  | methodNative slot => exact h.append (.one rfl)
  | methodVirtual f => exact h.append (.one rfl)
  | methodIface f => exact h.append (.one rfl)
  | funcPtr => exact h.append (.one rfl)
  | arrayGet => exact h.append (.one rfl)
  | arraySet => exact h.append (.one rfl)
  | mapGet => exact h.append (.one rfl)
  | mapSet => exact h.append (.one rfl)

theorem group {keep : Bool} {line : Nat} {number : Int} (h : Labelled c code) :
    Labelled c (groupCode keep line number code) := by
  unfold groupCode
  cases keep with
  | true => exact .cons (.free rfl) (h.append (.one rfl))
  | false => exact .cons (.free rfl) (h.append (.one rfl))

theorem whileLoop {line : Nat} {test body post : List Piece} (ht : Labelled c test) (hb : Labelled c body)
    (hp : Labelled c post) : Labelled c (whileCode line test body post) := by
  refine (Labelled.cons (.free rfl) ht).append (.cons (.free rfl) (Labelled.settle ?_))
  exact (hb.append (.cons (.free rfl) hp)).append (.cons (.free rfl) (.one rfl))

theorem doLoop {line : Nat} {test body : List Piece} (hb : Labelled c body) (ht : Labelled c test) :
    Labelled c (doCode line body test) := by
  refine .cons (.free rfl) (Labelled.settle ?_)
  exact (hb.append (.cons (.free rfl) ht)).append (.cons (.free rfl) (.cons (.free rfl) (.one rfl)))

end Labelled

section Trees

variable {c : Store × Module}

mutual

/-- The calls in an expression are labelled. -/
theorem labelled_expr : (x : Expr) → Labelled c (exprCode c x)
  | .literal _ _ _ => .one rfl
  | .unary _ _ _ x => (labelled_expr x).append (.one rfl)
  | .binary _ op _ x y => by
    simp only [exprCode]
    split
    · exact (labelled_expr x).append (.cons (.free rfl) ((labelled_expr y).append (.one rfl)))
    · exact ((labelled_expr x).append (labelled_expr y)).append (.one rfl)
  | .chain ⟨_, _, _, links⟩ => labelled_exprs links
  | .call x => labelled_call x
  | .cast _ _ _ x => (labelled_expr x).append (.one rfl)
  | .new _ _ inits => .cons (.free rfl) (labelled_calls inits)
  | .collection _ _ items => .cons (.free rfl) (labelled_appends items)
  | .lambda fn => labelled_lambda fn

theorem labelled_exprs : (xs : List Expr) → Labelled c (exprsCode c xs)
  | [] => .nil
  | x :: xs => (labelled_expr x).append (labelled_exprs xs)

theorem labelled_call : (x : Call) → Labelled c (callCode c x)
  | ⟨_, _, _, _, _, _, children⟩ => (labelled_exprs children).access

theorem labelled_calls : (xs : List Call) → Labelled c (callsCode c xs)
  | [] => .nil
  | x :: xs => (labelled_call x).append (labelled_calls xs)

theorem labelled_appends : (xs : List Append) → Labelled c (appendsCode c xs)
  | [] => .nil
  | .element _ x :: rest => (labelled_expr x).append (.cons (.free rfl) (labelled_appends rest))
  | .entry _ k v :: rest =>
    ((labelled_expr k).append (labelled_expr v)).append (.cons (.free rfl) (labelled_appends rest))

theorem labelled_lambda : (x : Lambda) → Labelled c (lambdaCode c x)
  | ⟨_, _, upvals, ⟨_, ps, _, body⟩⟩ => by
    rw [lambdaCode]
    refine .cons (.free rfl) (.append (.cons (.free rfl) ?_) (.cons (.free rfl) ?_))
    · exact (labelled_params ps).append (labelled_stmts body).close
    · intro q hq
      obtain ⟨u, -, rfl⟩ := List.mem_map.mp hq
      exact .free rfl

theorem labelled_params {first i : Nat} : (ps : List VarDecl) → Labelled c (paramsCode c first i ps)
  | [] => .nil
  | ⟨_, _, none⟩ :: rest => (labelled_params rest).append (.one rfl)
  | ⟨_, _, some x⟩ :: rest =>
    (labelled_params rest).append (.cons (.free rfl) ((labelled_expr x).append (.cons (.free rfl) (.one rfl))))

theorem labelled_stmt {under : Bool} : (x : Stmt) → Labelled c (stmtCode c under x)
  | .expr x => labelled_expr x
  | .discard _ _ x => by
    rw [stmtCode]
    refine (labelled_expr x).append ?_
    intro q hq
    rw [List.eq_of_mem_replicate hq]
    exact .free rfl
  | .var ⟨_, _, none⟩ => .one rfl
  | .var ⟨_, _, some x⟩ => (labelled_expr x).append (.one rfl)
  | .ret _ n values => by
    rw [stmtCode]
    refine (labelled_exprs values).append (.one ?_)
    split
    · rfl
    · rfl
  | .brk _ => .one rfl
  | .cont _ => .one rfl
  | .yield _ => .one rfl
  | .block b => labelled_block b

theorem labelled_stmts {under : Bool} : (xs : List Stmt) → Labelled c (stmtsCode c under xs)
  | [] => .nil
  | x :: xs => (labelled_stmt x).append (labelled_stmts xs)

theorem labelled_branches : (xs : List Stmt) → Labelled c (branchesCode c xs)
  | [] => .nil
  | x :: xs => by
    rw [branchesCode]
    split
    · exact (labelled_stmt x).append (labelled_branches xs)
    · exact (labelled_stmt x).group.append (labelled_branches xs)

theorem labelled_block {under : Bool} : (b : Block) → Labelled c (blockCode c under b)
  | .group _ _ ss => by
    rw [blockCode]
    split
    · exact (labelled_branches ss).group
    · exact (labelled_stmts ss).group
  | .cond _ as none => (labelled_arms as).append (.one rfl)
  | .cond _ as (some b) => ((labelled_arms as).append (labelled_block b)).append (.one rfl)
  | .whileLoop _ test body none => .whileLoop (labelled_expr test) (labelled_block body) .nil
  | .whileLoop _ test body (some post) => .whileLoop (labelled_expr test) (labelled_block body) (labelled_block post)
  | .doLoop _ body test => .doLoop (labelled_block body) (labelled_expr test)

theorem labelled_arms {under : Bool} {line : Nat} {more : Bool} {rest : Nat} :
    (as : List Arm) → Labelled c (armsCode c under line more rest as)
  | [] => .nil
  | ⟨test, body⟩ :: as => by
    rw [armsCode]
    refine Labelled.append ?_ (labelled_arms as)
    refine (labelled_expr test).append (.cons (.free rfl) ?_)
    refine ((labelled_block body).append ?_).append (.one rfl)
    unfold leaveCode
    split
    · exact .one rfl
    · exact .nil

end

/-- The calls in a program are labelled. -/
theorem labelled_programCode (p : Typed.Program) (s : Section) : Labelled c (programCode c p s) := by
  have hfunc : ∀ d : Typed.FuncDecl, Labelled c (funcCode c d) := by
    intro d
    unfold funcCode
    split
    · exact .nil
    · refine .cons (.free rfl) (.append (.append (labelled_params _) ?_) (labelled_stmts _).close)
      split
      · exact .one rfl
      · exact .nil
  have hinit : ∀ d : Typed.Decl, Labelled c (initCode c d) := by
    intro d
    unfold initCode
    split
    · exact .one rfl
    · exact .nil
    · exact .nil
    · exact .nil
    · exact (labelled_expr _).append (.one rfl)
  cases s with
  | code =>
    intro q hq
    obtain ⟨d, -, hmem⟩ := List.mem_flatMap.mp hq
    exact hfunc d q hmem
  | init =>
    refine Labelled.append (fun q hq => ?_) (.one rfl)
    obtain ⟨d, -, hmem⟩ := List.mem_flatMap.mp hq
    exact hinit d q hmem

end Trees

/-! ### The plain code -/

/-- Compile a program and leave its calls as they are emitted. -/
def compilePlain (s : Store) (m : Module) (p : Typed.Program) : Except Violation Compiled :=
  (do Lower.program p; Lower.layOut : Lower Compiled) (s, m) .start |>.1

/-- The plain code of a program has the opcodes of its pieces. -/
theorem compilePlain_final {st : Store} {m : Module} {p : Typed.Program} {out : Compiled}
    (h : compilePlain st m p = .ok out) :
    ∃ xs : Section → List Instruction,
      (∀ s, Final out.constants (programCode (st, m) p s) (xs s)) ∧
      (∀ s (i : Nat) q x, (programCode (st, m) p s)[i]? = some q → (xs s)[i]? = some x → x.op = q.op) ∧
      out.init = (xs .init).flatMap Instruction.encode ∧ out.code = (xs .code).flatMap Instruction.encode := by
  let run : Lower Compiled := do
    Lower.program p
    Lower.layOut
  have hrun : Runs (run (st, m)) .start out (run (st, m) .start).2 := by
    change run (st, m) .start = (.ok out, (run (st, m) .start).2)
    rw [← h]
    rfl
  obtain ⟨_, l, h1, h2⟩ := Lower.runs_bind.mp hrun
  obtain ⟨hlaid, -, -⟩ := runs_program h1
  obtain ⟨xs, pos, hfinal, hkept, -, -, hinit, hcode, -⟩ := runs_layOut hlaid hlaid.linking rfl
    (by simp [hlaid.patches]) (by simp [hlaid.patches]) h2
  refine ⟨xs, hfinal, ?_, hinit, hcode⟩
  intro s i q x hq hx
  obtain ⟨n, y, hn, hy, hm⟩ := hlaid.pieces hq
  obtain ⟨z, hz, hop, -⟩ := hkept s i q n y hq hn hy
  rw [Option.some.inj (hx.symm.trans hz), hop, hm.op]

/-! ### Counterparts -/

/-- An instruction of the plain code, the piece it stands for, and what is left of it in the code with direct calls. -/
structure Counterpart where
  piece : Piece
  plain : Decoded
  direct : Option Decoded

/-- Where a position of the plain code is in the code with direct calls: after all that is left of the instructions
before it. -/
def moved (rows : List Counterpart) (t : Nat) : Nat :=
  (((rows.filter fun r => r.plain.pos < t).filterMap Counterpart.direct).map fun d => d.op.size).sum

/-- Two instructions that differ in their positions, in the numbers of their constants and in the distances of their
targets only. -/
structure Decoded.Agrees (cs cs' : List Constant) (move : Nat → Nat) (d d' : Decoded) : Prop where
  op : d'.op = d.op
  pos : d'.pos = move d.pos
  operands : ∀ i, d.op.pool ≠ some i → d.op.offsetOperand? ≠ some i → d'.operands[i]? = d.operands[i]?
  constant : ∀ i, d.op.pool = some i → ∃ (k k' : Nat) (v : Constant),
    d.operands[i]? = some (k : Int) ∧ cs[k]? = some v ∧ d'.operands[i]? = some (k' : Int) ∧ cs'[k']? = some v
  target : d.op.offsetOperand?.isSome → ∃ t : Nat, d.target? = some (t : Int) ∧ d'.target? = some (move t : Int)

/-- How an instruction of the plain code stands in the code with direct calls. What belongs to the call of a function of
the program is a pair: the function is not pushed any more, and the call leads to its frame. -/
inductive Counterpart.Refines (c : Store × Module) (funcs : List FuncId) (plain out : Compiled) (move : Nat → Nat)
    (r : Counterpart) : Prop where
  | same (d : Decoded) (free : ¬r.piece.Calls (· ∈ funcs)) (direct : r.direct = some d)
      (agrees : r.plain.Agrees plain.constants out.constants move d)
  | pushed (f : FuncId) (k : Nat) (callee : r.piece.callee = some f) (own : f ∈ funcs)
      (native : (c.1.func f).native = false) (module : (c.1.func f).module = c.2.name)
      (op : r.plain.op = .getFunc) (operands : r.plain.operands = [(k : Int)])
      (constant : plain.constants[k]? = some (funcConst (c.1.func f))) (direct : r.direct = none)
  | called (f : FuncId) (bits : Int) (entry : FuncPos) (callee : r.piece.callee = some f) (own : f ∈ funcs)
      (native : (c.1.func f).native = false) (module : (c.1.func f).module = c.2.name)
      (op : r.plain.op = .callPtr) (operands : r.plain.operands = [bits])
      (listed : out.funcs.reverse[funcs.reverse.idxOf f]? = some entry) (name : entry.name = (c.1.func f).fullName)
      (frame : ∃ d ∈ (decode out.code).1, d.pos = entry.pos ∧ d.op = .initFrame)
      (direct : r.direct = some ⟨move r.plain.pos, .call, [entry.pos, bits]⟩)

/-- A piece with its instruction in the plain code and in the code with direct calls, if it is encoded in the first. -/
def counterpart (t : Piece × Instruction × Instruction) : Option Counterpart :=
  t.2.1.decoded?.map fun d => ⟨t.1, d, t.2.2.decoded?⟩

/-- The counterparts of code. -/
def counterparts (code : List Piece) (ys xs : List Instruction) : List Counterpart :=
  (code.zip (ys.zip xs)).filterMap counterpart

section Counterparts

variable {T : List (Piece × Instruction × Instruction)}

theorem decoded?_eq_none {x : Instruction} : x.decoded? = none ↔ x.op = .mark := by
  unfold Instruction.decoded?
  split <;> simp_all

theorem map_piece_counterpart (h : ∀ t ∈ T, t.2.1.op = .mark ↔ t.1.op = .mark) :
    (T.filterMap counterpart).map Counterpart.piece = (T.map Prod.fst).filter fun q => q.op ≠ .mark := by
  induction T with
  | nil => rfl
  | cons t T ih =>
    have hrest := ih fun t ht => h t (by simp [ht])
    have hmark := h t (by simp)
    cases hd : t.2.1.decoded? with
    | none =>
      have hnone : counterpart t = none := by simp [counterpart, hd]
      rw [List.filterMap_cons_none hnone, hrest, List.map_cons,
        List.filter_cons_of_neg (by simpa using hmark.mp (decoded?_eq_none.mp hd))]
    | some d =>
      have hsome : counterpart t = some ⟨t.1, d, t.2.2.decoded?⟩ := by simp [counterpart, hd]
      have hop : ¬t.1.op = .mark := by
        intro hop
        rw [decoded?_eq_none.mpr (hmark.mpr hop)] at hd
        simp at hd
      rw [List.filterMap_cons_some hsome, List.map_cons, hrest, List.map_cons,
        List.filter_cons_of_pos (by simpa using hop)]

theorem map_plain_counterpart :
    (T.filterMap counterpart).map Counterpart.plain = (T.map fun t => t.2.1).filterMap Instruction.decoded? := by
  rw [List.map_filterMap, List.filterMap_map]
  congr 1
  funext t
  cases h : t.2.1.decoded? <;> simp [counterpart, h]

theorem filterMap_direct_counterpart (h : ∀ t ∈ T, t.2.1.op = .mark → t.2.2.op = .mark) :
    (T.filterMap counterpart).filterMap Counterpart.direct =
      (T.map fun t => t.2.2).filterMap Instruction.decoded? := by
  rw [List.filterMap_filterMap, List.filterMap_map]
  refine List.filterMap_congr fun t ht => ?_
  cases hd : t.2.1.decoded? with
  | none => simp [counterpart, hd, decoded?_eq_none.mpr (h t ht (decoded?_eq_none.mp hd))]
  | some d => simp [counterpart, hd]

/-- How much of an instruction lies before a position of the plain code. -/
private def weight (t : Nat) (r : Piece × Instruction × Instruction) : Nat :=
  if r.2.1.op ≠ .mark ∧ r.2.1.pos.toNat < t then r.2.2.op.size else 0

private theorem moved_eq (t : Nat) : moved (T.filterMap counterpart) t = (T.map (weight t)).sum := by
  induction T with
  | nil => rfl
  | cons r T ih =>
    by_cases hm : r.2.1.op = .mark
    · have hnone : counterpart r = none := by simp [counterpart, decoded?_eq_none.mpr hm]
      rw [List.filterMap_cons_none hnone, ih]
      simp [weight, hm]
    · have hsome : counterpart r = some ⟨r.1, ⟨r.2.1.pos.toNat, r.2.1.op, r.2.1.operands⟩, r.2.2.decoded?⟩ := by
        simp [counterpart, Instruction.decoded?, hm]
      rw [List.filterMap_cons_some hsome, List.map_cons, List.sum_cons, ← ih]
      by_cases hlt : r.2.1.pos.toNat < t
      · cases hd : r.2.2.decoded? with
        | none => simp [moved, hlt, weight, hm, decoded?_eq_none.mp hd, Opcode.size]
        | some d =>
          have hop : d.op = r.2.2.op := by
            unfold Instruction.decoded? at hd
            split at hd
            · simp at hd
            · rw [← Option.some.inj hd]
          simp [moved, hlt, weight, hm, hop]
      · simp [moved, hlt, weight]

private theorem sum_weight {p : Nat} (hp : Placed p (T.map fun t => t.2.1))
    (hm : ∀ t ∈ T, t.2.1.op = .mark → t.2.2.op = .mark) {i : Nat} (hi : i ≤ T.length) :
    (T.map (weight (p + posAt (T.map fun t => t.2.1) i))).sum = posAt (T.map fun t => t.2.2) i := by
  induction T generalizing p i with
  | nil => simp [posAt]
  | cons r T ih =>
    cases i with
    | zero =>
      have hzero : ∀ t ∈ r :: T, weight (p + posAt ((r :: T).map fun t => t.2.1) 0) t = 0 := by
        intro t ht
        have hle := hp.le (List.mem_map_of_mem (f := fun t : Piece × Instruction × Instruction => t.2.1) ht)
        have hnot : ¬t.2.1.pos.toNat < p + posAt ((r :: T).map fun t => t.2.1) 0 := by
          simp only [posAt, List.take_zero, List.map_nil, List.sum_nil]
          omega
        simp only [weight, hnot, and_false, if_false]
      rw [List.map_congr_left hzero]
      simp [posAt]
    | succ i =>
      obtain ⟨hpos, hrest⟩ := hp
      have hrest : Placed ((p + r.2.1.op.size : Nat) : Int) (T.map fun t => t.2.1) := by simpa using hrest
      have hnext := ih hrest (fun t ht => hm t (by simp [ht])) (i := i) (by simpa using hi)
      have hat : p + posAt ((r :: T).map fun t => t.2.1) (i + 1) =
          p + r.2.1.op.size + posAt (T.map fun t => t.2.1) i := by
        simp [posAt, Nat.add_assoc]
      rw [hat, List.map_cons, List.sum_cons, hnext]
      have hthis : weight (p + r.2.1.op.size + posAt (T.map fun t => t.2.1) i) r = r.2.2.op.size := by
        by_cases hmark : r.2.1.op = .mark
        · simp [weight, hmark, hm r (by simp) hmark, Opcode.size]
        · have hsize := Opcode.size_pos hmark
          have hbefore : r.2.1.pos.toNat < p + r.2.1.op.size + posAt (T.map fun t => t.2.1) i := by
            rw [hpos]
            omega
          simp only [weight, ne_eq, hmark, not_false_eq_true, hbefore, and_self, if_true]
      rw [hthis]
      simp [posAt]

end Counterparts

section Twins

/-- The instructions of the plain code of a section, and those of the code with direct calls. -/
structure Twins (funcs : List FuncId) (cs cs' : List Constant) (code : List Piece) (ys xs : List Instruction) :
    Prop where
  plain : Final cs code ys
  direct : Final cs' code xs
  ops : ∀ {i : Nat} {q y}, code[i]? = some q → ys[i]? = some y → y.op = q.op
  calls : Direct (· ∈ funcs) code xs
  directed : Directed code
  idle : Idle code

variable {c : Store × Module} {funcs : List FuncId} {cs cs' : List Constant} {code : List Piece}
  {ys xs : List Instruction} {i : Nat} {q : Piece} {y x : Instruction}

theorem mem_zip_zip {t : Piece × Instruction × Instruction} : t ∈ code.zip (ys.zip xs) ↔
    ∃ i : Nat, code[i]? = some t.1 ∧ ys[i]? = some t.2.1 ∧ xs[i]? = some t.2.2 := by
  rw [List.mem_iff_getElem?]
  simp only [List.getElem?_zip_eq_some]

/-- A mark of the plain code stays one. -/
theorem Twins.mark (h : Twins funcs cs cs' code ys xs) (hq : code[i]? = some q) (hy : ys[i]? = some y)
    (hx : xs[i]? = some x) (hm : y.op = .mark) : x.op = .mark := by
  have hop := h.ops hq hy
  obtain ⟨z, hz, hzop | ⟨hzop, -⟩ | ⟨hzop, -⟩⟩ := h.direct.at hq
  · rw [Option.some.inj (hx.symm.trans hz), hzop, ← hop, hm]
  · simp [← hop, hm] at hzop
  · simp [← hop, hm] at hzop

theorem Twins.lengths (h : Twins funcs cs cs' code ys xs) :
    (code.zip (ys.zip xs)).map Prod.fst = code ∧ (code.zip (ys.zip xs)).map (fun t => t.2.1) = ys ∧
      (code.zip (ys.zip xs)).map (fun t => t.2.2) = xs := by
  have hlen : ys.length = code.length ∧ xs.length = code.length := ⟨h.plain.length, h.direct.length⟩
  have hfst : (fun t : Piece × Instruction × Instruction => t.2.1) = Prod.fst ∘ Prod.snd := rfl
  have hsnd : (fun t : Piece × Instruction × Instruction => t.2.2) = Prod.snd ∘ Prod.snd := rfl
  refine ⟨List.map_fst_zip (by simp [hlen]), ?_, ?_⟩
  · rw [hfst, ← List.map_map, List.map_snd_zip (by simp [hlen]), List.map_fst_zip (by simp [hlen])]
  · rw [hsnd, ← List.map_map, List.map_snd_zip (by simp [hlen]), List.map_snd_zip (by simp [hlen])]

/-- Positions of the plain code move to those of the same places. -/
theorem Twins.moved (h : Twins funcs cs cs' code ys xs) (hi : i ≤ code.length) :
    Bytecode.moved (counterparts code ys xs) (posAt ys i) = posAt xs i := by
  obtain ⟨-, hys, hxs⟩ := h.lengths
  have hsum := sum_weight (T := code.zip (ys.zip xs)) (p := 0) (by rw [hys]; exact h.plain.placed) (by
    intro t ht hm
    obtain ⟨i, hq, hy, hx⟩ := mem_zip_zip.mp ht
    exact h.mark hq hy hx hm) (i := i) (by simp [h.plain.length, h.direct.length, hi])
  rwa [hys, hxs, Nat.zero_add, ← moved_eq] at hsum

/-- An operand that is neither for a constant nor for an offset is that of the piece. -/
theorem Kept.operand (h : Kept cs xs i x q) (ha : q.Aimed) {j : Nat} (hp : q.op.pool ≠ some j)
    (ho : q.op.offsetOperand? ≠ some j) : x.operands[j]? = q.operands[j]? := by
  obtain ⟨y, hm, hplain, hgoal⟩ := h.operands
  have hy : y.operands[j]? = q.operands[j]? := by
    cases hc : q.const with
    | none => rw [(hm.bare hc).2]
    | some v =>
      obtain ⟨p, k, hpool, -, hops⟩ := hm.const v hc
      have hne : p ≠ j := fun heq => hp (heq ▸ hpool)
      rw [hops, List.getElem?_set_ne hne]
  by_cases hg : ∃ d, q.goal = some (.ahead d)
  · obtain ⟨d, hg⟩ := hg
    obtain ⟨_, _, -, -, hops⟩ := hgoal d hg
    obtain ⟨k, hk⟩ : ∃ k, q.op.offsetOperand? = some k :=
      Option.isSome_iff_exists.mp (by rw [show q.op.offsetOperand?.isSome = q.goal.isSome from ha, hg]; rfl)
    have hne : q.offsetIndex ≠ j := by
      rintro rfl
      exact ho (by rw [Piece.offsetIndex, hk]; rfl)
    rw [hops, List.getElem?_set_ne hne, hy]
  · rw [hplain fun d hd => hg ⟨d, hd⟩, hy]

/-- Every instruction of the plain code still is its piece. -/
theorem Twins.kept_plain (h : Twins funcs cs cs' code ys xs) (hq : code[i]? = some q) (hy : ys[i]? = some y) :
    Kept cs ys i y q := by
  have hop := h.ops hq hy
  obtain ⟨z, hz, -, hkept | ⟨hget, hmark⟩ | ⟨hcall, hcalled⟩⟩ := h.plain.shows hq
  · rwa [Option.some.inj (hy.symm.trans hz)]
  · rw [← Option.some.inj (hy.symm.trans hz), hop, hget] at hmark
    simp at hmark
  · rw [← Option.some.inj (hy.symm.trans hz), hop, hcall] at hcalled
    simp at hcalled

/-- An instruction that belongs to no call of a function of the program still is its piece. -/
theorem Twins.kept_direct (h : Twins funcs cs cs' code ys xs) (hq : code[i]? = some q) (hx : xs[i]? = some x)
    (hnot : ¬q.Calls (· ∈ funcs)) : Kept cs' xs i x q := by
  have hop := h.calls.same hq hx hnot
  obtain ⟨z, hz, -, hkept | ⟨hget, hmark⟩ | ⟨hcall, hcalled⟩⟩ := h.direct.shows hq
  · rwa [Option.some.inj (hx.symm.trans hz)]
  · rw [← Option.some.inj (hx.symm.trans hz), hop, hget] at hmark
    simp at hmark
  · rw [← Option.some.inj (hx.symm.trans hz), hop, hcall] at hcalled
    simp at hcalled

/-- An instruction with an offset leads somewhere. -/
theorem Final.leads (h : Final cs code xs) (hx : xs[i]? = some x) (ho : x.op.offsetOperand?.isSome) :
    ∃ t, Decoded.target? ⟨posAt xs i, x.op, x.operands⟩ = some t := by
  obtain ⟨k, hk⟩ := Option.isSome_iff_exists.mp ho
  have hlt : k < x.operands.length := by
    rw [(h.sound x (List.mem_of_getElem? hx)).count]
    exact Opcode.offsetOperand_lt hk
  exact ⟨_, by simp only [Decoded.target?, hk, Option.bind_some, List.getElem?_eq_getElem hlt, Option.map_some]; rfl⟩

/-- The instructions of a piece that belongs to no call of a function of the program agree. -/
theorem Twins.agrees (h : Twins funcs cs cs' code ys xs) (hq : code[i]? = some q) (hy : ys[i]? = some y)
    (hx : xs[i]? = some x) (hnot : ¬q.Calls (· ∈ funcs)) :
    Decoded.Agrees cs cs' (Bytecode.moved (counterparts code ys xs)) ⟨posAt ys i, y.op, y.operands⟩
      ⟨posAt xs i, x.op, x.operands⟩ := by
  have hplain := h.kept_plain hq hy
  have hdirect := h.kept_direct hq hx hnot
  have hop : x.op = y.op := hdirect.op.trans hplain.op.symm
  have ha := h.directed q (List.mem_of_getElem? hq)
  have hlt := (List.getElem?_eq_some_iff.mp hq).1
  refine ⟨hop, (h.moved (Nat.le_of_lt hlt)).symm, ?_, ?_, ?_⟩
  · intro j hp ho
    have hp : q.op.pool ≠ some j := hplain.op ▸ hp
    have ho : q.op.offsetOperand? ≠ some j := hplain.op ▸ ho
    exact (hdirect.operand ha hp ho).trans (hplain.operand ha hp ho).symm
  · intro j hp
    have hp : q.op.pool = some j := hplain.op ▸ hp
    obtain ⟨k, v, hv, hk, hcs⟩ := hplain.constant ha hp
    obtain ⟨k', v', hv', hk', hcs'⟩ := hdirect.constant ha hp
    obtain rfl : v = v' := Option.some.inj (hv.symm.trans hv')
    exact ⟨k, k', v, hk, hcs, hk', hcs'⟩
  · intro ho
    obtain ⟨t, ht⟩ := h.plain.leads hy ho
    obtain ⟨t', ht'⟩ := h.direct.leads hx (hop ▸ ho)
    obtain ⟨r, d, j, hr, -, hg, hj, hjlt, rfl⟩ := h.plain.target h.directed h.idle hy ht
    obtain ⟨r', d', j', hr', -, hg', hj', -, rfl⟩ := h.direct.target h.directed h.idle hx ht'
    obtain rfl : r = r' := Option.some.inj (hr.symm.trans hr')
    obtain rfl : d = d' := by simpa using hg.symm.trans hg'
    obtain rfl : j = j' := by omega
    refine ⟨posAt ys j, ht, ?_⟩
    rw [h.moved (by rw [← h.plain.length]; exact Nat.le_of_lt hjlt)]
    exact ht'

end Twins

section Rows

variable {funcs : List FuncId} {cs cs' : List Constant} {code : List Piece} {ys xs : List Instruction}

theorem Twins.marks (h : Twins funcs cs cs' code ys xs) :
    ∀ t ∈ code.zip (ys.zip xs), (t.2.1.op = .mark ↔ t.1.op = .mark) ∧ (t.2.1.op = .mark → t.2.2.op = .mark) := by
  intro t ht
  obtain ⟨i, hq, hy, hx⟩ := mem_zip_zip.mp ht
  exact ⟨by rw [h.ops hq hy], h.mark hq hy hx⟩

/-- Counterparts are there for everything that is encoded, in the order of the code. -/
theorem Twins.rows (h : Twins funcs cs cs' code ys xs) :
    ((counterparts code ys xs).map Counterpart.piece = code.filter fun q => q.op ≠ .mark) ∧
      decode (ys.flatMap Instruction.encode) = ((counterparts code ys xs).map Counterpart.plain, none) ∧
      decode (xs.flatMap Instruction.encode) = ((counterparts code ys xs).filterMap Counterpart.direct, none) := by
  obtain ⟨hcode, hys, hxs⟩ := h.lengths
  refine ⟨?_, ?_, ?_⟩
  · rw [counterparts, map_piece_counterpart fun t ht => (h.marks t ht).1, hcode]
  · rw [h.plain.decode, counterparts, map_plain_counterpart, hys]
  · rw [h.direct.decode, counterparts, filterMap_direct_counterpart fun t ht => (h.marks t ht).2, hxs]

/-- The places of counterparts. -/
theorem Twins.mem_counterparts (h : Twins funcs cs cs' code ys xs) {r : Counterpart}
    (hr : r ∈ counterparts code ys xs) : ∃ (i : Nat) (q : Piece) (y x : Instruction),
      code[i]? = some q ∧ ys[i]? = some y ∧ xs[i]? = some x ∧ y.op ≠ .mark ∧
        r = ⟨q, ⟨posAt ys i, y.op, y.operands⟩, x.decoded?⟩ := by
  obtain ⟨t, ht, hsome⟩ := List.mem_filterMap.mp hr
  obtain ⟨i, hq, hy, hx⟩ := mem_zip_zip.mp ht
  obtain ⟨d, hd, rfl⟩ := Option.map_eq_some_iff.mp hsome
  have hpos := h.plain.placed.pos hy
  unfold Instruction.decoded? at hd
  split at hd
  · simp at hd
  · next hm =>
    refine ⟨i, t.1, t.2.1, t.2.2, hq, hy, hx, hm, ?_⟩
    rw [← Option.some.inj hd, hpos]
    simp

end Rows

section Compiled

variable {st : Store} {m : Module} {p : Typed.Program} {plain out : Compiled}

/-- The code with direct calls refines the plain code of a program: their instructions correspond one to one and in order,
except that what pushes a function of the program in order to call it is left out. -/
theorem compile_refines_plain (h : compile st m p = .ok out) (h' : compilePlain st m p = .ok plain) :
    ∃ rows : Section → List Counterpart,
      (∀ s, (rows s).map Counterpart.piece = (programCode (st, m) p s).filter fun q => q.op ≠ .mark) ∧
      decode plain.init = ((rows .init).map Counterpart.plain, none) ∧
      decode plain.code = ((rows .code).map Counterpart.plain, none) ∧
      decode out.init = ((rows .init).filterMap Counterpart.direct, none) ∧
      decode out.code = ((rows .code).filterMap Counterpart.direct, none) ∧
      ∀ s, ∀ r ∈ rows s, r.plain.op = r.piece.op ∧
        r.Refines (st, m) (p.funcs.map Typed.FuncDecl.symbol) plain out (moved (rows s)) := by
  obtain ⟨ys, hplain, hops, hpinit, hpcode⟩ := compilePlain_final h'
  obtain ⟨xs, hdirect, hcalls, hleads, hinit, hcode, -, hbodies⟩ := compile_linked h
  obtain ⟨-, -, hframes⟩ := compile_wellFormedFlow h
  have htwins : ∀ s, Twins (p.funcs.map Typed.FuncDecl.symbol) plain.constants out.constants
      (programCode (st, m) p s) (ys s) (xs s) := by
    intro s
    have hframed : ∃ starts, Framed starts (programCode (st, m) p s) := by
      cases s with
      | init => exact ⟨_, framed_init⟩
      | code => exact ⟨_, framed_funcs hbodies⟩
    obtain ⟨_, hframed⟩ := hframed
    exact ⟨hplain s, hdirect s, fun hq hy => hops s _ _ _ hq hy, hcalls s, hframed.directed, hframed.idle⟩
  refine ⟨fun s => counterparts (programCode (st, m) p s) (ys s) (xs s), fun s => (htwins s).rows.1,
    by rw [hpinit]; exact (htwins .init).rows.2.1, by rw [hpcode]; exact (htwins .code).rows.2.1,
    by rw [hinit]; exact (htwins .init).rows.2.2, by rw [hcode]; exact (htwins .code).rows.2.2, ?_⟩
  intro s r hr
  have ht := htwins s
  obtain ⟨i, q, y, x, hq, hy, hx, hm, rfl⟩ := ht.mem_counterparts hr
  have hop := ht.ops hq hy
  have hmem := List.mem_of_getElem? hq
  have hlt := (List.getElem?_eq_some_iff.mp hq).1
  have hkept := ht.kept_plain hq hy
  have hxpos := ht.direct.placed.pos hx
  refine ⟨hop, ?_⟩
  by_cases hown : q.Calls (· ∈ p.funcs.map Typed.FuncDecl.symbol)
  · obtain ⟨f, hf, hfmem⟩ := hown
    have hown : q.Calls (· ∈ p.funcs.map Typed.FuncDecl.symbol) := ⟨f, hf, hfmem⟩
    obtain ⟨hnative, hmodule, ⟨hget, hzero, hconst⟩ | ⟨hcall, -, bits, hbits⟩⟩ := labelled_programCode p s q hmem f hf
    · -- the function is not pushed
      have hgone := (hcalls s).got hq hx hown hget
      obtain ⟨k, v, hv, hk, hcs⟩ := hkept.constant (ht.directed q hmem) (p := 0) (by rw [hget]; rfl)
      obtain rfl : funcConst (st.func f) = v := Option.some.inj (hconst.symm.trans hv)
      have hcount : y.operands.length = 1 := by
        rw [(ht.plain.sound y (List.mem_of_getElem? hy)).count, hop, hget]
        rfl
      obtain ⟨a, ha⟩ := List.length_eq_one_iff.mp hcount
      refine .pushed f k hf hfmem hnative hmodule (hop.trans hget) ?_ hcs ?_
      · rw [ha] at hk ⊢
        simpa using hk
      · simp [Instruction.decoded?, hgone]
    · -- the call leads to the function
      obtain ⟨hcalled, hargs⟩ := (hcalls s).called hq hx hown hcall
      obtain ⟨z, entry, hz, hlisted, hname, hpos⟩ := hleads s i q f hq hcall hf hfmem
      obtain rfl : x = z := Option.some.inj (hx.symm.trans hz)
      have hcount : x.operands.length = 2 := by
        rw [(ht.direct.sound x (List.mem_of_getElem? hx)).count, hcalled]
        rfl
      obtain ⟨a, b, hab⟩ := List.length_eq_two.mp hcount
      have hoperands : x.operands = [entry.pos, bits] := by
        rw [hab] at hpos hargs ⊢
        rw [hbits] at hargs
        simp_all
      refine .called f bits entry hf hfmem hnative hmodule (hop.trans hcall) ?_ hlisted hname
        (hframes entry (List.mem_reverse.mp (List.mem_of_getElem? hlisted))) ?_
      · apply List.ext_getElem?
        intro j
        rw [← hbits]
        exact hkept.operand (ht.directed q hmem) (by simp [hcall, Opcode.pool, Opcode.info])
          (by simp [hcall, Opcode.offsetOperand?, Opcode.isJump])
      · rw [ht.moved (Nat.le_of_lt hlt)]
        simp [Instruction.decoded?, hcalled, hoperands, hxpos]
  · have hagrees := ht.agrees hq hy hx hown
    have hm : ¬x.op = .mark := by
      rw [show x.op = y.op from hagrees.op]
      exact hm
    refine .same ⟨posAt (xs s) i, x.op, x.operands⟩ hown ?_ hagrees
    simp [Instruction.decoded?, hm, hxpos]

end Compiled

theorem compile_selfCall_refines_plain : ∃ out plain, compile .empty default selfCall = .ok out ∧
    compilePlain .empty default selfCall = .ok plain ∧
    ∃ rows : Section → List Counterpart,
      (∀ s, (rows s).map Counterpart.piece =
        (programCode (.empty, default) selfCall s).filter fun q => q.op ≠ .mark) ∧
      decode plain.init = ((rows .init).map Counterpart.plain, none) ∧
      decode plain.code = ((rows .code).map Counterpart.plain, none) ∧
      decode out.init = ((rows .init).filterMap Counterpart.direct, none) ∧
      decode out.code = ((rows .code).filterMap Counterpart.direct, none) ∧
      ∀ s, ∀ r ∈ rows s, r.plain.op = r.piece.op ∧
        r.Refines (.empty, default) (selfCall.funcs.map Typed.FuncDecl.symbol) plain out (moved (rows s)) := by
  have hok : (compile .empty default selfCall).isOk = true := by decide +kernel
  have hok' : (compilePlain .empty default selfCall).isOk = true := by decide +kernel
  cases h : compile .empty default selfCall with
  | error e =>
    rw [h] at hok
    cases hok
  | ok out =>
    cases h' : compilePlain .empty default selfCall with
    | error e =>
      rw [h'] at hok'
      cases hok'
    | ok plain => exact ⟨out, plain, rfl, rfl, compile_refines_plain h h'⟩

end Weft.Bytecode
