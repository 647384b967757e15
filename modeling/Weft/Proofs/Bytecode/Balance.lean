import Weft.Proofs.Bytecode.ControlFlow
import Weft.Proofs.Bytecode.Depth

/-!
# Stack balance of compiled modules

The code of a well-formed tree flows from the depth before the tree to the depth after it, as the arities of
the tree say. In a compiled module every position has one depth of the operand stack.
-/

namespace Weft.Bytecode

open Typed (Expr Chain Call Append Lambda Frame VarDecl Stmt Block Arm Access)
open Typed (exprsAfter areValues callsAfter areItems areDefaults stmtsAfter armsKeep)
open Typed (exprsCounts callsCounts appendsCounts paramsCounts stmtsCounts armsCounts)

/-! ## Flows of trees -/

theorem argumentCount_operand (args : Typed.Arguments) : argumentCount args.operand = args.count := by
  obtain ⟨w⟩ := args
  have hmask : (w &&& Typed.Arguments.countMask).toNat = w.toNat % 64 := by
    simp only [Typed.Arguments.countMask, UInt32.toNat_and]
    exact Nat.and_two_pow_sub_one_eq_mod w.toNat 6
  have hword : w.toInt32.toInt = w.toNat ∨ w.toInt32.toInt = w.toNat - 2 ^ 32 := by
    change w.toBitVec.toInt = _ ∨ w.toBitVec.toInt = _
    rw [BitVec.toInt_eq_toNat_cond, UInt32.toNat_toBitVec]
    omega
  simp only [Typed.Arguments.operand, Typed.Arguments.count, hmask, argumentCount]
  omega

section Trees

variable {c : Store × Module} {direct : FuncId → Prop} {loop : Nat} {line : Nat}

theorem flow_global {g : GlobalId} {own imported : Opcode} {k m : Nat} (ho : own.isOpen = false)
    (hi : imported.isOpen = false) (hm : ∀ v g, own.Moves v 0 k m g) (hm' : ∀ v g, imported.Moves v 0 k m g) :
    Flow direct loop (globalCode c line g own imported) [] k m := by
  simp only [globalCode]
  split
  · exact .plain ho (hm _)
  · exact .withConst hi (hm' _)

/-- A call of a function takes its arguments, and the function is not on the stack after it. -/
theorem flow_callFunc {f : FuncId} {bits : Int} {kids : List Piece} {ks : List Nat} {len args n values : Nat}
    (hk : ∀ d, Flow direct loop kids ks d (d + len)) (hbits : argumentCount bits = args)
    (htakes : args ≤ n + len) :
    Flow direct loop (callFuncCode c line f bits kids) (ks ++ [values]) n (n + len - args + values) := by
  simp only [callFuncCode]
  split
  · exact (hk n).append (.callPlain rfl fun _ => ⟨by simpa [Opcode.takes, hbits] using htakes,
      by simp [Opcode.takes, Opcode.gives, hbits]⟩)
  · -- both ends of the call name the same function
    let own := if (c.1.func f).module = c.2.name then some f else none
    let get := Piece.calling own (.withConst .getFunc line [0] (some (funcConst (c.1.func f))))
    let call := Piece.calling own (.plain .callPtr line [bits])
    change Flow direct loop (get :: (kids ++ [call])) _ _ _
    by_cases hd : get.Calls direct
    · have hget : Flow direct loop [get] [] n n :=
        .one 0 rfl fun _ => ⟨fun h => absurd hd h, fun _ _ => rfl,
          fun _ h => by simp [get, Piece.calling, Piece.withConst] at h⟩
      have hcall : Flow direct loop [call] [values] (n + len) (n + len - args + values) :=
        .one values rfl fun _ => ⟨fun h => absurd hd h,
          fun _ h => by simp [call, Piece.calling, Piece.plain] at h,
          fun _ _ => ⟨by simpa [Opcode.takes, call, Piece.calling, Piece.plain, Piece.argument, hbits] using htakes,
            by simp [Opcode.takes, Opcode.gives, call, Piece.calling, Piece.plain, Piece.argument, hbits]⟩⟩
      exact hget.cons ((hk n).append hcall)
    · have hget : Flow direct loop [get] [] n (n + 1) :=
        .one 0 rfl fun _ => ⟨fun _ => ⟨Nat.zero_le _, rfl⟩, fun h => absurd h hd, fun h => absurd h hd⟩
      have hcall : Flow direct loop [call] [values] (n + 1 + len) (n + len - args + values) := by
        refine .one values rfl fun _ => ⟨fun _ => ?_, fun h => absurd h hd, fun h => absurd h hd⟩
        simp only [call, Piece.calling, Piece.plain, Piece.argument, List.getLast?_singleton, Option.getD_some,
          Opcode.Moves, Opcode.takes, Opcode.gives, hbits]
        omega
      exact hget.cons ((hk (n + 1)).append hcall)

theorem flow_access {acc : Access} {bits : Int} {kids : List Piece} {ks : List Nat} {len args n : Nat}
    (t : Option Ty) (hk : ∀ d, Flow direct loop kids ks d (d + len))
    (hleaf : acc.isLeaf = true → ks = [] ∧ len = 0) (hbits : argumentCount bits = args)
    (htakes : acc.takes args ≤ n + len) :
    Flow direct loop (accessCode c line acc bits kids)
      (ks ++ if acc.isCall c.1 then [acc.leaves t] else []) n (n + len - acc.takes args + acc.leaves t) := by
  have hkids := hk n
  cases acc with
  | readVar v | varRef v =>
    obtain ⟨rfl, rfl⟩ := hleaf rfl
    exact .plain rfl fun _ => ⟨Nat.zero_le _, rfl⟩
  | readGlobal g =>
    obtain ⟨rfl, rfl⟩ := hleaf rfl
    exact flow_global rfl rfl (fun _ _ => ⟨Nat.zero_le _, rfl⟩) fun _ _ => ⟨Nat.zero_le _, rfl⟩
  | funcRef f =>
    obtain ⟨rfl, rfl⟩ := hleaf rfl
    simp only [accessCode]
    split
    · exact .plain rfl fun _ => ⟨Nat.zero_le _, rfl⟩
    · exact .withConst rfl fun _ => ⟨Nat.zero_le _, rfl⟩
  | readNative slot =>
    obtain ⟨rfl, rfl⟩ := hleaf rfl
    exact .callPlain rfl fun _ => ⟨htakes, rfl⟩
  | readField f =>
    obtain ⟨rfl, rfl⟩ := hleaf rfl
    simp only [accessCode]
    by_cases hn : (c.1.field f).native = true
    · rw [if_pos hn, if_pos (show (Access.readField f).isCall c.1 = true from hn)]
      exact .callPlain rfl fun _ => ⟨htakes, rfl⟩
    · rw [if_neg hn, if_neg (show ¬(Access.readField f).isCall c.1 = true from hn)]
      exact .plain rfl fun _ => ⟨htakes, rfl⟩
  | writeGlobal g => exact hkids.append (flow_global rfl rfl (fun _ _ => ⟨htakes, rfl⟩) fun _ _ => ⟨htakes, rfl⟩)
  | writeVar | writeField | initField | arrayGet | arraySet | mapGet | mapSet =>
    exact hkids.append (.plain rfl fun _ => ⟨htakes, rfl⟩)
  | func f => exact flow_callFunc hk hbits htakes
  | method f =>
    subst hbits
    simp only [accessCode]
    split
    · exact hkids.append (.callPlain rfl fun _ => ⟨htakes, rfl⟩)
    · exact hkids.append (.callConst rfl fun _ => ⟨htakes, rfl⟩)
  | methodNative | methodVirtual | funcPtr =>
    subst hbits
    exact hkids.append (.callPlain rfl fun _ => ⟨htakes, rfl⟩)
  | methodIface f =>
    subst hbits
    exact hkids.append (.callConst rfl fun _ => ⟨htakes, rfl⟩)

theorem flow_group {keep : Bool} {number : Int} {body : List Piece} {ns : List Nat} {k m : Nat}
    (h : Flow direct loop body ns k m) : Flow direct loop (groupCode keep line number body) ns k m := by
  unfold groupCode
  cases keep with
  | true =>
    have hhead : Flow direct loop (.leading .block line [number, 0] (.ahead (body.length + 1)) :: body) ns k m :=
      h.leading rfl rfl ⟨Nat.zero_le _, rfl⟩
    simpa using hhead.append .mark
  | false => simpa using (Flow.mark.cons h).append .mark

theorem flow_pops {k n : Nat} : Flow direct loop (List.replicate k (.plain .pop line [])) [] (n + k) n := by
  induction k with
  | zero => exact .nil
  | succ k ih =>
    rw [List.replicate_succ]
    have hpop : Flow direct loop [.plain .pop line []] [] (n + (k + 1)) (n + k) :=
      .plain rfl fun _ => ⟨Nat.le_add_left .., rfl⟩
    exact hpop.cons ih

theorem flow_upvals {us : List Typed.Upval} {n : Nat} : Flow direct loop (us.map fun u =>
    .plain .useUpval line [(u.src : Int), u.dst, if u.copied then 0 else 1]) [] (n + 1) (n + 1) := by
  induction us with
  | nil => exact .nil
  | cons u us ih =>
    have huse : Flow direct loop [.plain .useUpval line [(u.src : Int), u.dst, if u.copied then 0 else 1]] []
        (n + 1) (n + 1) := .plain rfl fun _ => ⟨Nat.le_add_left .., rfl⟩
    exact huse.cons ih

theorem flow_arg {v : LocalVar} {n : Nat} : Flow direct loop [argPiece line v] [] (n + 1) n := by
  unfold argPiece
  split
  · exact .plain rfl fun _ => ⟨Nat.le_add_left .., rfl⟩
  · exact .plain rfl fun _ => ⟨Nat.le_add_left .., rfl⟩

/-- A computation that may stop gives a result only if its first part does. -/
private theorem of_if {α : Type} {p : Prop} [Decidable p] {x y : α} (h : (if p then some x else none) = some y) :
    p ∧ x = y := by
  split at h
  · next hp => exact ⟨hp, Option.some.inj h⟩
  · simp at h

theorem moves_binary (op : BinaryOp) (h : ¬(op = .and ∨ op = .or)) (v : Int) (n g : Nat) :
    (Lower.binaryOpcode op).Moves v 0 (n + 1 + 1) (n + 1) g := by
  cases op <;> simp [Lower.binaryOpcode, Opcode.Moves, Opcode.takes, Opcode.gives] at h ⊢

mutual

/-- The code of an expression flows to the depth after it, whatever is below it on the stack. -/
theorem flow_expr {loop k m : Nat} (d : Nat) : (x : Expr) → x.after k = some m →
    Flow direct loop (exprCode c x) (x.counts c.1) (d + k) (d + m)
  | .literal _ _ _, h => by
    obtain rfl : k + 1 = m := Option.some.inj h
    exact .withConst rfl fun _ => ⟨Nat.zero_le _, rfl⟩
  | .unary line op _ x, h => by
    obtain ⟨hx, rfl⟩ := of_if h
    have hxf : Flow direct loop (exprCode c x) (x.counts c.1) (d + k) (d + k + 1) := flow_expr (d + k) x hx
    simp only [exprCode, Expr.counts, ← Nat.add_assoc]
    cases op with
    | neg =>
      have hneg : Flow direct loop [.plain .neg line []] [] (d + k + 1) (d + k + 1) :=
        .plain rfl fun _ => ⟨Nat.le_add_left .., rfl⟩
      simpa using hxf.append hneg
    | not =>
      have hnot : Flow direct loop [.plain .not line []] [] (d + k + 1) (d + k + 1) :=
        .plain rfl fun _ => ⟨Nat.le_add_left .., rfl⟩
      simpa using hxf.append hnot
  | .binary line op _ x y, h => by
    obtain ⟨⟨hx, hy⟩, rfl⟩ := of_if h
    have hxf : Flow direct loop (exprCode c x) (x.counts c.1) (d + k) (d + k + 1) := flow_expr (d + k) x hx
    simp only [exprCode, Expr.counts]
    by_cases hop : op = .and ∨ op = .or
    · rw [if_pos hop]
      have hyf : Flow direct loop (exprCode c y) (y.counts c.1) (d + k) (d + k + 1) := flow_expr (d + k) y hy
      have hjump : Flow direct loop (.leading (Lower.binaryOpcode op) line [0]
          (.ahead ((exprCode c y).length + 1)) :: exprCode c y) (y.counts c.1) (d + k + 1) (d + k + 1) := by
        rcases hop with rfl | rfl
        · exact hyf.leading rfl rfl ⟨rfl, rfl⟩
        · exact hyf.leading rfl rfl ⟨rfl, rfl⟩
      simpa [Nat.add_assoc] using hxf.append (hjump.append .mark)
    · rw [if_neg hop]
      have hyf : Flow direct loop (exprCode c y) (y.counts c.1) (d + k + 1) (d + k + 1 + 1) :=
        flow_expr (d + k + 1) y hy
      have hopen : (Lower.binaryOpcode op).isOpen = false := by cases op <;> rfl
      simpa [Nat.add_assoc] using (hxf.append hyf).append (.plain hopen fun _ => moves_binary op hop _ _ _)
  | .chain ⟨_, _, _, links⟩, h => flow_exprs d links h
  | .call x, h => flow_call d x h
  | .cast line kind t x, h => by
    obtain ⟨hx, rfl⟩ := of_if h
    have hcast : Flow direct loop [.withConst (Lower.castOpcode kind) line [0] (typeConst? c.1 t)] []
        (d + k + 1) (d + k + 1) := by
      cases kind with
      | explicit => exact .withConst rfl fun _ => ⟨Nat.le_add_left .., rfl⟩
      | asType => exact .withConst rfl fun _ => ⟨Nat.le_add_left .., rfl⟩
      | isType => exact .withConst rfl fun _ => ⟨Nat.le_add_left .., rfl⟩
    simpa [exprCode, Expr.counts, Nat.add_assoc] using (flow_expr (d + k) x hx).append hcast
  | .new line t inits, h => by
    obtain ⟨hinits, rfl⟩ := of_if h
    have hnew : Flow direct loop [.withConst .new line [0] (typeConst? c.1 t)] [] (d + k) (d + k + 1) :=
      .withConst rfl fun _ => ⟨Nat.zero_le _, rfl⟩
    exact hnew.cons (flow_calls (d + k) inits hinits)
  | .collection line t items, h => by
    obtain ⟨hitems, rfl⟩ := of_if h
    have hnew : Flow direct loop [.withConst .new line [0] (typeConst? c.1 (some t))] [] (d + k) (d + k + 1) :=
      .withConst rfl fun _ => ⟨Nat.zero_le _, rfl⟩
    exact hnew.cons (flow_appends (d + k) items hitems)
  | .lambda fn, h => by
    obtain ⟨hfn, rfl⟩ := of_if h
    exact flow_lambda (d + k) fn hfn

theorem flow_exprs {loop k m : Nat} (d : Nat) : (xs : List Expr) → exprsAfter xs k = some m →
    Flow direct loop (exprsCode c xs) (exprsCounts c.1 xs) (d + k) (d + m)
  | [], h => by
    obtain rfl : k = m := Option.some.inj h
    exact .nil
  | x :: xs, h => by
    obtain ⟨j, hx, hxs⟩ := Option.bind_eq_some_iff.mp h
    exact (flow_expr d x hx).append (flow_exprs d xs hxs)

theorem flow_values {loop : Nat} (d : Nat) : (xs : List Expr) → areValues xs = true →
    Flow direct loop (exprsCode c xs) (exprsCounts c.1 xs) d (d + xs.length)
  | [], _ => .nil
  | x :: xs, h => by
    simp only [areValues, Bool.and_eq_true, decide_eq_true_eq] at h
    have hlen : d + (x :: xs).length = d + 1 + xs.length := by simp only [List.length_cons]; omega
    rw [hlen]
    exact (flow_expr d x h.1).append (flow_values (d + 1) xs h.2)

theorem flow_call {loop k m : Nat} (d : Nat) : (x : Call) → x.after k = some m →
    Flow direct loop (callCode c x) (x.counts c.1) (d + k) (d + m)
  | ⟨line, acc, _, t, args, _, kids⟩, h => by
    obtain ⟨⟨hvalues, hleaf, -, htakes⟩, rfl⟩ := of_if h
    have hlen : d + k + kids.length - acc.takes args.count + acc.leaves t =
        d + (k + kids.length - acc.takes args.count + acc.leaves t) := by omega
    rw [← hlen]
    refine flow_access t (fun e => flow_values e kids hvalues) ?_ (argumentCount_operand args) (by omega)
    intro hl
    obtain rfl := List.isEmpty_iff.mp (hleaf hl)
    exact ⟨rfl, rfl⟩

theorem flow_calls {loop k m : Nat} (d : Nat) : (xs : List Call) → callsAfter xs k = some m →
    Flow direct loop (callsCode c xs) (callsCounts c.1 xs) (d + k) (d + m)
  | [], h => by
    obtain rfl : k = m := Option.some.inj h
    exact .nil
  | x :: xs, h => by
    obtain ⟨j, hx, hxs⟩ := Option.bind_eq_some_iff.mp h
    exact (flow_call d x hx).append (flow_calls d xs hxs)

theorem flow_appends {loop : Nat} (d : Nat) : (xs : List Append) → areItems xs = true →
    Flow direct loop (appendsCode c xs) (appendsCounts c.1 xs) (d + 1) (d + 1)
  | [], _ => .nil
  | .element line x :: rest, h => by
    simp only [areItems, Bool.and_eq_true, decide_eq_true_eq] at h
    have hadd : Flow direct loop [.plain .arrayAdd line []] [] (d + 1 + 1) (d + 1) :=
      .plain rfl fun _ => ⟨Nat.le_add_left .., rfl⟩
    exact (flow_expr (d + 1) x h.1).append (hadd.cons (flow_appends d rest h.2))
  | .entry line x y :: rest, h => by
    simp only [areItems, Bool.and_eq_true, decide_eq_true_eq] at h
    have hadd : Flow direct loop [.plain .mapAdd line []] [] (d + 1 + 1 + 1) (d + 1) :=
      .plain rfl fun _ => ⟨Nat.le_add_left .., rfl⟩
    exact ((flow_expr (d + 1) x h.1.1).append (flow_expr (d + 1 + 1) y h.1.2)).append
      (hadd.cons (flow_appends d rest h.2))

theorem flow_lambda {loop : Nat} (d : Nat) : (x : Lambda) → x.isBalanced = true →
    Flow direct loop (lambdaCode c x) (x.counts c.1) d (d + 1)
  | ⟨line, _, upvals, ⟨slots, ps, bodyLine, body⟩⟩, h => by
    simp only [Lambda.isBalanced, Bool.and_eq_true, decide_eq_true_eq] at h
    have hframe : Flow direct loop [.plain .initFrame line [(slots : Int)]] [] ps.length ps.length :=
      .plain rfl fun _ => ⟨Nat.zero_le _, rfl⟩
    have hparams : Flow direct loop (paramsCode c (Lower.firstDefault ps) 0 ps) (paramsCounts c.1 ps) ps.length 0 := by
      simpa using flow_params 0 ps h.1
    have hbody : Flow direct loop (closeCode (Lower.lastLine ⟨slots, ps, bodyLine, body⟩) (stmtsCode c false body))
        (stmtsCounts c.1 body) 0 (d + 1) := (flow_stmts body h.2).close (nested_stmts body).goals
    have hinner := hframe.cons (hparams.append hbody)
    have hskip : Flow direct loop (.mark line :: upvals.map fun u =>
        .plain .useUpval line [(u.src : Int), u.dst, if u.copied then 0 else 1]) [] (d + 1) (d + 1) :=
      Flow.mark.cons flow_upvals
    simpa [lambdaCode, Lambda.counts] using hinner.lambda.append hskip

theorem flow_params {first i loop : Nat} (d : Nat) : (ps : List VarDecl) → areDefaults ps = true →
    Flow direct loop (paramsCode c first i ps) (paramsCounts c.1 ps) (d + ps.length) d
  | [], _ => .nil
  | ⟨line, v, none⟩ :: rest, h => by
    have hrest : Flow direct loop (paramsCode c first (i + 1) rest) (paramsCounts c.1 rest)
        (d + (rest.length + 1)) (d + 1) := by
      rw [Nat.add_comm rest.length, ← Nat.add_assoc]
      exact flow_params (d + 1) rest h
    have harg : Flow direct loop [argPiece line v] [] (d + 1) d := flow_arg
    simpa [paramsCode, paramsCounts] using hrest.append harg
  | ⟨line, v, some x⟩ :: rest, h => by
    simp only [areDefaults, Bool.and_eq_true, decide_eq_true_eq] at h
    have hrest : Flow direct loop (paramsCode c first (i + 1) rest) (paramsCounts c.1 rest)
        (d + (rest.length + 1)) (d + 1) := by
      rw [Nat.add_comm rest.length, ← Nat.add_assoc]
      exact flow_params (d + 1) rest h.2
    have harg : Flow direct loop [argPiece line v] [] (d + 1) d := flow_arg
    have hdefault : Flow direct loop (.leading .defArg line [(i : Int) - first, 0]
        (.ahead ((exprCode c x).length + 1)) :: exprCode c x) (x.counts c.1) (d + 1) (d + 1) :=
      (flow_expr d x h.1).leading rfl rfl ⟨rfl, rfl⟩
    simpa [paramsCode, paramsCounts] using hrest.append (hdefault.append (Flow.mark.cons harg))

theorem flow_stmt {under : Bool} {loop k m : Nat} : (x : Stmt) → x.after loop k = some m →
    Flow direct loop (stmtCode c under x) (x.counts c.1) k m
  | .expr x, h => by
    have hx : Flow direct loop (exprCode c x) (x.counts c.1) (0 + k) (0 + m) := flow_expr 0 x h
    simpa [stmtCode, Stmt.counts] using hx
  | .discard line j x, h => by
    obtain ⟨hx, rfl⟩ := of_if h
    have hx : Flow direct loop (exprCode c x) (x.counts c.1) (k + 0) (k + j) := flow_expr k x hx
    have hpops : Flow direct loop (List.replicate j (.plain .pop line [])) [] (k + j) k := flow_pops
    simpa [stmtCode, Stmt.counts] using hx.append hpops
  | .var ⟨_, _, none⟩, h => by
    obtain rfl : k = m := Option.some.inj h
    exact .withConst rfl fun _ => ⟨Nat.zero_le _, rfl⟩
  | .var ⟨line, v, some x⟩, h => by
    obtain ⟨hx, rfl⟩ := of_if h
    have hset : Flow direct loop [.plain .setVar line [v.slot]] [] (k + 1) k :=
      .plain rfl fun _ => ⟨Nat.le_add_left .., rfl⟩
    have hx : Flow direct loop (exprCode c x) (x.counts c.1) (k + 0) (k + 1) := flow_expr k x hx
    simpa [stmtCode, Stmt.counts] using hx.append hset
  | .ret line j values, h => by
    obtain ⟨⟨rfl, hvalues⟩, rfl⟩ := of_if h
    have hret : Flow direct loop [if j = 0 then .plain .ret line [] else .plain .returnVal line [(j : Int)]] []
        j 0 := by
      split
      · exact .plain rfl fun _ => ‹j = 0›
      · exact .plain rfl fun _ => rfl
    rw [← Nat.zero_add j] at hret
    have hvalues : Flow direct loop (exprsCode c values) (exprsCounts c.1 values) (0 + 0) (0 + j) :=
      flow_exprs 0 values hvalues
    simpa [stmtCode, Stmt.counts] using hvalues.append hret
  | .brk line, h => by
    obtain ⟨rfl, rfl⟩ := of_if h
    exact .wait (.inl rfl) (.inl rfl)
  | .cont line, h => by
    obtain ⟨rfl, rfl⟩ := of_if h
    exact .wait (.inr rfl) (.inr rfl)
  | .yield _, h => by
    obtain rfl : k = m := Option.some.inj h
    exact .plain rfl fun _ => ⟨Nat.zero_le _, rfl⟩
  | .block b, h => by
    obtain ⟨hb, rfl⟩ := of_if h
    exact flow_block b hb

theorem flow_stmts {under : Bool} {loop k m : Nat} : (xs : List Stmt) → stmtsAfter loop xs k = some m →
    Flow direct loop (stmtsCode c under xs) (stmtsCounts c.1 xs) k m
  | [], h => by
    obtain rfl : k = m := Option.some.inj h
    exact .nil
  | x :: xs, h => by
    obtain ⟨j, hx, hxs⟩ := Option.bind_eq_some_iff.mp h
    exact (flow_stmt x hx).append (flow_stmts xs hxs)

theorem flow_branches {loop k m : Nat} : (xs : List Stmt) → stmtsAfter loop xs k = some m →
    Flow direct loop (branchesCode c xs) (stmtsCounts c.1 xs) k m
  | [], h => by
    obtain rfl : k = m := Option.some.inj h
    exact .nil
  | x :: xs, h => by
    obtain ⟨j, hx, hxs⟩ := Option.bind_eq_some_iff.mp h
    simp only [branchesCode]
    refine Flow.append ?_ (flow_branches xs hxs)
    split
    · exact flow_stmt x hx
    · exact flow_group (flow_stmt x hx)

theorem flow_block {under : Bool} {loop k : Nat} : (b : Block) → b.keeps loop k = true →
    Flow direct loop (blockCode c under b) (b.counts c.1) k k
  | .group line kind ss, h => by
    simp only [Block.keeps, decide_eq_true_eq] at h
    simp only [blockCode]
    refine flow_group ?_
    split
    · exact flow_branches ss h
    · exact flow_stmts ss h
  | .cond line as none, h => by
    have harms : Flow direct loop (armsCode c under line false 0 as ++ []) (armsCounts c.1 as ++ []) k k :=
      flow_arms as h .nil
    have hmark : Flow direct loop [.mark line] [] k k := .mark
    simpa [blockCode, Block.counts] using harms.append hmark
  | .cond line as (some b), h => by
    simp only [Block.keeps, Bool.and_eq_true] at h
    have harms : Flow direct loop (armsCode c under line true (blockCode c under b).length as ++ blockCode c under b)
        (armsCounts c.1 as ++ b.counts c.1) k k := flow_arms as h.1 (flow_block b h.2)
    have hmark : Flow direct loop [Piece.mark line] [] k k := .mark
    simpa [blockCode, Block.counts] using harms.append hmark
  | .whileLoop line test body none, h => by
    simp only [Block.keeps, Bool.and_eq_true, decide_eq_true_eq] at h
    have htest : Flow direct loop (exprCode c test) (test.counts c.1) k (k + 1) := flow_expr k test h.1
    have hloop : Flow direct loop (whileCode line (exprCode c test) (blockCode c under body) [])
        (test.counts c.1 ++ body.counts c.1 ++ []) k k := .whileLoop htest (flow_block body h.2) .nil
    simpa [blockCode, Block.counts] using hloop
  | .whileLoop line test body (some post), h => by
    simp only [Block.keeps, Bool.and_eq_true, decide_eq_true_eq] at h
    exact Flow.whileLoop (flow_expr k test h.1.1) (flow_block body h.1.2) (flow_block post h.2)
  | .doLoop line body test, h => by
    simp only [Block.keeps, Bool.and_eq_true, decide_eq_true_eq] at h
    exact Flow.doLoop (flow_block body h.1) (flow_expr k test h.2)

theorem flow_arms {under more : Bool} {line loop k : Nat} {rest : List Piece} {ns : List Nat} :
    (as : List Arm) → armsKeep loop as k = true → Flow direct loop rest ns k k →
    Flow direct loop (armsCode c under line more rest.length as ++ rest) (armsCounts c.1 as ++ ns) k k
  | [], _, hrest => hrest
  | ⟨test, body⟩ :: as, h, hrest => by
    simp only [armsKeep, Bool.and_eq_true, decide_eq_true_eq] at h
    have hothers : Flow direct loop (armsCode c under line more rest.length as ++ rest) (armsCounts c.1 as ++ ns) k k :=
      flow_arms as h.2 hrest
    have htest : Flow direct loop (exprCode c test) (test.counts c.1) k (k + 1) := flow_expr k test h.1.1
    have hbody : Flow direct loop (blockCode c under body) (body.counts c.1) k k := flow_block body h.1.2
    simpa [armsCode, armsCounts] using htest.arm hbody hothers

end

/-! ## Flows of programs -/

theorem flow_frame {line : Nat} {method : Bool} {f : Frame} (h : f.isBalanced = true) (n : Nat) :
    Flow direct 0 (frameCode c line method f) (f.counts c.1) (f.params.length + if method then 1 else 0) n := by
  simp only [Frame.isBalanced, Bool.and_eq_true, decide_eq_true_eq] at h
  have hframe : ∀ {k : Nat}, Flow direct 0 [.plain .initFrame line [(f.slots : Int)]] [] k k :=
    .plain rfl fun _ => ⟨Nat.zero_le _, rfl⟩
  have hbody : Flow direct 0 (closeCode (Lower.lastLine f) (stmtsCode c false f.body)) (stmtsCounts c.1 f.body) 0 n :=
    (flow_stmts f.body h.2).close (nested_stmts f.body).goals
  have hthis : Flow direct 0 (if method then [.plain .argVar line [0]] else []) [] (if method then 1 else 0) 0 := by
    cases method with
    | true => exact .plain rfl fun _ => ⟨Nat.le_refl _, rfl⟩
    | false => exact .nil
  have hparams : Flow direct 0 (paramsCode c (Lower.firstDefault f.params) 0 f.params) (paramsCounts c.1 f.params)
      (f.params.length + if method then 1 else 0) (if method then 1 else 0) := by
    rw [Nat.add_comm]
    exact flow_params _ f.params h.1
  simpa [frameCode, Frame.counts] using hframe.cons ((hparams.append hthis).append hbody)

theorem flow_func {d : Typed.FuncDecl} (hc : Compilable c d) (h : d.frame.all Frame.isBalanced = true) (n : Nat) :
    Flow direct 0 (funcCode c d) ((d.frame.map (Frame.counts c.1)).getD []) (d.arity c.1) n := by
  obtain ⟨f, hf, -⟩ := hc
  rw [hf, Option.all_some] at h
  have hframe : Flow direct 0 (frameCode c d.line (c.1.func d.symbol).owner.isSome f) (f.counts c.1)
      (f.params.length + if (c.1.func d.symbol).owner.isSome then 1 else 0) n := flow_frame h n
  simpa [funcCode, Typed.FuncDecl.arity, hf] using hframe

/-- The code of functions one after the other. Each is entered with its arguments on the stack. -/
theorem depths_funcs (direct : FuncId → Prop) {fs : List Typed.FuncDecl} (hc : ∀ f ∈ fs, Compilable c f)
    (h : ∀ f ∈ fs, f.frame.all Frame.isBalanced = true) :
    ∃ a ds, Depths direct 0 (fs.flatMap (funcCode c))
      (fs.flatMap fun d => (d.frame.map (Frame.counts c.1)).getD []) a 0 ds ∧
      ((entryPlaces c 0 fs).map Prod.snd).map (fun k => ds[k]?.map Prod.fst) =
        fs.map fun d => some (d.arity c.1) := by
  induction fs with
  | nil => exact ⟨0, [], ⟨rfl, rfl, rfl, fun f o _ i q hq => by simp at hq⟩, rfl⟩
  | cons d fs ih =>
    obtain ⟨a, es, he, hplaces⟩ := ih (fun f hf => hc f (by simp [hf])) fun f hf => h f (by simp [hf])
    have hfunc : Flow direct 0 (funcCode c d) ((d.frame.map (Frame.counts c.1)).getD []) (d.arity c.1) a :=
      flow_func (hc d (by simp)) (h d (by simp)) a
    obtain ⟨ds, hd⟩ := hfunc
    refine ⟨_, ds ++ es, hd.append he, ?_⟩
    have hlen : 0 < ds.length := by
      rw [hd.length]
      exact funcCode_ne_nil (hc d (by simp))
    have hfirst : (ds ++ es)[0]?.map Prod.fst = some (d.arity c.1) := by
      rw [List.getElem?_append_left hlen]
      have := hd.first
      cases ds with
      | nil => simp at hlen
      | cons e ds => simpa [firstDepth] using this
    rw [entryPlaces, List.map_cons, List.map_cons, List.map_cons, hfirst, Nat.zero_add, entryPlaces_shift,
      List.map_map, ← hplaces]
    congr 1
    apply List.map_congr_left
    intro k _
    rw [Function.comp_apply, ← hd.length, List.getElem?_append_right (Nat.le_add_right _ _),
      Nat.add_sub_cancel_left]

/-- The code that initialises a module starts and ends with an empty stack. -/
theorem flow_init {ds : List Typed.Decl} (h : ∀ d ∈ ds, d.isBalanced = true) :
    Flow direct 0 (ds.flatMap (initCode c) ++ [Piece.plain .ret line []]) (ds.flatMap (Typed.Decl.initCounts c.1)) 0 0 := by
  induction ds with
  | nil => exact .plain rfl fun _ => rfl
  | cons d ds ih =>
    have hd : Flow direct 0 (initCode c d) (d.initCounts c.1) 0 0 := by
      cases d with
      | importing line name => exact .withConst rfl fun _ => ⟨Nat.le_refl _, rfl⟩
      | func d => exact .nil
      | cls line k methods => exact .nil
      | global line g init =>
        cases init with
        | none => exact .nil
        | some x =>
          have hx := h (.global line g (some x)) (by simp)
          simp only [Typed.Decl.isBalanced, decide_eq_true_eq] at hx
          have hset : Flow direct 0 [.plain .setGlobal line [(c.1.global g).index]] [] 1 0 :=
            .plain rfl fun _ => ⟨Nat.le_refl _, rfl⟩
          have hx : Flow direct 0 (exprCode c x) (x.counts c.1) 0 1 := flow_expr 0 x hx
          simpa [initCode, Typed.Decl.initCounts] using hx.append hset
    simpa using hd.append (ih fun e he => h e (by simp [he]))

end Trees

/-! ## Compiled code -/

/-- One depth of the operand stack for every position of code. Every instruction finds the values that it
takes, and along every edge of the control flow the depth changes as the instruction says. What is not in
the code are the counts of calls and lambdas, which are given in the order of these instructions: how many
values the callee leaves, and with how many values the body of the lambda starts. -/
structure StackBalanced (counts : List Nat) (code : Bytes) (depth count : Nat → Nat) : Prop where
  decodes : (decode code).2 = none
  counts : ((decode code).1.filter fun d => d.op.isOpen).map (fun d => count d.pos) = counts
  moves : ∀ d ∈ (decode code).1, d.op.Moves (d.operands.getLast?.getD 0) (count d.pos) (depth d.pos)
    (depth d.next) ((d.target?.map fun t => depth t.toNat).getD 0)

theorem Opcode.moves_goal {op : Opcode} {v : Int} {n k m g : Nat} (g' : Nat) (ho : op.offsetOperand? = none)
    (h : op.Moves v n k m g) : op.Moves v n k m g' := by
  cases op <;> first | exact h | simp [Opcode.offsetOperand?, Opcode.isJump] at ho

theorem Opcode.moves_argument {op : Opcode} {v : Int} {n k m g : Nat} (v' : Int) (hc : op.isCall = false)
    (hr : op ≠ .returnVal) (h : op.Moves v n k m g) : op.Moves v' n k m g := by
  cases op <;> first | exact h | exact absurd rfl hr | simp [Opcode.isCall] at hc

section Final

variable {cs : List Constant} {code : List Piece} {xs : List Instruction} {direct : FuncId → Prop}
  {starts : List Nat} {x : Instruction} {q : Piece} {i : Nat}

private theorem Kept.argument (h : Kept cs xs i x q) (hg : q.goal = none)
    (ho : q.op.isCall = true ∨ q.op = .returnVal) : x.operands.getLast?.getD 0 = q.argument := by
  obtain ⟨y, hm, hplain, -⟩ := h.operands
  rw [hplain (by simp [hg]), Piece.argument]
  cases hc : q.const with
  | none => rw [(hm.bare hc).2]
  | some v =>
    obtain ⟨p, j, hp, -, hops⟩ := hm.const v hc
    have hlen : q.operands.length = q.op.widths.length := by
      rw [← hm.op, ← hm.sound.count, hops, List.length_set]
    have hlast : p ≠ q.operands.length - 1 := by
      rw [hlen]
      revert hp ho
      cases q.op <;> simp [Opcode.isCall, Opcode.pool, Opcode.info, Opcode.widths] <;> omega
    rw [hops, List.getLast?_eq_getElem?, List.getLast?_eq_getElem?, List.length_set, List.getElem?_set_ne hlast]

private theorem moves_final (hf : Final cs code xs) (hdir : Direct direct code xs) (hq : code[i]? = some q)
    (hx : xs[i]? = some x) {n k m g : Nat} (hleads : q.goal ≠ none → q.op.offsetOperand? ≠ none)
    (h : q.Moves direct n k m g) : x.op.Moves (x.operands.getLast?.getD 0) n k m g := by
  by_cases hcalls : q.Calls direct
  · rcases hdir.named q (List.mem_of_getElem? hq) hcalls with ho | ho
    · rw [hdir.got hq hx hcalls ho]
      exact ⟨Nat.zero_le _, h.got hcalls ho⟩
    · obtain ⟨hop, hargs⟩ := hdir.called hq hx hcalls ho
      have hcount : x.operands.length = 2 := by
        rw [(hf.sound x (List.mem_of_getElem? hx)).count, hop]
        rfl
      rw [hop, List.getLast?_eq_getElem?, hcount, hargs]
      exact h.called hcalls ho
  · have hop := hdir.same hq hx hcalls
    have hm := h.same hcalls
    rw [hop]
    by_cases hc : q.op.isCall = true ∨ q.op = .returnVal
    · have hg : q.goal = none := by
        by_contra hg
        have := hleads hg
        revert hc this
        cases q.op <;> simp [Opcode.isCall, Opcode.offsetOperand?, Opcode.isJump]
      obtain ⟨z, hz, -, hkept | ⟨ho, hzo⟩ | ⟨ho, hzo⟩⟩ := hf.shows hq
      · obtain rfl : x = z := Option.some.inj (hx.symm.trans hz)
        rwa [hkept.argument hg hc]
      · obtain rfl : x = z := Option.some.inj (hx.symm.trans hz)
        simp [hzo, ho] at hop
      · obtain rfl : x = z := Option.some.inj (hx.symm.trans hz)
        simp [hzo, ho] at hop
    · simp only [not_or, Bool.not_eq_true] at hc
      exact Opcode.moves_argument _ hc.1 hc.2 hm

/-- Marks do not move the depth, so that a position has one depth. -/
private theorem depth_of_posAt (f : Int → Nat × Nat)
    (hmark : ∀ {k : Nat} {x : Instruction}, xs[k]? = some x → x.op = .mark → (f (k + 1)).1 = (f k).1)
    {i j : Nat} (hij : i ≤ j) (hj : j ≤ xs.length) (hpos : posAt xs i = posAt xs j) : (f i).1 = (f j).1 := by
  induction j, hij using Nat.le_induction with
  | base => rfl
  | succ j hij ih =>
    have hx := List.getElem?_eq_getElem (l := xs) (i := j) (by omega)
    have hle := posAt_mono xs hij
    have hmarked : (xs[j]).op = .mark := by
      by_contra hne
      have := posAt_lt hx hne (show j < j + 1 by omega)
      omega
    have hstep := posAt_mark hx hmarked
    rw [Int.natCast_add, Int.natCast_one, hmark hx hmarked]
    exact ih (by omega) (by omega)

private theorem filter_map_congr {α β γ : Type} {as : List α} {bs : List β} {p : α → Bool} {r : β → Bool}
    {g : α → γ} {h : β → γ} (hlen : as.length = bs.length)
    (hall : ∀ (i : Nat) a b, as[i]? = some a → bs[i]? = some b → p a = r b ∧ (p a = true → g a = h b)) :
    (as.filter p).map g = (bs.filter r).map h := by
  induction as generalizing bs with
  | nil =>
    obtain rfl : bs = [] := List.eq_nil_of_length_eq_zero hlen.symm
    rfl
  | cons a as ih =>
    cases bs with
    | nil => simp at hlen
    | cons b bs =>
      obtain ⟨hp, hg⟩ := hall 0 a b rfl rfl
      have hrest := ih (by simpa using hlen) fun i a' b' ha hb =>
        hall (i + 1) a' b' (by simpa using ha) (by simpa using hb)
      by_cases hpa : p a = true
      · rw [List.filter_cons_of_pos hpa, List.filter_cons_of_pos (hp ▸ hpa), List.map_cons, List.map_cons,
          hg hpa, hrest]
      · rw [List.filter_cons_of_neg hpa, List.filter_cons_of_neg (hp ▸ hpa), hrest]

private theorem filter_map_decoded {count : Nat → Nat} : ((xs.filterMap Instruction.decoded?).filter
    fun d => d.op.isOpen).map (fun d => count d.pos) =
      (xs.filter fun x => x.op.isOpen).map fun x => count x.pos.toNat := by
  induction xs with
  | nil => rfl
  | cons x xs ih =>
    by_cases hm : x.op = .mark
    · have hopen : x.op.isOpen = false := by rw [hm]; rfl
      have hnone : x.decoded? = none := by simp [Instruction.decoded?, hm]
      rw [List.filterMap_cons_none hnone, List.filter_cons_of_neg (by simp [hopen]), ih]
    · have hsome : x.decoded? = some ⟨x.pos.toNat, x.op, x.operands⟩ := by simp [Instruction.decoded?, hm]
      rw [List.filterMap_cons_some hsome]
      by_cases hopen : x.op.isOpen = true
      · simp only [List.filter_cons, hopen, if_true, List.map_cons, ih]
      · simp only [List.filter_cons, hopen, if_false, Bool.false_eq_true, ih]

private theorem isOpen_final (hf : Final cs code xs) (hq : code[i]? = some q) (hx : xs[i]? = some x) :
    q.op.isOpen = x.op.isOpen := by
  obtain ⟨z, hz, hop | ⟨ho, hzo⟩ | ⟨ho, hzo⟩⟩ := hf.at hq
  · obtain rfl : x = z := Option.some.inj (hx.symm.trans hz)
    rw [hop]
  · obtain rfl : x = z := Option.some.inj (hx.symm.trans hz)
    rw [ho, hzo]
    rfl
  · obtain rfl : x = z := Option.some.inj (hx.symm.trans hz)
    rw [ho, hzo]
    rfl

theorem Depths.stackBalanced {counts : List Nat} {a b loop : Nat} {ds : List (Nat × Nat)}
    (h : Depths direct loop code counts a b ds) (hf : Final cs code xs) (hdir : Direct direct code xs)
    (hframed : Framed starts code) :
    ∃ depth count, StackBalanced counts (xs.flatMap Instruction.encode) depth count ∧
      ∀ k d, ds[k]? = some d → depth (posAt xs k) = d.1 := by
  classical
  let f : Int → Nat × Nat := fun k => ds[k.toNat]?.getD (b, 0)
  have hat : ∀ {k : Nat} {d}, ds[k]? = some d → f k = d := by
    intro k d hd
    simp [f, hd]
  have hfits : Fits direct loop f 0 code := by
    refine h.fits f 0 ⟨fun k d hd => by simpa using hat hd, ?_⟩
    simp [f]
  have hmoves : ∀ {k : Nat} {q x}, code[k]? = some q → xs[k]? = some x →
      x.op.Moves (x.operands.getLast?.getD 0) (f k).2 (f k).1 (f (k + 1)).1 (f (k + q.distance)).1 := by
    intro k q x hq hx
    have hfit := hfits k q hq
    rw [Int.zero_add] at hfit
    exact moves_final hf hdir hq hx hfit.leads (hfit.moves (hframed.idle q (List.mem_of_getElem? hq)))
  have hmark : ∀ {k : Nat} {x : Instruction}, xs[k]? = some x → x.op = .mark → (f (k + 1)).1 = (f k).1 := by
    intro k x hx hm
    obtain ⟨q, hq⟩ := hf.piece hx
    have := hmoves hq hx
    rw [hm] at this
    exact this.2
  -- the depth of a position is that of a place there, the count that of the instruction there
  let depth : Nat → Nat := fun p => if hp : ∃ k ≤ xs.length, posAt xs k = p then (f hp.choose).1 else 0
  let count : Nat → Nat := fun p =>
    if hp : ∃ k x, xs[k]? = some x ∧ x.op ≠ .mark ∧ posAt xs k = p then (f hp.choose).2 else 0
  have hdepth : ∀ {k : Nat}, k ≤ xs.length → depth (posAt xs k) = (f k).1 := by
    intro k hk
    have hp : ∃ j ≤ xs.length, posAt xs j = posAt xs k := ⟨k, hk, rfl⟩
    obtain ⟨hle, hpos⟩ := hp.choose_spec
    simp only [depth, dif_pos hp]
    rcases Nat.le_total hp.choose k with hlt | hlt
    · exact depth_of_posAt f hmark hlt hk hpos
    · exact (depth_of_posAt f hmark hlt hle hpos.symm).symm
  have hcount : ∀ {k : Nat} {x}, xs[k]? = some x → x.op ≠ .mark → count (posAt xs k) = (f k).2 := by
    intro k x hx hm
    have hp : ∃ j y, xs[j]? = some y ∧ y.op ≠ .mark ∧ posAt xs j = posAt xs k := ⟨k, x, hx, hm, rfl⟩
    obtain ⟨y, hy, hym, hpos⟩ := hp.choose_spec
    simp only [count, dif_pos hp]
    rw [place_unique hy hym hx hm hpos]
  refine ⟨depth, count, ⟨?_, ?_, ?_⟩, ?_⟩
  · rw [hf.decode]
  · rw [hf.decode, ← h.counts, filter_map_decoded, openCounts]
    refine filter_map_congr (by simp [hf.length, h.length]) ?_
    intro k x e hx he
    obtain ⟨q, hq⟩ := hf.piece hx
    have hzip := List.getElem?_zip_eq_some.mp he
    rw [List.getElem?_map, hq, Option.map_some, Option.some.injEq] at hzip
    obtain ⟨hop, hd⟩ := hzip
    refine ⟨by rw [← hop, isOpen_final hf hq hx], fun ho => ?_⟩
    have hm : x.op ≠ .mark := by
      intro hm
      simp [hm, Opcode.isOpen, Opcode.isCall] at ho
    have hpos := hf.placed.pos hx
    rw [hpos, Int.toNat_natCast, hcount hx hm, hat hd]
  · rw [hf.decode]
    intro d hd
    obtain ⟨k, x, hx, hm, rfl⟩ := (mem_decoded hf.placed).mp hd
    obtain ⟨q, hq⟩ := hf.piece hx
    have hlt := (List.getElem?_eq_some_iff.mp hx).1
    have hmove := hmoves hq hx
    have hnext : (x.read xs k).next = posAt xs (k + 1) := next_read hx
    change x.op.Moves _ (count (posAt xs k)) (depth (posAt xs k)) (depth (x.read xs k).next) _
    rw [hcount hx hm, hdepth (Nat.le_of_lt hlt), hnext, hdepth hlt]
    cases ht : Decoded.target? ⟨posAt xs k, x.op, x.operands⟩ with
    | none =>
      refine Opcode.moves_goal _ ?_ hmove
      cases ho : x.op.offsetOperand? with
      | none => rfl
      | some j =>
        have hj : j < x.operands.length := by
          rw [(hf.sound x (List.mem_of_getElem? hx)).count]
          exact Opcode.offsetOperand_lt ho
        simp [Decoded.target?, ho, List.getElem?_eq_getElem hj] at ht
    | some t =>
      obtain ⟨r, e, j, hr, -, hg, hj, hjlt, rfl⟩ := hf.target hframed.directed hframed.idle hx ht
      obtain rfl : q = r := Option.some.inj (hq.symm.trans hr)
      have hdist : q.distance = e := by simp [Piece.distance, hg]
      rw [hdist, ← hj] at hmove
      simpa [hdepth (Nat.le_of_lt hjlt)] using hmove
  · intro k d hd
    have hlt := (List.getElem?_eq_some_iff.mp hd).1
    rw [hdepth (by rw [hf.length, ← h.length]; omega), hat hd]

end Final

/-- The code of a compiled module is balanced if its tree is well formed: the initialisation starts with an
empty stack, a function with its parameters and, in a method, with the instance. -/
theorem compile_stackBalanced {st : Store} {m : Module} {p : Typed.Program} {out : Compiled}
    (h : compile st m p = .ok out) (hp : p.isBalanced = true) :
    (∃ depth count, StackBalanced (p.counts st .init) out.init depth count ∧ depth 0 = 0) ∧
      ∃ depth count, StackBalanced (p.counts st .code) out.code depth count ∧
        out.funcs.map (fun f => depth f.pos.toNat) = p.funcs.map fun d => d.arity st := by
  obtain ⟨xs, hfinal, hdirect, -, hinit, hcode, hfuncs, hbodies⟩ := compile_linked h
  have hdecls : ∀ d ∈ p.decls, d.isBalanced = true := List.all_eq_true.mp hp
  constructor
  · have hflow : Flow (· ∈ p.funcs.map Typed.FuncDecl.symbol) 0 (programCode (st, m) p .init) (p.counts st .init)
        0 0 := flow_init hdecls
    obtain ⟨ds, hd⟩ := hflow
    obtain ⟨depth, count, hbalanced, hplaces⟩ := hd.stackBalanced (hfinal .init) (hdirect .init) framed_init
    refine ⟨depth, count, hinit ▸ hbalanced, ?_⟩
    have hlen := hd.length
    have hfirst := hd.first
    cases ds with
    | nil => simp [programCode] at hlen
    | cons d ds => exact (hplaces 0 d rfl).trans hfirst
  · have hfuncsBalanced : ∀ f ∈ p.funcs, f.frame.all Frame.isBalanced = true := by
      intro f hf
      obtain ⟨d, hd, hmem⟩ := List.mem_flatMap.mp hf
      have hb := hdecls d hd
      cases d with
      | func g =>
        obtain rfl := List.mem_singleton.mp hmem
        exact hb
      | cls line k methods => exact List.all_eq_true.mp hb f hmem
      | importing | global => simp [Typed.Decl.funcs] at hmem
    obtain ⟨a, ds, hd, hentries⟩ := depths_funcs (· ∈ p.funcs.map Typed.FuncDecl.symbol) hbodies
      hfuncsBalanced
    obtain ⟨depth, count, hbalanced, hplaces⟩ := hd.stackBalanced (hfinal .code) (hdirect .code)
      (framed_funcs hbodies)
    refine ⟨depth, count, hcode ▸ hbalanced, ?_⟩
    have hpos := map_pos (hfinal .code) hbodies hfuncs
    have hdepths := congrArg (List.map fun k : Int => depth k.toNat) hpos
    rw [List.map_map, List.map_map] at hdepths
    refine hdepths.trans ((List.map_inj_right fun _ _ h => Option.some.inj h).mp ?_)
    rw [List.map_map (l := p.funcs)]
    refine Eq.trans ?_ hentries
    rw [List.map_map]
    apply List.map_congr_left
    intro k hk
    have hlt : k < ds.length := by
      rw [hd.length]
      exact (framed_funcs hbodies).inside k hk
    have hat := List.getElem?_eq_getElem hlt
    simp [hat, hplaces k _ hat]

/-- A program with a function that has a default value, calls itself without an argument for it, and counts
down while two conditions hold. -/
def sumDown : Typed.Program :=
  let n : LocalVar := ⟨"n", some .int, 0, false⟩
  let k : LocalVar := ⟨"k", some .int, 1, false⟩
  let read (v : LocalVar) : Expr := .call ⟨2, .readVar v, v.name, some .int, .empty, none, []⟩
  let one : Expr := .literal 2 (.int 1) .int
  let less : Expr := .binary 2 .sub (some .int) (read n) one
  let again : Expr := .call ⟨2, .func ⟨0⟩, "f", some .int, ⟨65⟩, some ⟨default, "f", false⟩, [less]⟩
  let fn : Expr := .lambda ⟨3, default, [], ⟨1, [⟨3, n, none⟩], 3, [.ret 3 1 [read n]]⟩⟩
  let loop : Block := .group 4 .seq [.expr (.call ⟨4, .writeVar n, "n", some .int, .empty, none, [again]⟩)]
  let frame : Frame :=
    { slots := 2, params := [⟨1, n, none⟩, ⟨1, k, some one⟩], line := 1
      body := [.discard 3 1 fn, .block (.whileLoop 4 (.binary 4 .and (some .bool) (read n) (read k)) loop none),
        .ret 5 1 [.binary 5 .add (some .int) (read n) (read k)]] }
  ⟨"m", [.func ⟨1, ⟨0⟩, some frame⟩]⟩

theorem compile_sumDown_stackBalanced : ∃ out, compile .empty default sumDown = .ok out ∧
    sumDown.isBalanced = true ∧
    (∃ depth count, StackBalanced (sumDown.counts .empty .init) out.init depth count ∧ depth 0 = 0) ∧
      ∃ depth count, StackBalanced (sumDown.counts .empty .code) out.code depth count ∧
        out.funcs.map (fun f => depth f.pos.toNat) = sumDown.funcs.map fun d => d.arity .empty := by
  have hok : (compile .empty default sumDown).isOk = true := by decide +kernel
  have hbalanced : sumDown.isBalanced = true := by decide +kernel
  cases h : compile .empty default sumDown with
  | error e =>
    rw [h] at hok
    cases hok
  | ok out => exact ⟨out, rfl, hbalanced, compile_stackBalanced h hbalanced⟩

end Weft.Bytecode
