import Weft.Proofs.Bytecode.ControlFlow
import Weft.Proofs.Bytecode.Lambdas

/-!
# Returns in code

A statement that returns on every path becomes code that control does not run past: the places that control reaches
from its first instruction are closed under fall-throughs and goals, and the returns among them give values. So the
return that ends every frame for want of another one is never reached in a function that answers a type other than
void.
-/

namespace Weft.Bytecode

open Typed (Expr Chain Call Append Lambda Frame VarDecl Stmt Block Arm)
open Typed (allReturn someReturns armsResults stmtsResults)

/-! ## Returns outside of lambdas -/

/-- An instruction that returns a number of values. -/
def Piece.Gives (k : Nat) (q : Piece) : Prop := q.op = .returnVal ∧ q.operands = [(k : Int)]

/-- The returns of code that are in none of its lambdas give a number of values. -/
def Gives (k : Nat) (code : List Piece) : Prop :=
  ∀ (i : Nat) q, code[i]? = some q → Seam code i → q.op.isReturn → q.Gives k

section Gives

variable {k : Nat} {a b code : List Piece}

theorem Seam.left {i : Nat} (h : Seam (a ++ b) i) : Seam a i := fun j e he => h j e (encloses_append.mpr (.inl he))

theorem Seam.right {i : Nat} (h : Seam (a ++ b) (a.length + i)) : Seam b i := by
  intro j e he hw
  refine h _ e (encloses_append.mpr (.inr ⟨j, rfl, he⟩)) ?_
  simp only [Within] at hw ⊢
  omega

theorem Gives.nil : Gives k [] := by simp [Gives]

theorem Gives.append (ha : Gives k a) (hb : Gives k b) : Gives k (a ++ b) := by
  intro i q hq hs
  rcases getElem?_append_cases.mp hq with h | ⟨j, rfl, h⟩
  · exact ha i q h hs.left
  · exact hb j q h hs.right

theorem Gives.one {q : Piece} (h : q.op.isReturn → q.Gives k) : Gives k [q] := by
  intro i r hr _
  rw [List.mem_singleton.mp (List.mem_of_getElem? hr)]
  exact h

theorem Gives.cons {q : Piece} (h : q.op.isReturn = false) (hb : Gives k b) : Gives k (q :: b) :=
  (Gives.one (by simp [h])).append hb

theorem Gives.plain {op : Opcode} {line : Nat} {vs : List Int} (h : op.isReturn = false) :
    Gives k [.plain op line vs] := .one (by simp [Piece.plain, h])

theorem Gives.withConst {op : Opcode} {line : Nat} {vs : List Int} {v : Option Constant} (h : op.isReturn = false) :
    Gives k [.withConst op line vs v] := .one (by simp [Piece.withConst, h])

theorem Gives.leading {op : Opcode} {line : Nat} {vs : List Int} {g : Goal} (h : op.isReturn = false) :
    Gives k [.leading op line vs g] := .one (by simp [Piece.leading, h])

theorem Gives.mark {line : Nat} : Gives k [.mark line] := .plain rfl

theorem Gives.ofSimple (h : ∀ q ∈ code, q.Simple) : Gives k code := by
  intro i q hq _ hret
  simp [(h q (List.mem_of_getElem? hq)).2.2] at hret

/-- What becomes of instructions that waited for the ends of a loop still gives what it gave. -/
theorem Gives.settle {exit next : Nat} (h : Gives k code) : Gives k (settleLoop exit next code) := by
  intro i q hq hs hret
  obtain ⟨r, hr, rfl⟩ := getElem?_settleLoop.mp hq
  have hsame : (r.settle exit next i).op = r.op ∧ (r.settle exit next i).operands = r.operands := by
    unfold Piece.settle
    split <;> exact ⟨rfl, rfl⟩
  rw [hsame.1] at hret
  -- the lambdas of the loop are those of its code
  have hseam : Seam code i := by
    rintro j e ⟨p, hp, hpo, hpg⟩
    have hw : ¬p.Waits := by rintro (hw | hw) <;> simp [hpg] at hw
    exact hs j e ⟨p, getElem?_settleLoop.mpr ⟨p, hp, (settle_of_not_waits hw).symm⟩, hpo, hpg⟩
  obtain ⟨hop, hops⟩ := h i r hr hseam hret
  exact ⟨hsame.1.trans hop, hsame.2.trans hops⟩

/-- The returns of a lambda are its own. -/
theorem Gives.lambda (line : Nat) (inner : List Piece) (hb : Gives k b) :
    Gives k (Piece.leading .lambda line [0] (.ahead (inner.length + 1)) :: (inner ++ b)) := by
  intro i q hq hs hret
  let head := Piece.leading .lambda line [0] (.ahead (inner.length + 1))
  cases i with
  | zero =>
    obtain rfl : Piece.leading .lambda line [0] (.ahead (inner.length + 1)) = q := by simpa using hq
    simp [Piece.leading, Opcode.isReturn] at hret
  | succ i =>
    rw [List.getElem?_cons_succ] at hq
    rcases getElem?_append_cases.mp hq with h | ⟨j, rfl, h⟩
    · have hlt := (List.getElem?_eq_some_iff.mp h).1
      exact absurd ⟨by omega, by omega⟩ (hs 0 (inner.length + 1) ⟨_, rfl, rfl, rfl⟩)
    · refine hb j q h ?_ hret
      have hrest : Seam ((head :: inner) ++ b) ((head :: inner).length + j) := by
        simpa [head, Nat.add_right_comm] using hs
      exact hrest.right

theorem gives_groupCode {keep : Bool} {line : Nat} {number : Int} (h : Gives k code) :
    Gives k (groupCode keep line number code) := by
  unfold groupCode
  cases keep with
  | true => exact .cons rfl (h.append .mark)
  | false => exact .cons rfl (h.append .mark)

theorem gives_whileCode {line : Nat} {test body post : List Piece} (ht : Gives k test) (hb : Gives k body)
    (hp : Gives k post) : Gives k (whileCode line test body post) := by
  refine (Gives.cons rfl ht).append (.cons rfl (Gives.settle ?_))
  exact (hb.append (.cons rfl hp)).append (.cons rfl .mark)

theorem gives_doCode {line : Nat} {test body : List Piece} (hb : Gives k body) (ht : Gives k test) :
    Gives k (doCode line body test) := by
  refine .cons rfl (Gives.settle ?_)
  exact (hb.append (.cons rfl ht)).append (.cons rfl (.cons rfl .mark))

theorem gives_leaveCode {leaves : Bool} {line : Nat} {goal : Option Goal} : Gives k (leaveCode leaves line goal) := by
  unfold leaveCode
  split
  · exact .one (by simp [Opcode.isReturn])
  · exact .nil

end Gives

section Trees

variable {c : Store × Module} {k : Nat}

theorem gives_accessCode {line : Nat} {acc : Typed.Access} {bits : Int} {kids : List Piece} (h : Gives k kids) :
    Gives k (accessCode c line acc bits kids) := by
  obtain ⟨x, y, hx, hy, he⟩ := accessCode_shape (c := c) line acc bits kids
  rw [he]
  refine ((Gives.ofSimple hx).append ?_).append (.ofSimple hy)
  split
  · exact .nil
  · exact h

theorem gives_argPiece {line : Nat} {v : LocalVar} : Gives k [argPiece line v] := .plain (by cases v.ref <;> rfl)

theorem gives_lambda (fn : Lambda) : Gives k (lambdaCode c fn) := by
  obtain ⟨line, _, upvals, slots, ps, bodyLine, body⟩ := fn
  rw [lambdaCode]
  refine .lambda line _ (.cons rfl (.ofSimple fun q hq => ?_))
  obtain ⟨u, -, rfl⟩ := List.mem_map.mp hq
  exact simple_plain (by decide)

mutual

/-- An expression returns nothing outside of its lambdas. -/
theorem gives_expr : (x : Expr) → Gives k (exprCode c x)
  | .literal .. => .withConst rfl
  | .unary _ op _ x => (gives_expr x).append (.plain (by cases op <;> rfl))
  | .binary _ op _ x y => by
    have hop : (Lower.binaryOpcode op).isReturn = false := by cases op <;> rfl
    simp only [exprCode]
    split
    · exact (gives_expr x).append (.cons hop ((gives_expr y).append .mark))
    · exact ((gives_expr x).append (gives_expr y)).append (.plain hop)
  | .chain ⟨_, _, _, links⟩ => gives_exprs links
  | .call x => gives_call x
  | .cast _ kind _ x => (gives_expr x).append (.withConst (by cases kind <;> rfl))
  | .new _ _ inits => .cons rfl (gives_calls inits)
  | .collection _ _ items => .cons rfl (gives_appends items)
  | .lambda fn => gives_lambda fn

theorem gives_exprs : (xs : List Expr) → Gives k (exprsCode c xs)
  | [] => .nil
  | x :: xs => (gives_expr x).append (gives_exprs xs)

theorem gives_call : (x : Call) → Gives k (callCode c x)
  | ⟨_, _, _, _, _, _, children⟩ => gives_accessCode (gives_exprs children)

theorem gives_calls : (xs : List Call) → Gives k (callsCode c xs)
  | [] => .nil
  | x :: xs => (gives_call x).append (gives_calls xs)

theorem gives_appends : (xs : List Append) → Gives k (appendsCode c xs)
  | [] => .nil
  | .element _ x :: rest => (gives_expr x).append (.cons rfl (gives_appends rest))
  | .entry _ key x :: rest => ((gives_expr key).append (gives_expr x)).append (.cons rfl (gives_appends rest))

end

theorem gives_params {first i : Nat} (ps : List VarDecl) : Gives k (paramsCode c first i ps) := by
  induction ps generalizing i with
  | nil => exact .nil
  | cons d ps ih =>
    obtain ⟨_, _, init⟩ := d
    cases init with
    | none => exact ih.append gives_argPiece
    | some x => exact ih.append (.cons rfl ((gives_expr x).append (.cons rfl gives_argPiece)))

/-- A return with a number of values, unless that is none, is an instruction that returns as many. -/
theorem gives_ret {line n : Nat} (hk : k ≠ 0) (h : n = k) :
    Gives k [if n = 0 then .plain .ret line [] else .plain .returnVal line [(n : Int)]] := by
  subst h
  rw [if_neg hk]
  exact .one fun _ => ⟨rfl, rfl⟩

mutual

/-- If the returns of a statement give a number of values, so do those of its code. -/
theorem gives_stmt {under : Bool} (hk : k ≠ 0) : (x : Stmt) → (∀ n ∈ x.results, n = k) →
    Gives k (stmtCode c under x)
  | .expr x, _ => gives_expr x
  | .discard _ _ x, _ => by
    refine (gives_expr x).append (.ofSimple fun q hq => ?_)
    rw [List.eq_of_mem_replicate hq]
    exact simple_plain (by decide)
  | .var ⟨_, _, none⟩, _ => .withConst rfl
  | .var ⟨_, _, some x⟩, _ => (gives_expr x).append (.plain rfl)
  | .ret _ n values, h => (gives_exprs values).append (gives_ret hk (h n (by simp [Stmt.results])))
  | .brk _, _ => .leading rfl
  | .cont _, _ => .leading rfl
  | .yield _, _ => .plain rfl
  | .block b, h => gives_block hk b h

theorem gives_stmts {under : Bool} (hk : k ≠ 0) : (xs : List Stmt) → (∀ n ∈ stmtsResults xs, n = k) →
    Gives k (stmtsCode c under xs)
  | [], _ => .nil
  | x :: xs, h => by
    rw [stmtsResults, List.forall_mem_append] at h
    exact (gives_stmt hk x h.1).append (gives_stmts hk xs h.2)

theorem gives_branches (hk : k ≠ 0) : (xs : List Stmt) → (∀ n ∈ stmtsResults xs, n = k) →
    Gives k (branchesCode c xs)
  | [], _ => .nil
  | x :: xs, h => by
    rw [stmtsResults, List.forall_mem_append] at h
    rw [branchesCode]
    split
    · exact (gives_stmt hk x h.1).append (gives_branches hk xs h.2)
    · exact (gives_groupCode (gives_stmt hk x h.1)).append (gives_branches hk xs h.2)

theorem gives_block {under : Bool} (hk : k ≠ 0) : (b : Block) → (∀ n ∈ b.results, n = k) →
    Gives k (blockCode c under b)
  | .group _ _ ss, h => by
    rw [blockCode]
    split
    · exact gives_groupCode (gives_branches hk ss h)
    · exact gives_groupCode (gives_stmts hk ss h)
  | .cond _ arms none, h => (gives_arms hk arms h).append .mark
  | .cond _ arms (some b), h => by
    rw [Block.results, List.forall_mem_append] at h
    exact ((gives_arms hk arms h.1).append (gives_block hk b h.2)).append .mark
  | .whileLoop _ test body none, h => gives_whileCode (gives_expr test) (gives_block hk body h) .nil
  | .whileLoop _ test body (some post), h => by
    rw [Block.results, List.forall_mem_append] at h
    exact gives_whileCode (gives_expr test) (gives_block hk body h.1) (gives_block hk post h.2)
  | .doLoop _ body test, h => gives_doCode (gives_block hk body h) (gives_expr test)

theorem gives_arms {under more : Bool} {line rest : Nat} (hk : k ≠ 0) : (arms : List Arm) →
    (∀ n ∈ armsResults arms, n = k) → Gives k (armsCode c under line more rest arms)
  | [], _ => .nil
  | ⟨test, body⟩ :: arms, h => by
    rw [armsResults, List.forall_mem_append] at h
    rw [armsCode]
    refine Gives.append ?_ (gives_arms hk arms h.2)
    exact (gives_expr test).append (.cons rfl (((gives_block hk body h.1).append gives_leaveCode).append .mark))

end

end Trees

/-! ## Code that control does not leave -/

/-- Control goes from an instruction to places of a set only, or it returns a number of values. Blocks are entered,
never skipped. -/
structure Piece.Safe (k : Nat) (S : Nat → Prop) (i : Nat) (q : Piece) : Prop where
  next : q.op.continues → S (i + 1)
  goal : ∀ d, q.goal = some (.ahead d) → q.op = .block ∨ ∃ j : Nat, (j : Int) = i + d ∧ S j
  gives : q.op.isReturn → q.Gives k

/-- Places of code that control does not leave unless it returns a number of values. -/
def Confined (k : Nat) (code : List Piece) (S : Nat → Prop) : Prop := ∀ i, S i → ∃ q, code[i]? = some q ∧ q.Safe k S i

/-- Control that enters code at its start never runs past its end. It leaves the code by returning a number of values
only. -/
def Returning (k : Nat) (code : List Piece) : Prop := ∃ S : Nat → Prop, S 0 ∧ Confined k code S

section Confined

variable {k : Nat} {a b code part : List Piece} {S T : Nat → Prop}

theorem Piece.Safe.mono {i : Nat} {q : Piece} (h : q.Safe k S i) (hST : ∀ j, S j → T j) : q.Safe k T i where
  next hc := hST _ (h.next hc)
  goal d hd := (h.goal d hd).imp id fun ⟨j, hj, hs⟩ => ⟨j, hj, hST j hs⟩
  gives := h.gives

/-- What is confined in a part is confined in the whole code. -/
theorem Confined.within {o : Nat} (h : Confined k part S) (hpart : Holds code o part) :
    Confined k code fun m => ∃ i, m = o + i ∧ S i := by
  rintro _ ⟨i, rfl, hi⟩
  obtain ⟨q, hq, hsafe⟩ := h i hi
  refine ⟨q, hpart i q hq, fun hc => ⟨i + 1, rfl, hsafe.next hc⟩, fun d hd => ?_, hsafe.gives⟩
  refine (hsafe.goal d hd).imp id fun ⟨j, hj, hs⟩ => ⟨o + j, ?_, j, rfl, hs⟩
  omega

theorem Confined.union (hS : Confined k code S) (hT : Confined k code T) : Confined k code fun i => S i ∨ T i := by
  rintro i (hi | hi)
  · obtain ⟨q, hq, hsafe⟩ := hS i hi
    exact ⟨q, hq, hsafe.mono fun _ => .inl⟩
  · obtain ⟨q, hq, hsafe⟩ := hT i hi
    exact ⟨q, hq, hsafe.mono fun _ => .inr⟩

/-- One more place at the start, from which control goes to confined places. -/
theorem Confined.first {q : Piece} (hS : Confined k code S) (hq : code[0]? = some q) (h : q.Safe k S 0) :
    Confined k code fun i => i = 0 ∨ S i := by
  rintro i (rfl | hi)
  · exact ⟨q, hq, h.mono fun _ => .inr⟩
  · obtain ⟨r, hr, hsafe⟩ := hS i hi
    exact ⟨r, hr, hsafe.mono fun _ => .inr⟩

theorem holds_suffix (a b : List Piece) : Holds (a ++ b) a.length b := (Holds.refl b).after a

theorem Returning.before (h : Returning k a) (b : List Piece) : Returning k (a ++ b) := by
  obtain ⟨S, hzero, hS⟩ := h
  exact ⟨_, ⟨0, rfl, hzero⟩, hS.within ((Holds.refl a).append b)⟩

/-- What comes before code that control does not leave falls through to it, and so returns or stays at its seams. -/
theorem Returning.after (ha : Nested a) (hg : Gives k a) (hb : Returning k b) : Returning k (a ++ b) := by
  obtain ⟨S, hzero, hS⟩ := hb
  have hrest := hS.within (holds_suffix a b)
  let T : Nat → Prop := fun m => (m < a.length ∧ Seam a m) ∨ ∃ i, m = a.length + i ∧ S i
  have hstart : ∀ m ≤ a.length, Seam a m → T m := by
    intro m hm hs
    by_cases hlt : m < a.length
    · exact .inl ⟨hlt, hs⟩
    · exact .inr ⟨0, by omega, hzero⟩
  refine ⟨T, hstart 0 (Nat.zero_le _) fun j e _ hw => ?_, ?_⟩
  · have := hw.1
    omega
  rintro m (⟨hlt, hs⟩ | hm)
  · have hq := List.getElem?_eq_getElem hlt
    refine ⟨a[m], getElem?_append_cases.mpr (.inl hq), fun hc => ?_, fun d hd => ?_, hg m _ hq hs⟩
    · refine hstart (m + 1) hlt fun j e he hw => hs j e he ?_
      exact (ha.falls he hq hc).mpr (by simpa using hw)
    · have hgoal := ha.goals hq hd
      obtain ⟨j, hj⟩ := Int.eq_ofNat_of_zero_le hgoal.1
      refine .inr ⟨j, hj.symm, hstart j (by omega) fun j' e he hw => hs j' e he ?_⟩
      exact (ha.jumps he hq hd).mpr (hj ▸ hw)
  · obtain ⟨q, hq, hsafe⟩ := hrest m hm
    exact ⟨q, hq, hsafe.mono fun _ => .inr⟩

/-- Code after an instruction that goes on to it, and skips no more than a block. -/
theorem Returning.cons {q : Piece} (hq : q.op.isReturn = false) (hg : ∀ d, q.goal = some (.ahead d) → q.op = .block)
    (hb : Returning k b) : Returning k (q :: b) := by
  obtain ⟨S, hzero, hS⟩ := hb
  have hrest := hS.within (holds_suffix [q] b)
  exact ⟨_, .inl rfl, hrest.first rfl ⟨fun _ => ⟨0, rfl, hzero⟩, fun d hd => .inl (hg d hd), by simp [hq]⟩⟩

theorem Returning.mark (hb : Returning k b) (line : Nat) : Returning k (.mark line :: b) :=
  hb.cons rfl (by simp [Piece.mark, Piece.plain])

/-- A jump over code to more code. Control that does not jump does not leave the first part. -/
theorem Returning.fork {q : Piece} (hq : q.op.isReturn = false) (hg : q.goal = some (.ahead (a.length + 1)))
    (ha : Returning k a) (hb : Returning k b) : Returning k (q :: (a ++ b)) := by
  obtain ⟨S, hS0, hS⟩ := ha
  obtain ⟨T, hT0, hT⟩ := hb
  have hleft := hS.within (((Holds.refl a).append b).after [q])
  have hright := hT.within ((holds_suffix a b).after [q])
  refine ⟨_, .inl rfl, (hleft.union hright).first rfl ⟨fun _ => .inl ⟨0, rfl, hS0⟩, fun d hd => .inr ?_, by simp [hq]⟩⟩
  obtain rfl : (a.length + 1 : Int) = d := by simpa [hg] using hd
  exact ⟨[q].length + a.length, by simp; omega, .inr ⟨0, rfl, hT0⟩⟩

/-- Jumps that wait for a loop around them lead to themselves if there is none. -/
theorem Returning.alone (h : Returning k code) : Returning k (code.map Piece.alone) := by
  obtain ⟨S, hzero, hS⟩ := h
  refine ⟨S, hzero, fun i hi => ?_⟩
  obtain ⟨q, hq, hsafe⟩ := hS i hi
  refine ⟨q.alone, by rw [List.getElem?_map, hq, Option.map_some], fun hc => ?_, fun d hd => ?_, fun hret => ?_⟩
  · exact hsafe.next (by rwa [q.op_alone] at hc)
  · by_cases hw : q.Waits
    · have hzero : d = 0 := by rcases hw with hw | hw <;> simpa [Piece.alone, hw, eq_comm] using hd
      exact .inr ⟨i, by omega, hi⟩
    · rw [alone_of_not_waits hw] at hd ⊢
      exact hsafe.goal d hd
  · have hops : q.alone.operands = q.operands := by
      unfold Piece.alone
      split <;> rfl
    rw [q.op_alone] at hret
    obtain ⟨hop, hval⟩ := hsafe.gives hret
    exact ⟨q.op_alone.trans hop, hops.trans hval⟩

theorem returning_closeCode (h : Returning k code) (line : Nat) : Returning k (closeCode line code) :=
  h.alone.before _

theorem returning_groupCode {keep : Bool} {line : Nat} {number : Int} (h : Returning k code) :
    Returning k (groupCode keep line number code) := by
  have hbody : Returning k (code ++ [Piece.mark line]) := h.before _
  unfold groupCode
  cases keep with
  | true => exact hbody.cons rfl fun _ _ => rfl
  | false => exact hbody.mark line

end Confined

/-! ## Code of trees that return -/

section Trees

variable {c : Store × Module} {k : Nat}

mutual

/-- Control does not run past the code of a statement that returns on every path. -/
theorem returning_stmt {under : Bool} (hk : k ≠ 0) : (x : Stmt) → x.returns = true → (∀ n ∈ x.results, n = k) →
    Returning k (stmtCode c under x)
  | .ret line n values, _, h => by
    obtain rfl : n = k := h n (by simp [Stmt.results])
    rw [stmtCode, if_neg hk]
    refine .after (nested_exprs values) (gives_exprs values) ⟨fun i => i = 0, rfl, ?_⟩
    rintro _ rfl
    refine ⟨_, rfl, fun hc => ?_, by simp [Piece.plain], fun _ => ⟨rfl, rfl⟩⟩
    simp [Piece.plain, Opcode.continues] at hc
  | .block b, hr, h => returning_block hk b hr h
  | .expr _, hr, _ | .discard .., hr, _ | .var _, hr, _ | .brk _, hr, _ | .cont _, hr, _ | .yield _, hr, _ => by
    simp [Stmt.returns] at hr

theorem returning_stmts {under : Bool} (hk : k ≠ 0) : (xs : List Stmt) → someReturns xs = true →
    (∀ n ∈ stmtsResults xs, n = k) → Returning k (stmtsCode c under xs)
  | [], hr, _ => by simp [someReturns] at hr
  | x :: xs, hr, h => by
    rw [stmtsResults, List.forall_mem_append] at h
    rw [someReturns, Bool.or_eq_true] at hr
    rcases hr with hr | hr
    · exact (returning_stmt hk x hr h.1).before _
    · exact .after (nested_stmt x) (gives_stmt hk x h.1) (returning_stmts hk xs hr h.2)

theorem returning_block {under : Bool} (hk : k ≠ 0) : (b : Block) → b.returns = true → (∀ n ∈ b.results, n = k) →
    Returning k (blockCode c under b)
  | .group _ .seq ss, hr, h => returning_groupCode (returning_stmts hk ss hr h)
  | .cond line arms (some b), hr, h => by
    rw [Block.results, List.forall_mem_append] at h
    rw [Block.returns, Bool.and_eq_true] at hr
    rw [blockCode, List.append_assoc]
    exact returning_arms hk arms hr.1 h.1 ((returning_block hk b hr.2 h.2).before [.mark line])
  | .group _ .paral _, hr, _ | .group _ .paralAll _, hr, _ | .group _ .defer _, hr, _ | .cond _ _ none, hr, _
  | .whileLoop .., hr, _ | .doLoop .., hr, _ => by
    simp [Block.returns] at hr

/-- The branches of a condition, all of which return, before what else it does, which returns as well. -/
theorem returning_arms {under more : Bool} {line rest : Nat} {e : List Piece} (hk : k ≠ 0) : (arms : List Arm) →
    allReturn arms = true → (∀ n ∈ armsResults arms, n = k) → Returning k e →
    Returning k (armsCode c under line more rest arms ++ e)
  | [], _, _, he => he
  | ⟨test, body⟩ :: arms, hr, h, he => by
    rw [armsResults, List.forall_mem_append] at h
    rw [allReturn, Bool.and_eq_true] at hr
    let others := armsCode c under line more rest arms
    let leave := leaveCode (more || !arms.isEmpty) body.line (some (.ahead (others.length + rest + 2)))
    have hbody : Returning k (blockCode c under body ++ leave) := (returning_block hk body hr.1 h.1).before _
    have hrest : Returning k (Piece.mark line :: (others ++ e)) := (returning_arms hk arms hr.2 h.2 he).mark line
    have hfork := hbody.fork (q := .leading .jumpZ test.line [0]
      (.ahead ((blockCode c under body).length + leave.length + 1))) rfl (by simp [Piece.leading]) hrest
    simpa [armsCode, armCode, others, leave] using Returning.after (nested_expr test) (gives_expr test) hfork

end

/-- A frame that answers a type other than void never reaches its end. -/
theorem returning_frame {t : Ty} {f : Frame} (hf : f.Answers t) (ht : t ≠ .void) {line : Nat} {this : List Piece}
    (hthis : ∀ q ∈ this, q.Simple) : Returning t.valueCount (Piece.plain .initFrame line [(f.slots : Int)] ::
      (paramsCode c (Lower.firstDefault f.params) 0 f.params ++ this ++
        closeCode (Lower.lastLine f) (stmtsCode c false f.body))) := by
  obtain ⟨hcount, hreturns⟩ := hf.returns ht
  have hbody : Returning t.valueCount (stmtsCode c false f.body) := returning_stmts hcount f.body hreturns hf.results
  refine .cons rfl (by simp [Piece.plain]) (.after ?_ ?_ (returning_closeCode hbody _))
  · exact (nested_params f.params).append (.ofSimple hthis)
  · exact (gives_params f.params).append (.ofSimple hthis)

end Trees

end Weft.Bytecode
