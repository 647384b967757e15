import Weft.Proofs.Bytecode.Depth
import Weft.Proofs.Bytecode.DirectCalls
import Weft.Proofs.Bytecode.Reaching

/-!
# Headers of blocks

A parallel or deferred group of statements has a header in the code of its frame. A sequence has one if it stands in a
parallel group, holds one, or has a deferred child. The headers of a frame are in the order of the source, each leads to
the end of what it stands before, and the ranges of two of them are apart or one in the other.
-/

namespace Weft

namespace Typed

open Bytecode (isDefer isSeqOrDefer)

/-! ## Groups of frames -/

/-- A group of statements with the kinds of the groups of its frame around it, innermost first. -/
structure Group where
  line : Nat
  kind : Grouping
  stmts : List Stmt
  around : List Grouping

mutual

/-- The groups of a statement in the order of the source. Those of lambdas belong to other frames. -/
def Stmt.groups (around : List Grouping) : Stmt → List Group
  | .block b => b.groups around
  | .expr _ | .discard .. | .var _ | .ret .. | .brk _ | .cont _ | .yield _ => []

/-- The groups of statements one after the other. -/
def stmtsGroups (around : List Grouping) : List Stmt → List Group
  | [] => []
  | x :: xs => x.groups around ++ stmtsGroups around xs

/-- The groups of the statements of a parallel group. Each of them that is neither a sequence nor deferred stands in a
sequence of its own. -/
def branchesGroups (around : List Grouping) : List Stmt → List Group
  | [] => []
  | x :: xs =>
    (if isSeqOrDefer x then x.groups around else ⟨x.line, .seq, [x], around⟩ :: x.groups (.seq :: around)) ++
      branchesGroups around xs

/-- The groups of a block. -/
def Block.groups (around : List Grouping) : Block → List Group
  | .group line kind ss => ⟨line, kind, ss, around⟩ ::
    (if kind.isParallel then branchesGroups (kind :: around) ss else stmtsGroups (kind :: around) ss)
  | .cond _ arms none => armsGroups around arms
  | .cond _ arms (some b) => armsGroups around arms ++ b.groups around
  | .whileLoop _ _ body none => body.groups around
  | .whileLoop _ _ body (some post) => body.groups around ++ post.groups around
  | .doLoop _ body _ => body.groups around

/-- The groups of branches one after the other. -/
def armsGroups (around : List Grouping) : List Arm → List Group
  | [] => []
  | ⟨_, body⟩ :: arms => body.groups around ++ armsGroups around arms

end

/-- Whether a group needs a header: every one but a sequence does, and a sequence that is in a parallel group, that holds
one, or that has a deferred child. -/
def Group.NeedsHeader (g : Group) : Prop :=
  g.kind ≠ .seq ∨ (∃ k ∈ g.around, k.isParallel) ∨ (∃ h ∈ stmtsGroups [] g.stmts, h.kind.isParallel) ∨
    ∃ x ∈ g.stmts, isDefer x

instance : DecidablePred Group.NeedsHeader := fun _ => inferInstanceAs (Decidable (_ ∨ _ ∨ _ ∨ _))

/-- The groups of a frame that need headers. -/
def Frame.headed (f : Frame) : List Group := (stmtsGroups [] f.body).filter (·.NeedsHeader)

section Parallel

open Bytecode (hasParallel blockHasParallel someParallel armsHaveParallel)

mutual

theorem parallel_stmt (around : List Grouping) : (x : Stmt) → (x.groups around).any (·.kind.isParallel) = hasParallel x
  | .block b => by
    rw [Stmt.groups, hasParallel]
    exact parallel_block around b
  | .expr _ | .discard _ _ _ | .var _ | .ret _ _ _ | .brk _ | .cont _ | .yield _ => rfl

theorem parallel_stmts (around : List Grouping) :
    (xs : List Stmt) → (stmtsGroups around xs).any (·.kind.isParallel) = someParallel xs
  | [] => rfl
  | x :: xs => by
    rw [stmtsGroups, someParallel, List.any_append, parallel_stmt around x, parallel_stmts around xs]

theorem parallel_branches (around : List Grouping) :
    (xs : List Stmt) → (branchesGroups around xs).any (·.kind.isParallel) = someParallel xs
  | [] => rfl
  | x :: xs => by
    rw [branchesGroups, someParallel, List.any_append, parallel_branches around xs]
    split
    · rw [parallel_stmt around x]
    · rw [List.any_cons, parallel_stmt (.seq :: around) x]
      rfl

theorem parallel_block (around : List Grouping) :
    (b : Block) → (b.groups around).any (·.kind.isParallel) = blockHasParallel b
  | .group _ kind ss => by
    rw [Block.groups, blockHasParallel, List.any_cons]
    split
    · rw [parallel_branches (kind :: around) ss]
    · rw [parallel_stmts (kind :: around) ss]
  | .cond _ arms none => parallel_arms around arms
  | .cond _ arms (some b) => by
    rw [Block.groups, blockHasParallel, List.any_append, parallel_arms around arms, parallel_block around b]
  | .whileLoop _ _ body none => parallel_block around body
  | .whileLoop _ _ body (some post) => by
    rw [Block.groups, blockHasParallel, List.any_append, parallel_block around body, parallel_block around post]
  | .doLoop _ body _ => parallel_block around body

theorem parallel_arms (around : List Grouping) :
    (arms : List Arm) → (armsGroups around arms).any (·.kind.isParallel) = armsHaveParallel arms
  | [] => rfl
  | ⟨_, body⟩ :: arms => by
    rw [armsGroups, armsHaveParallel, List.any_append, parallel_block around body, parallel_arms around arms]

end

theorem Group.needsHeader_iff (g : Group) :
    g.NeedsHeader ↔ Bytecode.keepsHeader (g.around.any Grouping.isParallel) g.kind g.stmts = true := by
  simp only [Group.NeedsHeader, Bytecode.keepsHeader, ← parallel_stmts [], Bool.or_eq_true, List.any_eq_true,
    decide_eq_true_eq, or_assoc]

end Parallel

end Typed

namespace Bytecode

open Typed (Expr Chain Call Append Lambda Frame VarDecl Stmt Block Arm Group Grouping)
open Typed (stmtsGroups branchesGroups armsGroups)

/-- The code of what stands in a group. -/
def groupContents (c : Store × Module) (g : Group) : List Piece :=
  if g.kind.isParallel then branchesCode c g.stmts else stmtsCode c (g.around.any Grouping.isParallel) g.stmts

/-! ## Headers in code -/

/-- Whether an instruction is a header or a lambda. -/
def Opcode.opens : Opcode → Bool
  | .block | .lambda => true
  | _ => false

/-- How many instructions after one belong to other frames: the body of a lambda. -/
def Piece.inner (q : Piece) : Nat := if q.op = .lambda then (q.distance - 1).toNat else 0

/-- A pair of places that a number of instructions come before. -/
def shifted (n : Nat) (s : Nat × Nat) : Nat × Nat := (n + s.1, n + s.2)

/-- The headers in a frame, each with the place where it leads, without those among a number of instructions at the start
and those in lambdas. -/
def headerSpans : Nat → List Piece → List (Nat × Nat)
  | _, [] => []
  | skip + 1, _ :: code => (headerSpans skip code).map (shifted 1)
  | 0, q :: code => (if q.op = .block then [(0, q.distance.toNat)] else []) ++
      (headerSpans q.inner code).map (shifted 1)

/-- How many instructions after code belong to a lambda in it, if the first ones of the code are in a lambda before. -/
def openLambda : Nat → List Piece → Nat
  | skip, [] => skip
  | skip + 1, _ :: code => openLambda skip code
  | 0, q :: code => openLambda q.inner code

/-- A header stands before the contents of a group and leads to their end. -/
structure Header (c : Store × Module) (code : List Piece) (g : Group) (s : Nat × Nat) : Prop where
  header : ∃ q, code[s.1]? = some q ∧ q.op = .block ∧ q.operands.head? = some (Lower.kindNumber g.kind) ∧
    q.goal = some (.ahead ((groupContents c g).length + 1))
  stop : s.2 = s.1 + ((groupContents c g).length + 1)
  contents : ∀ {j : Nat} {r}, (groupContents c g)[j]? = some r → ∃ r', code[s.1 + 1 + j]? = some r' ∧ r'.op = r.op

/-- The first of two headers comes first in the code, and their ranges are apart or the second is in the first. -/
def Apart (s t : Nat × Nat) : Prop := s.1 < t.1 ∧ (s.2 ≤ t.1 ∨ t.2 ≤ s.2)

/-- The headers of a frame are those of some groups, in this order. -/
structure Headers (c : Store × Module) (code : List Piece) (gs : List Group) : Prop where
  whole : openLambda 0 code = 0
  heads : List.Forall₂ (Header c code) gs (headerSpans 0 code)
  inside : ∀ s ∈ headerSpans 0 code, s.1 < s.2 ∧ s.2 < code.length
  apart : (headerSpans 0 code).Pairwise Apart
  firm : ∀ q ∈ code, q.Waits → q.op.opens = false

section Spans

variable {c : Store × Module} {a b code : List Piece} {g : Group} {s t : Nat × Nat}

theorem Opcode.opens_eq_false {op : Opcode} : op.opens = false ↔ op ≠ .block ∧ op ≠ .lambda := by
  cases op <;> decide

theorem shifted_zero : shifted 0 = id := by
  funext s
  simp [shifted]

theorem shifted_shifted (m n : Nat) : shifted m (shifted n s) = shifted (m + n) s := by simp [shifted, Nat.add_assoc]

theorem Apart.shifted (h : Apart s t) (n : Nat) : Apart (shifted n s) (shifted n t) := by
  simp only [Apart, Bytecode.shifted] at h ⊢
  omega

theorem openLambda_append (k : Nat) : openLambda k (a ++ b) = openLambda (openLambda k a) b := by
  fun_induction openLambda k a with
  | case1 => rfl
  | case2 skip q a ih => exact ih
  | case3 q a ih => exact ih

theorem headerSpans_append (k : Nat) :
    headerSpans k (a ++ b) = headerSpans k a ++ (headerSpans (openLambda k a) b).map (shifted a.length) := by
  have hmap : ∀ {l : List (Nat × Nat)} {n : Nat}, (l.map (shifted n)).map (shifted 1) = l.map (shifted (n + 1)) := by
    intro l n
    rw [List.map_map]
    exact List.map_congr_left fun s _ => by rw [Function.comp_apply, shifted_shifted, Nat.add_comm]
  fun_induction openLambda k a with
  | case1 => simp [headerSpans, shifted_zero]
  | case2 skip q a ih => simp only [List.cons_append, headerSpans, ih, List.map_append, hmap, List.length_cons]
  | case3 q a ih =>
    simp only [List.cons_append, headerSpans, ih, List.map_append, hmap, List.length_cons, List.append_assoc]

theorem headerSpans_length : headerSpans code.length code = [] ∧ openLambda code.length code = 0 := by
  induction code with
  | nil => exact ⟨rfl, rfl⟩
  | cons q code ih => simpa [headerSpans, openLambda] using ih

theorem Header.append (h : Header c a g s) (b : List Piece) : Header c (a ++ b) g s := by
  obtain ⟨⟨q, hq, hrest⟩, hstop, hcontents⟩ := h
  refine ⟨⟨q, getElem?_append_cases.mpr (.inl hq), hrest⟩, hstop, fun hr => ?_⟩
  obtain ⟨r', hr', hop⟩ := hcontents hr
  exact ⟨r', getElem?_append_cases.mpr (.inl hr'), hop⟩

theorem Header.after (h : Header c b g s) (a : List Piece) : Header c (a ++ b) g (shifted a.length s) := by
  obtain ⟨⟨q, hq, hrest⟩, hstop, hcontents⟩ := h
  refine ⟨⟨q, getElem?_append_cases.mpr (.inr ⟨_, rfl, hq⟩), hrest⟩, ?_, fun {j r} hr => ?_⟩
  · simp only [shifted, hstop, Nat.add_assoc]
  · obtain ⟨r', hr', hop⟩ := hcontents hr
    exact ⟨r', getElem?_append_cases.mpr (.inr ⟨_, by simp only [shifted, Nat.add_assoc], hr'⟩), hop⟩

end Spans

section Headers

variable {c : Store × Module} {a b code : List Piece} {gs hs is : List Group}

theorem Headers.nil : Headers c [] [] := ⟨rfl, .nil, by simp [headerSpans], by simp [headerSpans], by simp⟩

theorem Headers.append (ha : Headers c a gs) (hb : Headers c b hs) : Headers c (a ++ b) (gs ++ hs) := by
  have hspans : headerSpans 0 (a ++ b) = headerSpans 0 a ++ (headerSpans 0 b).map (shifted a.length) := by
    rw [headerSpans_append, ha.whole]
  refine ⟨?_, ?_, ?_, ?_, ?_⟩
  · rw [openLambda_append, ha.whole, hb.whole]
  · rw [hspans]
    refine List.rel_append (ha.heads.imp fun _ _ h => h.append b) ?_
    rw [List.forall₂_map_right_iff]
    exact hb.heads.imp fun _ _ h => h.after a
  · rw [hspans, List.length_append]
    intro s hs
    rcases List.mem_append.mp hs with hs | hs
    · have := ha.inside s hs
      omega
    · obtain ⟨t, ht, rfl⟩ := List.mem_map.mp hs
      have := hb.inside t ht
      simp only [shifted]
      omega
  · rw [hspans, List.pairwise_append, List.pairwise_map]
    refine ⟨ha.apart, hb.apart.imp fun h => h.shifted _, fun s hs t ht => ?_⟩
    obtain ⟨t, -, rfl⟩ := List.mem_map.mp ht
    have := ha.inside s hs
    simp only [Apart, shifted]
    omega
  · intro q hq
    rcases List.mem_append.mp hq with hq | hq
    · exact ha.firm q hq
    · exact hb.firm q hq

theorem Headers.followed (ha : Headers c a gs) (hb : Headers c b []) : Headers c (a ++ b) gs := by
  simpa using ha.append hb

theorem Headers.one {q : Piece} (hq : q.op.opens = false) : Headers c [q] [] := by
  obtain ⟨hblock, hlambda⟩ := Opcode.opens_eq_false.mp hq
  have hspans : headerSpans 0 [q] = [] := by simp [headerSpans, hblock]
  refine ⟨by simp [openLambda, Piece.inner, hlambda], ?_, ?_, ?_, ?_⟩
  · rw [hspans]
    exact .nil
  · simp [hspans]
  · simp [hspans]
  · intro r hr _
    rwa [List.mem_singleton.mp hr]

theorem Headers.cons {q : Piece} (hq : q.op.opens = false) (hb : Headers c b hs) : Headers c (q :: b) hs :=
  (Headers.one hq).append hb

theorem Headers.mark {line : Nat} : Headers c [.mark line] [] := .one rfl

theorem Headers.ofSimple (h : ∀ q ∈ code, q.Simple) : Headers c code [] := by
  induction code with
  | nil => exact .nil
  | cons q code ih =>
    obtain ⟨hq, hrest⟩ := List.forall_mem_cons.mp h
    refine .cons (Opcode.opens_eq_false.mpr ⟨fun hop => ?_, hq.not_lambda⟩) (ih hrest)
    have := hq.2.1
    rw [hop] at this
    cases this

/-- A lambda has no headers of the frame around it. -/
theorem Headers.lambda {q : Piece} {inner : List Piece} (hop : q.op = .lambda)
    (hgoal : q.goal = some (.ahead (inner.length + 1))) (hidle : Idle inner) : Headers c (q :: inner) [] := by
  have hskip : q.inner = inner.length := by simp [Piece.inner, hop, Piece.distance, hgoal]
  have hspans : headerSpans 0 (q :: inner) = [] := by simp [headerSpans, hop, hskip, headerSpans_length.1]
  refine ⟨?_, ?_, ?_, ?_, ?_⟩
  · rw [openLambda, hskip]
    exact headerSpans_length.2
  · rw [hspans]
    exact .nil
  · simp [hspans]
  · simp [hspans]
  · intro r hr hwaits
    rcases List.mem_cons.mp hr with rfl | hr
    · rcases hwaits with h | h <;> simp [hgoal] at h
    · exact absurd hwaits (hidle r hr)

/-- Headers are kept if no opcode changes and only jumps that wait are led elsewhere. -/
theorem Headers.retarget {code' : List Piece} (h : Headers c code gs)
    (hsame : List.Forall₂ (fun q' q : Piece => q'.op = q.op ∧ (¬q.Waits → q' = q)) code' code)
    (hfirm : ∀ q ∈ code', q.Waits → q.op.opens = false) : Headers c code' gs := by
  have hspans : ∀ k, headerSpans k code' = headerSpans k code ∧ openLambda k code' = openLambda k code := by
    have hold := h.firm
    clear h hfirm
    induction hsame with
    | nil => exact fun _ => ⟨rfl, rfl⟩
    | @cons q' q code' code hq _ ih =>
      intro k
      have ih := ih fun q hq => hold q (by simp [hq])
      cases k with
      | succ k => exact ⟨by rw [headerSpans, headerSpans, (ih k).1], (ih k).2⟩
      | zero =>
        by_cases hw : q.Waits
        · -- a jump that waits is neither a header nor a lambda
          obtain ⟨hblock, hlambda⟩ := Opcode.opens_eq_false.mp (hold q (by simp) hw)
          simp only [headerSpans, openLambda, Piece.inner, hq.1, hblock, hlambda, if_false, ih 0, and_self]
        · obtain rfl := hq.2 hw
          exact ⟨by rw [headerSpans, headerSpans, (ih _).1], (ih _).2⟩
  have hlen : code'.length = code.length := hsame.length_eq
  have hat : ∀ {i : Nat} {q}, code[i]? = some q → ∃ q', code'[i]? = some q' ∧ q'.op = q.op ∧ (¬q.Waits → q' = q) := by
    intro i q hq
    obtain ⟨hi, rfl⟩ := List.getElem?_eq_some_iff.mp hq
    exact ⟨_, List.getElem?_eq_getElem (hlen ▸ hi), (List.forall₂_iff_get.mp hsame).2 i (hlen ▸ hi) hi⟩
  refine ⟨(hspans 0).2.trans h.whole, ?_, ?_, ?_, hfirm⟩
  · rw [(hspans 0).1]
    refine h.heads.imp fun g s hg => ?_
    obtain ⟨⟨q, hq, hop, hkind, hgoal⟩, hstop, hcontents⟩ := hg
    obtain ⟨q', hq', -, hsame'⟩ := hat hq
    obtain rfl : q' = q := hsame' fun hw => by rcases hw with h | h <;> simp [hgoal] at h
    refine ⟨⟨_, hq', hop, hkind, hgoal⟩, hstop, fun hr => ?_⟩
    obtain ⟨r', hr', hop'⟩ := hcontents hr
    obtain ⟨r'', hr'', hop'', -⟩ := hat hr'
    exact ⟨r'', hr'', hop''.trans hop'⟩
  · rw [(hspans 0).1, hlen]
    exact h.inside
  · rw [(hspans 0).1]
    exact h.apart

theorem Headers.settle {exit next : Nat} (h : Headers c code gs) : Headers c (settleLoop exit next code) gs := by
  refine h.retarget ?_ ?_
  · refine List.forall₂_iff_get.mpr ⟨by simp [settleLoop], fun i hi hi' => ?_⟩
    simp only [List.get_eq_getElem, settleLoop, List.getElem_mapIdx]
    refine ⟨?_, settle_of_not_waits⟩
    unfold Piece.settle
    split <;> rfl
  · intro q hq hw
    obtain ⟨i, hi⟩ := List.mem_iff_getElem?.mp hq
    obtain ⟨r, -, rfl⟩ := getElem?_settleLoop.mp hi
    exact absurd hw not_waits_settle

theorem Headers.alone (h : Headers c code gs) : Headers c (code.map Piece.alone) gs := by
  refine h.retarget ?_ ?_
  · rw [List.forall₂_map_left_iff, List.forall₂_same]
    exact fun q _ => ⟨q.op_alone, alone_of_not_waits⟩
  · intro q hq hw
    obtain ⟨r, -, rfl⟩ := List.mem_map.mp hq
    exact absurd hw (not_waits_alone r)

/-- A header before the contents of a group, and a mark after them. -/
theorem headers_kept {g : Group} {line : Nat} (h : Headers c (groupContents c g) gs) :
    Headers c (groupCode true line (Lower.kindNumber g.kind) (groupContents c g)) (g :: gs) := by
  have hrest : Headers c (groupContents c g ++ [Piece.mark line]) gs := h.followed .mark
  let head := Piece.leading .block line [Lower.kindNumber g.kind, 0] (.ahead ((groupContents c g).length + 1))
  let body := groupContents c g ++ [Piece.mark line]
  have hspans : headerSpans 0 (head :: body) = (0, (groupContents c g).length + 1) :: (headerSpans 0 body).map (shifted 1) := by
    rfl
  change Headers c (head :: body) (g :: gs)
  refine ⟨hrest.whole, ?_, ?_, ?_, ?_⟩
  · rw [hspans]
    refine .cons ⟨⟨head, rfl, rfl, rfl, rfl⟩, (Nat.zero_add _).symm, fun {j r} hr => ⟨r, ?_, rfl⟩⟩ ?_
    · rw [Nat.zero_add, Nat.add_comm, List.getElem?_cons_succ]
      exact getElem?_append_cases.mpr (.inl hr)
    · rw [List.forall₂_map_right_iff]
      exact hrest.heads.imp fun _ _ hh => hh.after [head]
  · rw [hspans]
    have hlen : (head :: body).length = (groupContents c g).length + 2 := by simp [body]
    intro s hs
    rw [hlen]
    rcases List.mem_cons.mp hs with rfl | hs
    · omega
    · obtain ⟨t, ht, rfl⟩ := List.mem_map.mp hs
      have := hrest.inside t ht
      simp only [List.length_append, List.length_singleton] at this
      simp only [shifted]
      omega
  · -- what comes after the header is in its range
    rw [hspans, List.pairwise_cons, List.pairwise_map]
    refine ⟨fun s hs => ?_, hrest.apart.imp fun hh => hh.shifted 1⟩
    obtain ⟨t, ht, rfl⟩ := List.mem_map.mp hs
    have := hrest.inside t ht
    simp only [List.length_append, List.length_singleton] at this
    simp only [Apart, shifted]
    omega
  · intro q hq hw
    rcases List.mem_cons.mp hq with rfl | hq
    · exact absurd hw not_waits_ahead
    · exact hrest.firm q hq hw

theorem headers_dropped {line : Nat} {number : Int} {body : List Piece} (h : Headers c body gs) :
    Headers c (groupCode false line number body) gs := .cons rfl (h.followed .mark)

theorem headers_whileCode {line : Nat} {test body post : List Piece} (ht : Headers c test [])
    (hb : Headers c body gs) (hp : Headers c post hs) : Headers c (whileCode line test body post) (gs ++ hs) := by
  have hloop : Headers c (body ++ Piece.mark line :: post ++
      [Piece.leading .jump line [0] (.ahead (-(test.length + body.length + post.length + 3 : Int))), Piece.mark line]) (gs ++ hs) :=
    (hb.append (.cons rfl hp)).followed (.cons rfl .mark)
  have htop : Headers c (Piece.mark line :: test ++ [Piece.leading .jumpZ line [0] (.ahead (body.length + post.length + 3))]) [] :=
    Headers.followed (.cons rfl ht) (.one rfl)
  simpa [whileCode] using htop.append hloop.settle

theorem headers_doCode {line : Nat} {test body : List Piece} (hb : Headers c body gs) (ht : Headers c test []) :
    Headers c (doCode line body test) gs := by
  have hloop : Headers c (body ++ Piece.mark line :: test ++ [Piece.leading .jumpZ line [0] (.ahead 2),
      .leading .jump line [0] (.ahead (-(body.length + test.length + 3 : Int))), .mark line]) gs :=
    (hb.followed (.cons rfl ht)).followed (.cons rfl (.cons rfl .mark))
  exact .cons rfl hloop.settle

theorem headers_armCode {line testLine : Nat} {test body leave : List Piece} (ht : Headers c test [])
    (hb : Headers c body gs) (hl : Headers c leave []) : Headers c (armCode line testLine test body leave) gs := by
  have hrest : Headers c (body ++ leave ++ [Piece.mark line]) gs := (hb.followed hl).followed .mark
  exact ht.append (.cons rfl hrest)

theorem headers_leaveCode {leaves : Bool} {line : Nat} {goal : Option Goal} :
    Headers c (leaveCode leaves line goal) [] := by
  unfold leaveCode
  split
  · exact .one rfl
  · exact .nil

theorem headers_closeCode {line : Nat} (h : Headers c code gs) : Headers c (closeCode line code) gs := by
  have hlast : Headers c (if code.getLast?.any (·.op.isReturn) then [] else [.plain .ret line []]) [] := by
    split
    · exact .nil
    · exact .one rfl
  exact h.alone.followed hlast

theorem headers_accessCode {line : Nat} {acc : Typed.Access} {bits : Int} {kids : List Piece} (h : Headers c kids []) :
    Headers c (accessCode c line acc bits kids) [] := by
  obtain ⟨x, y, hx, hy, he⟩ := accessCode_shape (c := c) line acc bits kids
  rw [he]
  have hkids : Headers c (if acc.isLeaf then [] else kids) [] := by
    split
    · exact .nil
    · exact h
  exact ((Headers.ofSimple hx).append hkids).followed (.ofSimple hy)

theorem headers_argPiece {line : Nat} {v : LocalVar} : Headers c [argPiece line v] [] :=
  .one (by unfold argPiece; cases v.ref <;> rfl)

/-! ## Headers of trees -/

theorem headers_lambda (x : Lambda) : Headers c (lambdaCode c x) [] := by
  have hidle := idle_lambda (c := c) x
  obtain ⟨line, sig, upvals, slots, ps, bodyLine, body⟩ := x
  rw [lambdaCode] at hidle ⊢
  have hups : Headers c (upvals.map fun u =>
      Piece.plain .useUpval line [(u.src : Int), u.dst, if u.copied then 0 else 1]) [] := by
    refine .ofSimple fun q hq => ?_
    obtain ⟨u, -, rfl⟩ := List.mem_map.mp hq
    exact simple_plain (by decide)
  refine Headers.followed (a := _ :: _) (.lambda rfl rfl fun q hq => hidle q ?_) (.cons rfl hups)
  exact List.mem_cons_of_mem _ (List.mem_append_left _ hq)

mutual

/-- Expressions have no headers but those of their lambdas. -/
theorem headers_expr : (x : Expr) → Headers c (exprCode c x) []
  | .literal _ _ _ => .one rfl
  | .unary _ op _ x => (headers_expr x).followed (.one (by cases op <;> rfl))
  | .binary line op _ x y => by
    have hop : (Lower.binaryOpcode op).opens = false := by cases op <;> rfl
    rw [exprCode]
    split
    · exact (headers_expr x).followed (.cons hop ((headers_expr y).followed .mark))
    · exact ((headers_expr x).followed (headers_expr y)).followed (.one hop)
  | .chain ⟨_, _, _, links⟩ => headers_exprs links
  | .call x => headers_call x
  | .cast _ kind _ x => (headers_expr x).followed (.one (by cases kind <;> rfl))
  | .new _ _ inits => .cons rfl (headers_calls inits)
  | .collection _ _ items => .cons rfl (headers_appends items)
  | .lambda fn => headers_lambda fn

theorem headers_exprs : (xs : List Expr) → Headers c (exprsCode c xs) []
  | [] => .nil
  | x :: xs => (headers_expr x).followed (headers_exprs xs)

theorem headers_call : (x : Call) → Headers c (callCode c x) []
  | ⟨_, _, _, _, _, _, kids⟩ => headers_accessCode (headers_exprs kids)

theorem headers_calls : (xs : List Call) → Headers c (callsCode c xs) []
  | [] => .nil
  | x :: xs => (headers_call x).followed (headers_calls xs)

theorem headers_appends : (xs : List Append) → Headers c (appendsCode c xs) []
  | [] => .nil
  | .element _ x :: rest => (headers_expr x).followed (.cons rfl (headers_appends rest))
  | .entry _ k v :: rest => ((headers_expr k).followed (headers_expr v)).followed (.cons rfl (headers_appends rest))

end

theorem headers_params {first i : Nat} (ps : List VarDecl) : Headers c (paramsCode c first i ps) [] := by
  induction ps generalizing i with
  | nil => exact .nil
  | cons p rest ih =>
    obtain ⟨line, v, init⟩ := p
    cases init with
    | none => exact ih.followed headers_argPiece
    | some x => exact ih.followed (.cons rfl ((headers_expr x).followed (.cons rfl headers_argPiece)))

/-- A group has a header if it needs one. -/
theorem headers_group {g : Group} {line : Nat} (h : Headers c (groupContents c g) (gs.filter (·.NeedsHeader))) :
    Headers c (groupCode (keepsHeader (g.around.any Grouping.isParallel) g.kind g.stmts) line (Lower.kindNumber g.kind)
      (groupContents c g)) ((g :: gs).filter (·.NeedsHeader)) := by
  by_cases hg : g.NeedsHeader
  · rw [List.filter_cons_of_pos (by simpa using hg), g.needsHeader_iff.mp hg]
    exact headers_kept h
  · rw [List.filter_cons_of_neg (by simpa using hg), Bool.eq_false_iff.mpr (mt g.needsHeader_iff.mpr hg)]
    exact headers_dropped h

mutual

/-- The headers of the code of a statement are those of its groups that need one. -/
theorem headers_stmt {around : List Grouping} : (x : Stmt) →
    Headers c (stmtCode c (around.any Grouping.isParallel) x) ((x.groups around).filter (·.NeedsHeader))
  | .expr x => headers_expr x
  | .discard _ _ x => by
    refine (headers_expr x).followed (.ofSimple fun q hq => ?_)
    rw [List.eq_of_mem_replicate hq]
    exact simple_plain (by decide)
  | .var ⟨_, _, none⟩ => .one rfl
  | .var ⟨_, _, some x⟩ => (headers_expr x).followed (.one rfl)
  | .ret _ n values => (headers_exprs values).followed (.one (by split <;> rfl))
  | .brk _ => .one rfl
  | .cont _ => .one rfl
  | .yield _ => .one rfl
  | .block b => headers_block b

theorem headers_stmts {around : List Grouping} : (xs : List Stmt) →
    Headers c (stmtsCode c (around.any Grouping.isParallel) xs) ((stmtsGroups around xs).filter (·.NeedsHeader))
  | [] => .nil
  | x :: xs => by
    rw [stmtsCode, stmtsGroups, List.filter_append]
    exact (headers_stmt x).append (headers_stmts xs)

theorem headers_branches {around : List Grouping} (h : around.any Grouping.isParallel = true) : (xs : List Stmt) →
    Headers c (branchesCode c xs) ((branchesGroups around xs).filter (·.NeedsHeader))
  | [] => .nil
  | x :: xs => by
    rw [branchesCode, branchesGroups, List.filter_append]
    refine Headers.append ?_ (headers_branches h xs)
    split
    · rw [← h]
      exact headers_stmt x
    · let g : Group := ⟨x.line, .seq, [x], around⟩
      have hneeds : g.NeedsHeader := .inr (.inl (List.any_eq_true.mp h))
      have hcontents : groupContents c g = stmtCode c true x := by
        simp [groupContents, g, Grouping.isParallel, h, stmtsCode]
      have hinner : Headers c (stmtCode c true x) ((x.groups (.seq :: around)).filter (·.NeedsHeader)) := by
        rw [← show List.any (Grouping.seq :: around) Grouping.isParallel = true from h]
        exact headers_stmt x
      rw [List.filter_cons_of_pos (by simpa using hneeds), ← hcontents]
      exact headers_kept (hcontents ▸ hinner)

theorem headers_block {around : List Grouping} : (b : Block) →
    Headers c (blockCode c (around.any Grouping.isParallel) b) ((b.groups around).filter (·.NeedsHeader))
  | .group line kind ss => by
    let g : Group := ⟨line, kind, ss, around⟩
    have hinner : Headers c (groupContents c g) ((if kind.isParallel then branchesGroups (kind :: around) ss else
        stmtsGroups (kind :: around) ss).filter (·.NeedsHeader)) := by
      unfold groupContents
      by_cases hk : kind.isParallel
      · rw [if_pos hk, if_pos hk]
        exact headers_branches (by simp [hk]) ss
      · rw [if_neg hk, if_neg hk]
        have hsame : (kind :: around).any Grouping.isParallel = around.any Grouping.isParallel := by simp [hk]
        rw [← hsame]
        exact headers_stmts ss
    exact headers_group (g := g) hinner
  | .cond _ arms none => (headers_arms arms).followed .mark
  | .cond _ arms (some b) => by
    rw [blockCode, Block.groups, List.filter_append]
    exact ((headers_arms arms).append (headers_block b)).followed .mark
  | .whileLoop _ test body none => by
    rw [blockCode, Block.groups]
    simpa using headers_whileCode (headers_expr test) (headers_block body) .nil
  | .whileLoop _ test body (some post) => by
    rw [blockCode, Block.groups, List.filter_append]
    exact headers_whileCode (headers_expr test) (headers_block body) (headers_block post)
  | .doLoop _ body test => headers_doCode (headers_block body) (headers_expr test)

theorem headers_arms {around : List Grouping} {more : Bool} {line rest : Nat} : (arms : List Arm) →
    Headers c (armsCode c (around.any Grouping.isParallel) line more rest arms)
      ((armsGroups around arms).filter (·.NeedsHeader))
  | [] => .nil
  | ⟨test, body⟩ :: arms => by
    rw [armsCode, armsGroups, List.filter_append]
    exact (headers_armCode (headers_expr test) (headers_block body) headers_leaveCode).append (headers_arms arms)

end

theorem headers_body (f : Frame) : Headers c (stmtsCode c false f.body) f.headed := by
  have h : Headers c (stmtsCode c (List.any [] Grouping.isParallel) f.body) f.headed := headers_stmts f.body
  exact h

theorem headers_frame {f : Frame} {line : Nat} :
    Headers c (paramsCode c (Lower.firstDefault f.params) 0 f.params ++ closeCode line (stmtsCode c false f.body)) f.headed :=
  (headers_params f.params).append (headers_closeCode (headers_body f))

theorem headers_funcCode {d : Typed.FuncDecl} {f : Frame} (h : d.frame = some f) :
    Headers c (funcCode c d) f.headed := by
  have hthis : Headers c (if (c.1.func d.symbol).owner.isSome then [Piece.plain .argVar d.line [0]] else []) [] := by
    split
    · exact .one rfl
    · exact .nil
  rw [funcCode, h]
  exact .cons rfl (((headers_params f.params).followed hthis).append
    (headers_closeCode (headers_body f)))

/-- The code that initialises a module has no headers but those of its lambdas. -/
theorem headers_init (p : Typed.Program) : Headers c (programCode c p .init) [] := by
  have hdecl : ∀ d : Typed.Decl, Headers c (initCode c d) [] := by
    intro d
    unfold initCode
    split
    · exact .one rfl
    · exact .nil
    · exact .nil
    · exact .nil
    · exact (headers_expr _).followed (.one rfl)
  have hdecls : ∀ ds : List Typed.Decl, Headers c (ds.flatMap (initCode c)) [] := by
    intro ds
    induction ds with
    | nil => exact .nil
    | cons d ds ih => exact (hdecl d).followed ih
  exact (hdecls p.decls).followed (.one rfl)

end Headers

/-! ## Headers in decoded code -/

/-- The instructions between two positions. -/
def between (ds : List Decoded) (start stop : Nat) : List Decoded := ds.filter fun d => start ≤ d.pos ∧ d.pos < stop

/-- The instructions of a frame among some that stand one after the other: bodies of lambdas are passed over. -/
def ownInstructions : Nat → List Decoded → List Decoded
  | _, [] => []
  | past, d :: ds =>
    if d.pos < past then ownInstructions past ds
    else d :: ownInstructions (if d.op = .lambda then (d.target?.getD 0).toNat else past) ds

/-- The headers of the frame whose code is between two positions. -/
def frameHeaders (ds : List Decoded) (start stop : Nat) : List Decoded :=
  (ownInstructions 0 (between ds start stop)).filter (·.op = .block)

/-- Instructions are read back from code. Marks are not encoded. A direct call leaves out the instruction that pushes the
function. -/
inductive Reads : List Piece → List Decoded → Prop
  | nil : Reads [] []
  | same {q : Piece} {d : Decoded} {code : List Piece} {ds : List Decoded} :
    d.op = q.op → Reads code ds → Reads (q :: code) (d :: ds)
  | called {q : Piece} {d : Decoded} {code : List Piece} {ds : List Decoded} :
    q.op = .callPtr → d.op = .call → Reads code ds → Reads (q :: code) (d :: ds)
  | skipped {q : Piece} {code : List Piece} {ds : List Decoded} :
    q.op = .mark ∨ q.op = .getFunc → Reads code ds → Reads (q :: code) ds

/-- An instruction is the header of a group: it has its kind, and it leads to the position after the last instruction of
the contents of the group. -/
structure Decoded.Heads (c : Store × Module) (ds : List Decoded) (g : Group) (d : Decoded) : Prop where
  kind : d.operands.head? = some (Lower.kindNumber g.kind)
  contents : ∃ stop : Nat, d.target? = some (stop : Int) ∧ Reads (groupContents c g) (between ds d.next stop) ∧
    stop = ((between ds d.next stop).getLast?.map Decoded.next).getD d.next

/-- In the code of a frame between two positions, the headers are those of some groups, and their ranges are apart or one
in the other. -/
structure FrameHeaders (c : Store × Module) (ds : List Decoded) (start stop : Nat) (gs : List Group) : Prop where
  heads : List.Forall₂ (Decoded.Heads c ds) gs (frameHeaders ds start stop)
  apart : (frameHeaders ds start stop).Pairwise fun d e => d.pos < e.pos ∧ ∀ t u, d.target? = some t → e.target? = some u →
    t ≤ e.pos ∨ u ≤ t

section Decoded

variable {c : Store × Module} {cs : List Constant} {xs : List Instruction} {starts : List Nat} {code part : List Piece}
  {o i j : Nat} {gs : List Group}

/-- The instructions between two places. -/
def segment (xs : List Instruction) (i n : Nat) : List Decoded := ((xs.drop i).take n).filterMap Instruction.decoded?

theorem segment_append (i m n : Nat) : segment xs i (m + n) = segment xs i m ++ segment xs (i + m) n := by
  rw [segment, List.take_add, List.filterMap_append, List.drop_drop]
  rfl

theorem segment_all {n : Nat} (h : xs.length ≤ n) : segment xs 0 n = xs.filterMap Instruction.decoded? := by
  rw [segment, List.drop_zero, List.take_of_length_le h]

theorem Placed.decoded? (hp : Placed 0 xs) {x : Instruction} (hx : xs[i]? = some x) :
    x.decoded? = if x.op = .mark then none else some (x.read xs i) := by
  rw [Instruction.decoded?, hp.pos hx]
  rfl

theorem segment_cons (hp : Placed 0 xs) {x : Instruction} {n : Nat} (hx : xs[i]? = some x) :
    segment xs i (n + 1) = if x.op = .mark then segment xs (i + 1) n else x.read xs i :: segment xs (i + 1) n := by
  obtain ⟨hi, rfl⟩ := List.getElem?_eq_some_iff.mp hx
  have hd := hp.decoded? hx
  rw [segment, List.drop_eq_getElem_cons hi, List.take_succ_cons]
  split
  · next hm => rw [List.filterMap_cons_none (by rw [hd, if_pos hm]), segment]
  · next hm => rw [List.filterMap_cons_some (by rw [hd, if_neg hm]), segment]

theorem pos_of_mem_segment (hp : Placed 0 xs) {n : Nat} {d : Decoded} (h : d ∈ segment xs i n) :
    posAt xs i ≤ d.pos ∧ d.pos < posAt xs (i + n) := by
  obtain ⟨x, hx, hd⟩ := List.mem_filterMap.mp h
  obtain ⟨j, hj⟩ := List.mem_iff_getElem?.mp hx
  obtain ⟨hn, hat⟩ : j < n ∧ xs[i + j]? = some x := by
    rw [List.getElem?_take] at hj
    split at hj
    · next hn => exact ⟨hn, by rwa [List.getElem?_drop] at hj⟩
    · cases hj
  rw [hp.decoded? hat] at hd
  split at hd
  · cases hd
  · next hm =>
    obtain rfl := Option.some.inj hd
    exact ⟨posAt_mono xs (by omega), posAt_lt hat hm (by omega)⟩

theorem between_posAt (hp : Placed 0 xs) (i n : Nat) :
    between (xs.filterMap Instruction.decoded?) (posAt xs i) (posAt xs (i + n)) = segment xs i n := by
  have hparts : xs.filterMap Instruction.decoded? = segment xs 0 i ++ (segment xs i n ++ segment xs (i + n) xs.length) := by
    rw [← segment_append, ← segment_all (show xs.length ≤ i + (n + xs.length) by omega), segment_append, Nat.zero_add]
  have hbefore : ∀ d ∈ segment xs 0 i, ¬(posAt xs i ≤ d.pos ∧ d.pos < posAt xs (i + n)) := by
    intro d hd
    have := (pos_of_mem_segment hp hd).2
    rw [Nat.zero_add] at this
    omega
  have hafter : ∀ d ∈ segment xs (i + n) xs.length, ¬(posAt xs i ≤ d.pos ∧ d.pos < posAt xs (i + n)) := by
    intro d hd
    have := (pos_of_mem_segment hp hd).1
    omega
  have hnil : ∀ {ds : List Decoded}, (∀ d ∈ ds, ¬(posAt xs i ≤ d.pos ∧ d.pos < posAt xs (i + n))) →
      between ds (posAt xs i) (posAt xs (i + n)) = [] := fun h => List.filter_eq_nil_iff.mpr (by simpa using h)
  have hself : between (segment xs i n) (posAt xs i) (posAt xs (i + n)) = segment xs i n :=
    List.filter_eq_self.mpr fun d hd => by simpa using pos_of_mem_segment hp hd
  have hnone := hnil hbefore
  have hrest := hnil hafter
  unfold between at hnone hself hrest ⊢
  rw [hparts, List.filter_append, List.filter_append, hnone, hself, hrest, List.nil_append, List.append_nil]

/-- A part of final code is read back from its place. -/
theorem Final.segment_reads (hf : Final cs code xs)
    (h : ∀ {j : Nat} {r}, part[j]? = some r → ∃ r', code[i + j]? = some r' ∧ r'.op = r.op) :
    Reads part (segment xs i part.length) := by
  induction part generalizing i with
  | nil => exact .nil
  | cons q part ih =>
    obtain ⟨r, hr, hop⟩ := h (j := 0) rfl
    rw [Nat.add_zero] at hr
    obtain ⟨x, hx, hxr⟩ := hf.at hr
    have hrest : Reads part (segment xs (i + 1) part.length) := by
      refine ih fun {j r} hr => ?_
      obtain ⟨r', hr', hop'⟩ := h (j := j + 1) hr
      exact ⟨r', by rw [← hr']; congr 1; omega, hop'⟩
    rw [List.length_cons, segment_cons hf.placed hx]
    rw [hop] at hxr
    split
    · next hm =>
      refine .skipped ?_ hrest
      rcases hxr with hxr | ⟨hq, -⟩ | ⟨-, hcall⟩
      · exact .inl (hxr.symm.trans hm)
      · exact .inr hq
      · rw [hm] at hcall
        cases hcall
    · next hm =>
      rcases hxr with hxr | ⟨-, hmark⟩ | ⟨hq, hcall⟩
      · exact .same hxr hrest
      · exact absurd hmark hm
      · exact .called hq hcall hrest

/-- Places end after the last instruction before them. -/
theorem segment_last (hp : Placed 0 xs) {n : Nat} (hlen : i + n ≤ xs.length) :
    posAt xs (i + n) = ((segment xs i n).getLast?.map Decoded.next).getD (posAt xs i) := by
  induction n generalizing i with
  | zero => simp [segment]
  | succ n ih =>
    have hx := List.getElem?_eq_getElem (show i < xs.length by omega)
    have hrest := ih (i := i + 1) (by omega)
    rw [show i + 1 + n = i + (n + 1) by omega] at hrest
    rw [segment_cons hp hx, hrest]
    split
    · next hm => rw [posAt_mark hx hm]
    · rw [← next_read hx, List.getLast?_cons]
      cases (segment xs (i + 1) n).getLast? <;> rfl

/-- The headers of a part of final code, with the positions where they lead. -/
theorem Final.ownInstructions (hf : Final cs code xs) (h : Framed starts code) {k past : Nat} (hpart : Holds code o part)
    (hpast : k = 0 ∧ past ≤ posAt xs o ∨ past = posAt xs (o + k)) (hforward : ∀ s ∈ headerSpans k part, s.1 < s.2) :
    List.Forall₂ (fun (s : Nat × Nat) d => ∃ x, xs[o + s.1]? = some x ∧ x.op = .block ∧ d = x.read xs (o + s.1) ∧
        d.target? = some (posAt xs (o + s.2) : Int)) (headerSpans k part)
      ((Bytecode.ownInstructions past (segment xs o part.length)).filter (·.op = .block)) := by
  induction part generalizing o k past with
  | nil =>
    rw [headerSpans, List.length_nil, segment, List.take_zero]
    exact .nil
  | cons q part ih =>
    have hq : code[o]? = some q := hpart 0 q rfl
    obtain ⟨x, hx, hop⟩ := hf.at hq
    have hrest : Holds code (o + 1) part := fun j r hr => by
      rw [Nat.add_assoc, Nat.add_comm 1]
      exact hpart (j + 1) r hr
    -- what is shown of the rest holds of its places in the whole
    have hshift : ∀ {l : List (Nat × Nat)} {ds : List Decoded},
        List.Forall₂ (fun (s : Nat × Nat) d => ∃ x, xs[o + 1 + s.1]? = some x ∧ x.op = .block ∧
          d = x.read xs (o + 1 + s.1) ∧ d.target? = some (posAt xs (o + 1 + s.2) : Int)) l ds →
        List.Forall₂ (fun (s : Nat × Nat) d => ∃ x, xs[o + s.1]? = some x ∧ x.op = .block ∧ d = x.read xs (o + s.1) ∧
          d.target? = some (posAt xs (o + s.2) : Int)) (l.map (shifted 1)) ds := by
      intro l ds hl
      rw [List.forall₂_map_left_iff]
      simpa only [shifted, ← Nat.add_assoc] using hl
    rw [List.length_cons, segment_cons hf.placed hx]
    cases k with
    | succ k =>
      obtain rfl : past = posAt xs (o + (k + 1)) := by simpa using hpast
      have hend : posAt xs (o + (k + 1)) = posAt xs (o + 1 + k) := by
        congr 1
        omega
      have hinner := ih hrest (.inr hend) fun s hs => by
        have := hforward _ (List.mem_map_of_mem hs)
        simpa [shifted] using this
      rw [headerSpans]
      split
      · exact hshift hinner
      · next hm =>
        rw [Bytecode.ownInstructions, if_pos (show (x.read xs o).pos < _ from posAt_lt hx hm (by omega))]
        exact hshift hinner
    | zero =>
      have hle : past ≤ posAt xs o := by
        rcases hpast with ⟨-, h⟩ | h
        · exact h
        · exact h.le
      have hstep : posAt xs o ≤ posAt xs (o + 1) := posAt_mono xs (Nat.le_succ o)
      have hinner : ∀ {past'}, q.inner = 0 ∧ past' ≤ posAt xs (o + 1) ∨ past' = posAt xs (o + 1 + q.inner) →
          List.Forall₂ _ ((headerSpans q.inner part).map (shifted 1)) _ := fun hpast' =>
        hshift (ih hrest hpast' fun s hs => by
          have := hforward _ (by rw [headerSpans]; exact List.mem_append_right _ (List.mem_map_of_mem hs))
          simpa [shifted] using this)
      rw [headerSpans]
      by_cases hm : x.op = .mark
      · have hq : q.op.opens = false := by
          rcases hop with hop | ⟨hop, -⟩ | ⟨hop, -⟩
          · rw [← hop, hm]
            rfl
          · rw [hop]
            rfl
          · rw [hop]
            rfl
        obtain ⟨hblock, hlambda⟩ := Opcode.opens_eq_false.mp hq
        rw [if_pos hm, if_neg hblock]
        exact hinner (.inl ⟨by rw [Piece.inner, if_neg hlambda], hle.trans hstep⟩)
      · have hfrom : ¬(x.read xs o).pos < past := by
          simp only [Instruction.read]
          omega
        -- headers and lambdas are encoded as they are
        have hsame : ∀ op : Opcode, op = .block ∨ op = .lambda → (x.op = op ↔ q.op = op) := by
          rintro op hopens
          rcases hop with hop | ⟨-, hmark⟩ | ⟨hptr, hcall⟩
          · rw [hop]
          · exact absurd hmark hm
          · rw [hptr, hcall]
            rcases hopens with rfl | rfl <;> decide
        have hpast' : q.inner = 0 ∧ (if x.op = .lambda then ((x.read xs o).target?.getD 0).toNat else past) ≤ posAt xs (o + 1) ∨
            (if x.op = .lambda then ((x.read xs o).target?.getD 0).toNat else past) = posAt xs (o + 1 + q.inner) := by
          by_cases hlambda : x.op = .lambda
          · obtain ⟨r, d, hr, hgoal, -, htarget, -⟩ := hf.lambda h hx hlambda
            obtain rfl : q = r := Option.some.inj (hq.symm.trans hr)
            have hskip : q.inner = d + 1 := by
              rw [Piece.inner, if_pos ((hsame .lambda (.inr rfl)).mp hlambda), Piece.distance, hgoal]
              dsimp only
              omega
            right
            rw [if_pos hlambda, htarget, Option.getD_some, Int.toNat_natCast, hskip]
            congr 1
            omega
          · rw [if_neg hlambda, Piece.inner, if_neg (mt (hsame .lambda (.inr rfl)).mpr hlambda)]
            exact .inl ⟨rfl, hle.trans hstep⟩
        rw [if_neg hm, Bytecode.ownInstructions, if_neg hfrom]
        by_cases hblock : q.op = .block
        · have hxop := (hsame .block (.inl rfl)).mpr hblock
          rw [if_pos hblock, List.filter_cons_of_pos (by exact decide_eq_true hxop)]
          refine .cons ⟨x, hx, hxop, rfl, ?_⟩ (hinner hpast')
          obtain ⟨t, ht⟩ := hf.leads hx (by rw [hxop]; rfl)
          obtain ⟨r, e, j, hr, -, hgoal, hj, -, rfl⟩ := hf.target h.directed h.idle hx ht
          obtain rfl : q = r := Option.some.inj (hq.symm.trans hr)
          have hlt := hforward (0, q.distance.toNat) (by rw [headerSpans, if_pos hblock]; exact List.mem_cons_self)
          have hd : q.distance = e := by rw [Piece.distance, hgoal]
          rw [hd] at hlt ⊢
          obtain rfl : j = o + e.toNat := by omega
          exact ht
        · rw [if_neg hblock, List.filter_cons_of_neg (by exact ne_true_of_eq_false (decide_eq_false (mt (hsame .block (.inl rfl)).mp hblock)))]
          exact hinner hpast'

/-- The first operand of a header is the one of its piece. -/
theorem Final.header (hf : Final cs code xs) {x : Instruction} {q : Piece} (hx : xs[i]? = some x) (hq : code[i]? = some q)
    (hop : q.op = .block) : x.operands.head? = q.operands.head? := by
  obtain ⟨z, hz, -, hkept | ⟨hget, -⟩ | ⟨hcall, -⟩⟩ := hf.shows hq
  · obtain rfl : x = z := Option.some.inj (hx.symm.trans hz)
    obtain ⟨y, hy, hplain, hlead⟩ := hkept.operands
    have hconst : q.const = none := by
      cases hc : q.const with
      | none => rfl
      | some c =>
        obtain ⟨p, _, hp, -⟩ := hy.const c hc
        simp [hop, Opcode.pool, Opcode.info] at hp
    have hsame := (hy.bare hconst).2
    by_cases hgoal : ∃ d, q.goal = some (.ahead d)
    · obtain ⟨d, hgoal⟩ := hgoal
      obtain ⟨j, z, -, -, hops⟩ := hlead d hgoal
      have hoffset : q.offsetIndex = 1 := by rw [Piece.offsetIndex, hop]; rfl
      rw [hops, hoffset, hsame]
      cases q.operands <;> rfl
    · rw [hplain fun d hd => hgoal ⟨d, hd⟩, hsame]
  · rw [hop] at hget
    cases hget
  · rw [hop] at hcall
    cases hcall

theorem pairwise_of_forall₂ {α β : Type} {R : α → β → Prop} {P : α → α → Prop} {Q : β → β → Prop}
    (hPQ : ∀ {a a' b b'}, R a b → R a' b' → P a a' → Q b b') {as : List α} {bs : List β} (h : List.Forall₂ R as bs)
    (hP : as.Pairwise P) : bs.Pairwise Q := by
  obtain ⟨hlen, hat⟩ := List.forall₂_iff_get.mp h
  refine List.pairwise_iff_getElem.mpr fun i j hi hj hij => ?_
  exact hPQ (hat i (hlen ▸ hi) hi) (hat j (hlen ▸ hj) hj) (List.pairwise_iff_getElem.mp hP i j _ _ hij)

/-- The headers of the code of a frame are those of its groups. -/
theorem Final.frameHeaders (hf : Final cs code xs) (h : Framed starts code) (hpart : Holds code o part)
    (hheaders : Headers c part gs) : FrameHeaders c (xs.filterMap Instruction.decoded?) (posAt xs o)
      (posAt xs (o + part.length)) gs := by
  have hread := hf.ownInstructions h hpart (.inl ⟨rfl, Nat.zero_le _⟩) fun s hs => (hheaders.inside s hs).1
  have hframe : Bytecode.frameHeaders (xs.filterMap Instruction.decoded?) (posAt xs o) (posAt xs (o + part.length)) =
      (Bytecode.ownInstructions 0 (segment xs o part.length)).filter (·.op = .block) := by
    rw [Bytecode.frameHeaders, between_posAt hf.placed]
  rw [← hframe] at hread
  refine ⟨forall₂_trans (fun g s d hg hd => ?_) hheaders.heads hread, pairwise_of_forall₂ ?_ hread hheaders.apart⟩
  · obtain ⟨x, hx, hxop, rfl, htarget⟩ := hd
    obtain ⟨q, hq, hqop, hkind, -⟩ := hg.header
    have hstop : o + s.2 = o + s.1 + 1 + (groupContents c g).length := by
      have := hg.stop
      omega
    have hend : o + s.1 + 1 + (groupContents c g).length ≤ xs.length := by
      cases hlen : (groupContents c g).length with
      | zero => exact (List.getElem?_eq_some_iff.mp hx).1
      | succ n =>
        obtain ⟨r, hr, -⟩ := hg.contents (List.getElem?_eq_getElem (show n < (groupContents c g).length by omega))
        have := (List.getElem?_eq_some_iff.mp (hpart _ r hr)).1
        rw [hf.length]
        omega
    have hnext : (x.read xs (o + s.1)).next = posAt xs (o + s.1 + 1) := next_read hx
    have hbetween := between_posAt hf.placed (o + s.1 + 1) (groupContents c g).length
    refine ⟨(hf.header hx (hpart _ q hq) hqop).trans hkind, posAt xs (o + s.2), htarget, ?_, ?_⟩
    · rw [hnext, hstop, hbetween]
      refine hf.segment_reads fun {j r} hr => ?_
      obtain ⟨r', hr', hop⟩ := hg.contents hr
      exact ⟨r', by simpa only [Nat.add_assoc] using hpart _ r' hr', hop⟩
    · rw [hnext, hstop, hbetween]
      exact segment_last hf.placed hend
  · rintro s t d e ⟨x, hx, hxop, rfl, hd⟩ ⟨y, hy, -, rfl, he⟩ ⟨hlt, hapart⟩
    have hm : x.op ≠ .mark := by rw [hxop]; decide
    refine ⟨posAt_lt hx hm (by omega), fun p q hp hq => ?_⟩
    obtain rfl := Option.some.inj (hd.symm.trans hp)
    obtain rfl := Option.some.inj (he.symm.trans hq)
    rcases hapart with hapart | hapart
    · exact .inl (Int.ofNat_le.mpr (posAt_mono xs (by omega)))
    · exact .inr (Int.ofNat_le.mpr (posAt_mono xs (by omega)))

end Decoded

/-! ## Headers of compiled modules -/

section Compiled

variable {st : Store} {m : Module} {p : Typed.Program} {out : Compiled}

/-- The headers of the lambdas of code. -/
theorem lambdas_headers {c : Store × Module} {cs : List Constant} {xs : List Instruction} {starts : List Nat}
    {code : List Piece} (h : Framed starts code) (hf : Final cs code xs) {fns : List Lambda} (hfns : Makes c code fns) :
    List.Forall₂ (fun (fn : Lambda) d => ∃ stop : Nat, Decoded.target? d = some (stop : Int) ∧
        FrameHeaders c (decode (xs.flatMap Instruction.encode)).1 d.next stop fn.frame.headed)
      fns ((decode (xs.flatMap Instruction.encode)).1.filter fun d => d.op = .lambda) := by
  refine (lambdas_read hf hfns).imp fun fn d hd => ?_
  obtain ⟨i, x, hpart, hx, hop, rfl⟩ := hd
  obtain ⟨q, n, hq, hgoal, -, htarget, -⟩ := hf.lambda h hx hop
  obtain ⟨line, sig, upvals, slots, ps, bodyLine, body⟩ := fn
  rw [lambdaCode] at hpart
  let inner := Piece.plain .initFrame line [(slots : Int)] :: (paramsCode c (Lower.firstDefault ps) 0 ps ++
    closeCode (Lower.lastLine ⟨slots, ps, bodyLine, body⟩) (stmtsCode c false body))
  have hinner : Headers c inner (Frame.headed ⟨slots, ps, bodyLine, body⟩) :=
    .cons rfl (headers_frame (f := ⟨slots, ps, bodyLine, body⟩))
  have hholds : Holds code (i + 1) inner := hpart.trans (((Holds.refl inner).append _).after [_])
  have hlen : n + 1 = inner.length := by
    have hfirst := hpart 0 _ rfl
    rw [Nat.add_zero, hq] at hfirst
    obtain rfl := Option.some.inj hfirst
    simp only [Piece.leading, Option.some.injEq, Goal.ahead.injEq] at hgoal
    simp only [inner]
    omega
  refine ⟨_, htarget, ?_⟩
  rw [hf.decode, next_read hx, show i + n + 2 = i + 1 + inner.length by omega]
  exact hf.frameHeaders h hholds hinner

/-- In a compiled module, the headers of every frame are those of the groups of the frame that need one. The code of a
function is between its entry and the end of what is read back of it, and the one of a lambda between the lambda and the
position where it leads. -/
theorem compile_headers (h : compile st m p = .ok out) :
    List.Forall₂ (fun (d : Typed.FuncDecl) f => f.name = (st.func d.symbol).fullName ∧ ∃ stop,
        Reads (funcCode (st, m) d) (between (decode out.code).1 f.pos.toNat stop) ∧
        ∀ frame, d.frame = some frame → FrameHeaders (st, m) (decode out.code).1 f.pos.toNat stop frame.headed)
      p.funcs out.funcs ∧
      (∀ part, List.Forall₂ (fun (fn : Lambda) d => ∃ stop : Nat, Decoded.target? d = some (stop : Int) ∧
          FrameHeaders (st, m) (decode (out.bytes part)).1 d.next stop fn.frame.headed)
        (p.lambdas part) ((decode (out.bytes part)).1.filter fun d => d.op = .lambda)) ∧
      FrameHeaders (st, m) (decode out.init).1 0 out.init.length [] := by
  obtain ⟨xs, hf, hinit, hcode, hfuncs, hc⟩ := compile_final h
  have hframed := framed_funcs hc
  refine ⟨?_, ?_, ?_⟩
  · have hplaces := holds_entryPlaces (c := (st, m)) [] p.funcs
    have hentries : List.Forall₂ (fun (d : Typed.FuncDecl) (e : String × Option Int) => e.1 = (st.func d.symbol).fullName ∧
        ∀ pos, e.2 = some pos → ∃ stop, Reads (funcCode (st, m) d) (between (decode out.code).1 pos.toNat stop) ∧
          ∀ frame, d.frame = some frame → FrameHeaders (st, m) (decode out.code).1 pos.toNat stop frame.headed)
        p.funcs (out.funcs.map fun f => (f.name, some f.pos)) := by
      rw [hfuncs, List.forall₂_map_right_iff]
      refine hplaces.imp fun d e hd => ?_
      obtain ⟨hsym, hpart⟩ := hd
      refine ⟨by rw [hsym], fun pos hpos => ?_⟩
      obtain ⟨x, hx, rfl⟩ := Option.map_eq_some_iff.mp hpos
      rw [(hf .code).placed.pos hx, Int.toNat_natCast, hcode, (hf .code).decode]
      refine ⟨posAt (xs .code) (e.2 + (funcCode (st, m) d).length), ?_, fun frame hframe => ?_⟩
      · rw [between_posAt (hf .code).placed]
        exact (hf .code).segment_reads fun hr => ⟨_, hpart _ _ hr, rfl⟩
      · exact (hf .code).frameHeaders hframed hpart (headers_funcCode hframe)
    rw [List.forall₂_map_right_iff] at hentries
    exact hentries.imp fun d f ⟨hname, hframe⟩ => ⟨hname, hframe f.pos rfl⟩
  · intro part
    cases part with
    | init =>
      rw [Compiled.bytes, hinit]
      exact lambdas_headers framed_init (hf .init) (makes_program p .init)
    | code =>
      rw [Compiled.bytes, hcode]
      exact lambdas_headers hframed (hf .code) (makes_program p .code)
  · have hall := (hf .init).frameHeaders framed_init (Holds.refl _) (headers_init p)
    have hlen : out.init.length = posAt (xs .init) (programCode (st, m) p .init).length := by
      rw [hinit, length_flatMap_encode (hf .init).sound, posAt, ← (hf .init).length, List.take_length]
    rw [Nat.zero_add, ← hlen] at hall
    rw [hinit, (hf .init).decode, ← hinit]
    exact hall

end Compiled

/-- A function with a sequence around a parallel block, a plain sequence, and a deferred block. -/
def pausingFrame : Frame :=
  { slots := 0, params := [], line := 1
    body := [.block (.group 2 .seq [.block (.group 3 .paral [.yield 3])]), .block (.group 4 .seq [.yield 4]),
      .block (.group 5 .defer [.yield 5])] }

/-- The plain sequence needs no header, and the statement in the parallel block has a sequence of its own. -/
example : pausingFrame.headed.map (·.kind) = [.seq, .paral, .seq, .defer] := by decide

/-- A program with this function. -/
def pausing : Typed.Program := ⟨"m", [.func ⟨1, ⟨0⟩, some pausingFrame⟩]⟩

theorem compile_pausing_headers : ∃ out, compile .empty default pausing = .ok out ∧
    List.Forall₂ (fun (d : Typed.FuncDecl) f => f.name = (Store.empty.func d.symbol).fullName ∧ ∃ stop,
        Reads (funcCode (.empty, default) d) (between (decode out.code).1 f.pos.toNat stop) ∧
        ∀ frame, d.frame = some frame →
          FrameHeaders (.empty, default) (decode out.code).1 f.pos.toNat stop frame.headed)
      pausing.funcs out.funcs := by
  have hok : (compile .empty default pausing).isOk = true := by decide +kernel
  cases h : compile .empty default pausing with
  | error e =>
    rw [h] at hok
    cases hok
  | ok out => exact ⟨out, rfl, (compile_headers h).1⟩

end Bytecode

end Weft
