import Weft.Proofs.Analysis.ScopedExpr
import Weft.Proofs.Analysis.TrustedStmt

/-!
# Statements in scope

A declaration is in scope after its first value and up to the end of its block. What an accepted statement mentions is
consistent with the variables that the statements before it declare, so it is for everything that a visit accepts.
-/

namespace Weft.Analysis

open Typed (Expr Extends Mention Located visible located exprsMentions stmtsDeclared stmtsLocals stmtsLocated armsLocals armsLocated)

/-! ## Lists of statements -/

section Trees

variable {vars d L : List LocalVar} {R : List (List LocalVar)} {K : List Located}

theorem gives_nil : Standing.Gives ⟨d :: R, L, K⟩ (.after d R L []) := ⟨rfl, .refl _, List.nil_subset _⟩

/-- A statement that declares nothing leads on to where it stands. -/
theorem gives_plain {x : Typed.Stmt} (hd : x.declared = []) (hl : x.locals = []) (hx : x.located (d ++ R.flatten) ⊆ K) :
    Standing.Gives ⟨d :: R, L, K⟩ (.after d R L [x]) := by
  refine ⟨?_, ?_, ?_⟩
  · simp [Standing.after, stmtsDeclared, hd]
  · simp [Standing.after, stmtsLocals, hl]
  · simpa [Standing.after, stmtsLocated] using hx

theorem stmtsDeclared_exprs (xs : List Expr) : stmtsDeclared (xs.map .expr) = [] := by
  induction xs with
  | nil => rfl
  | cons x xs ih => simpa [stmtsDeclared, Typed.Stmt.declared] using ih

theorem stmtsLocals_exprs (xs : List Expr) : stmtsLocals (xs.map .expr) = [] := by
  induction xs with
  | nil => rfl
  | cons x xs ih => simpa [stmtsLocals, Typed.Stmt.locals] using ih

theorem stmtsLocated_exprs (xs : List Expr) : stmtsLocated vars (xs.map .expr) = located vars (exprsMentions xs) := by
  induction xs with
  | nil => rfl
  | cons x xs ih => rw [List.map_cons, stmtsLocated, exprsMentions, Typed.located_append, ← ih]; rfl

/-- Expressions as statements. -/
theorem gives_exprs {xs : List Expr} (h : located (d ++ R.flatten) (exprsMentions xs) ⊆ K) :
    Standing.Gives ⟨d :: R, L, K⟩ (.after d R L (xs.map .expr)) := by
  refine ⟨?_, ?_, ?_⟩
  · rw [Standing.after, stmtsDeclared_exprs, List.nil_append]
  · rw [Standing.after, stmtsLocals_exprs, List.nil_append]
  · rw [Standing.after, stmtsLocated_exprs]
    exact h

theorem gives_expr {x : Expr} (h : located (d ++ R.flatten) x.mentions ⊆ K) :
    Standing.Gives ⟨d :: R, L, K⟩ (.after d R L [.expr x]) := gives_plain rfl rfl h

/-- Where a block leads. -/
def Standing.afterBlock (D : List (List LocalVar)) (L : List LocalVar) (b : Typed.Block) : Standing :=
  ⟨D, b.locals ++ L, b.located D.flatten⟩

/-- An analysis of a block. -/
abbrev RunsBlock (D : List (List LocalVar)) (L : List LocalVar) (K : List Located) (m : Analysis Typed.Block) : Prop :=
  Runs ⟨D, L, K⟩ m (.afterBlock D L)

theorem gives_block {b : Typed.Block} {L' : List LocalVar} (hl : L' = b.locals ++ L)
    (hb : b.located (d ++ R.flatten) ⊆ K) : Standing.Gives ⟨d :: R, L', K⟩ (.after d R L [.block b]) := by
  refine ⟨?_, ?_, ?_⟩
  · simp [Standing.after, stmtsDeclared, Typed.Stmt.declared]
  · simp [Standing.after, stmtsLocals, Typed.Stmt.locals, hl]
  · simpa [Standing.after, stmtsLocated, Typed.Stmt.located] using hb

end Trees

section Statements

variable {v : Visit} {D R : List (List LocalVar)} {d L : List LocalVar} {K : List Located}

/-! ## Blocks, conditions and jumps -/

theorem scoped_group (hv : v.Scopes) {kind : Typed.Grouping} {b : Tree.Block} : RunsBlock D L K (group v kind b) := by
  rw [group]
  refine ((scoped_stmts hv).inBlock fun ss => ⟨_, rfl⟩).bind fun ss => runs_pure ?_
  exact Standing.also_gives _ _

theorem scoped_loopBody (hv : v.Scopes) {b : Tree.Block} : RunsBlock D L K (loopBody v b) := (scoped_group hv).inside

theorem scoped_condition (hv : v.Scopes) {x : Tree.Expr} {K : List Mention} :
    Tells D L K (condition v x) Expr.mentions := by
  rw [condition]
  refine Tells.bind hv.expr fun y => ?_
  obtain ⟨y, t⟩ := y
  dsimp only
  split
  · split
    · exact runs_typeName_bind fun _ => runs_report_bind
    · exact tells_pure (List.subset_append_left _ _)
  · exact tells_pure (List.subset_append_left _ _)

theorem runs_checkJump {p : Standing} {span : Span} {word : String} : Runs p (checkJump span word) fun _ => p :=
  .still (fun h => (accepts_checkJump h).1) fun _ => .refl p

theorem scoped_arms (hv : v.Scopes) {arms : List (Tree.Expr × Tree.Block)} :
    Runs ⟨D, L, K⟩ (arms.mapM fun a => do
        let test ← condition v a.1
        return ({ test, body := ← group v .seq a.2 } : Typed.Arm))
      fun r => ⟨D, armsLocals r ++ L, armsLocated D.flatten r⟩ := by
  induction arms generalizing L K with
  | nil => exact runs_pure ⟨rfl, .refl _, List.nil_subset _⟩
  | cons a arms ih =>
    rw [List.mapM_cons]
    simp only [bind_assoc, pure_bind]
    refine (scoped_condition hv).runs.bind fun test => (scoped_group hv).bind fun body => ih.bind fun rest => ?_
    refine runs_pure ⟨rfl, ?_, ?_⟩
    · simp only [Standing.also, Standing.afterBlock, armsLocals, List.append_assoc]
      exact List.perm_append_comm_assoc _ _ _
    · intro m hm
      simp only [Standing.also, Standing.afterBlock, armsLocated, List.mem_append] at hm ⊢
      tauto

theorem scoped_conditions (hv : v.Scopes) {i : Tree.If} : RunsBlock D L K (conditions v i) := by
  rw [conditions]
  refine (scoped_arms hv).bind fun arms => ?_
  cases i.last? with
  | none =>
    rw [Option.mapM_none, pure_bind]
    exact runs_pure (Standing.also_gives _ _)
  | some b =>
    rw [Option.mapM_some, map_eq_pure_bind, bind_assoc]
    refine (scoped_group hv).bind fun other => ?_
    rw [pure_bind]
    refine runs_pure ⟨rfl, ?_, ?_⟩
    · simp only [Standing.also, Standing.afterBlock, Typed.Block.locals, List.append_assoc]
      exact List.perm_append_comm_assoc _ _ _
    · simp only [Standing.also, Standing.afterBlock, Typed.Block.located]
      simp

/-! ## Loops -/

theorem scoped_loopStmt (hv : v.Scopes) {s : Option Tree.Stmt} : RunsStmts d R L K (loopStmt v s) := by
  cases s with
  | none => exact runs_pure gives_nil
  | some s => exact hv.stmt

theorem scoped_loopTest (hv : v.Scopes) {line : Nat} {x : Option Tree.Expr} {K : List Mention} :
    Tells D L K (loopTest v line x) Expr.mentions := by
  cases x with
  | none => exact tells_pure (List.nil_subset _)
  | some x => exact scoped_condition hv

/-- The parts of a counting loop: its first statement, its condition, its body and its last statement. -/
structure LoopParts where
  first : List Typed.Stmt
  test : Expr
  inner : Typed.Block
  after : List Typed.Stmt

/-- The statement that a counting loop becomes. -/
def LoopParts.stmt (line : Nat) (x : LoopParts) : Typed.Stmt :=
  .block (.group line .seq (x.first ++ [Typed.Stmt.block (.whileLoop line x.test x.inner (some (.group line .seq x.after)))]))

/-- The analysis of the parts of a counting loop. -/
def loopParts (v : Visit) (line : Nat) (init : Option Tree.Stmt) (cond : Option Tree.Expr) (post : Option Tree.Stmt)
    (b : Tree.Block) : Analysis LoopParts := do
  let first ← loopStmt v init
  let test ← loopTest v line cond
  let inner ← loopBody v b
  return ⟨first, test, inner, ← loopStmt v post⟩

theorem forLoop_eq {span : Span} {init : Option Tree.Stmt} {cond : Option Tree.Expr} {post : Option Tree.Stmt}
    {b : Tree.Block} : forLoop v span init cond post b = (do
      return (← inBlock (loopParts v span.start.line init cond post b)).stmt span.start.line) := by
  simp only [forLoop, inBlock, loopParts, LoopParts.stmt, bind_assoc, pure_bind]

theorem scoped_loopParts (hv : v.Scopes) {line : Nat} {init : Option Tree.Stmt} {cond : Option Tree.Expr}
    {post : Option Tree.Stmt} {b : Tree.Block} : Runs ⟨[] :: D, L, K⟩ (loopParts v line init cond post b) fun x =>
      ⟨(stmtsDeclared x.after ++ stmtsDeclared x.first) :: D, (x.stmt line).locals ++ L,
        (x.stmt line).located D.flatten⟩ := by
  rw [loopParts]
  refine (scoped_loopStmt hv).bind fun first => (scoped_loopTest hv).runs.bind fun test => ?_
  refine (scoped_loopBody hv).bind fun inner => (scoped_loopStmt hv).bind fun after => runs_pure ⟨?_, ?_, ?_⟩
  · simp only [Standing.also, Standing.after, List.append_nil]
  · simp only [Standing.also, Standing.after, Standing.afterBlock, LoopParts.stmt, Typed.Stmt.locals, Typed.Block.locals,
      Typed.stmtsLocals_append, stmtsLocals, List.append_nil]
    refine Multiset.coe_eq_coe.mp ?_
    simp only [← Multiset.coe_add]
    abel
  · intro m hm
    simp only [Standing.also, Standing.after, Standing.afterBlock, LoopParts.stmt, Typed.Stmt.located,
      Typed.Block.located, Typed.stmtsLocated_append, stmtsLocated, List.flatten_cons, List.nil_append, List.append_nil,
      List.mem_append] at hm ⊢
    tauto

theorem scoped_forLoop (hv : v.Scopes) {span : Span} {init : Option Tree.Stmt} {cond : Option Tree.Expr}
    {post : Option Tree.Stmt} {b : Tree.Block} : RunsStmts d R L K (do return [← forLoop v span init cond post b]) := by
  rw [forLoop_eq, bind_assoc]
  refine ((scoped_loopParts hv).inBlock fun x => ⟨_, rfl⟩).bind fun x => ?_
  rw [pure_bind]
  exact runs_pure (gives_block rfl (List.subset_append_left _ _))

theorem scoped_wordBlock (hv : v.Scopes) {word : Tree.BlockWord} {b : Tree.Block} :
    RunsBlock D L K (wordBlock v word b) := by
  cases word with
  | defer => exact (scoped_group hv).inside
  | seq => exact scoped_group hv
  | paral => exact scoped_group hv
  | paralAll => exact scoped_group hv

/-! ## Returns and yields -/

theorem scoped_yielding {span : Span} {m : Analysis (List Typed.Stmt)} (hm : RunsStmts d R L K m) :
    RunsStmts d R L K (yielding span m) := by
  rw [yielding]
  exact runs_body_bind fun _ => runs_guard fun _ => runs_hasYield.then fun _ => hm

theorem scoped_returnStmt (hv : v.Scopes) {span : Span} {values : List Tree.Expr} :
    Runs ⟨d :: R, L, K⟩ (returnStmt v span values) fun s => .after d R L [s] := by
  -- one return with some values
  have hret : ∀ {K : List Located} {line n : Nat} {ys : List Expr}, located (d ++ R.flatten) (exprsMentions ys) ⊆ K →
      Standing.Gives ⟨d :: R, L, K⟩ (.after d R L [.ret line n ys]) := fun h => gives_plain rfl rfl h
  rw [returnStmt]
  refine runs_body_bind fun b => runs_guard fun _ => ?_
  dsimp only
  split
  · exact runs_guard fun _ => runs_pure (hret (List.nil_subset _))
  · refine runs_guard fun _ => (Tells.runs hv.expr).bind fun y => runs_checkAssignable_bind (runs_pure (hret ?_))
    rw [exprsMentions, exprsMentions, List.append_nil]
    exact List.subset_append_left _ _
  · refine runs_guard fun _ => runs_guard fun _ => ?_
    refine (Tells.runs (tells_mapM (ν := Expr.mentions) fun p _ => ?_)).bind fun ys => runs_pure (hret ?_)
    · exact Tells.bind hv.expr fun y => runs_checkAssignable_bind (tells_pure (List.subset_append_left _ _))
    · rw [Typed.exprsMentions_eq]
      exact List.subset_append_left _ _

/-! ## Variables -/

/-- A variable that is declared after a check is what its name stands for, and hides nothing that is mentioned. -/
theorem runs_declareLocal {span : Span} {name : String} {t : Option Ty} {K : List Mention} :
    Runs ⟨d :: R, L, located (d ++ R.flatten) K⟩ (declareLocal span name t) fun x =>
      ⟨(x :: d) :: R, x :: L, located (x :: d ++ R.flatten) (.var x :: K)⟩ := by
  intro pl st x st' l outer hst h
  simp only [declareLocal, accepts_body_bind, accepts_guard] at h
  obtain ⟨hfresh, hdeclare⟩ := h
  obtain ⟨l', outer', hst', hupvals, hgrows⟩ := runs_declare _ _ _ _ _ _ hst hdeclare
  have hname : x.name = name := by rw [(accepts_declare.mp hdeclare).1]
  have hnone : visible (⟨d ++ R.flatten, l.body.upvals⟩ :: scopesOf outer) x.name = none := by
    have hscope : l.scope = ⟨d ++ R.flatten, l.body.upvals⟩ := by rw [Layer.scope, hst.decls, List.flatten_cons]
    rw [← hscope, ← hst.layered.1.find?, hname]
    simpa [hst.bodies] using hfresh
  have hext := (Extends.declare hnone).trans ((extends_scopes hgrows).capture hupvals)
  refine ⟨l', outer', ⟨hst'.bodies, hst'.layered, hst'.decls, hst'.declared, fun m hm => ?_⟩, hupvals, hgrows⟩
  obtain ⟨k, hk, rfl⟩ := List.mem_map.mp hm
  rcases List.mem_cons.mp hk with rfl | hk
  · exact .var (by simp [visible])
  · exact (hst.known _ (List.mem_map_of_mem hk)).mono hext

theorem runs_declareVars {dcl : Tree.VarDecl} {vars : List ((String × Option Tree.TypeExpr) × Option Ty)} {i : Nat}
    {items : Option (List Ty)} {K : List Mention} :
    Runs ⟨d :: R, L, located (d ++ R.flatten) K⟩ (declareVars dcl i vars items) fun xs =>
      ⟨(xs.reverse ++ d) :: R, xs ++ L, located (xs.reverse ++ d ++ R.flatten) (xs.map Mention.var ++ K)⟩ := by
  induction vars generalizing i d L K with
  | nil => exact runs_pure (.refl _)
  | cons x vars ih =>
    obtain ⟨⟨name, written⟩, t⟩ := x
    rw [declareVars]
    refine (Runs.still accepts_variableType fun _ => .refl _).then fun t => ?_
    refine runs_declareLocal.bind fun x => ?_
    refine (Runs.of (ih (d := x :: d)) (Standing.also_gives _ _)).bind fun xs => runs_pure ⟨?_, ?_, ?_⟩
    · simp [Standing.also]
    · exact List.perm_middle
    · refine List.subset_append_of_subset_left _ ?_
      simp only [List.reverse_cons, List.append_assoc, List.cons_append]
      refine located_subset fun m hm => ?_
      simp only [List.map_cons, List.mem_cons, List.mem_append] at hm ⊢
      tauto

theorem stmtsDeclared_vars (line : Nat) (xs : List LocalVar) :
    stmtsDeclared (xs.map fun x => .var ⟨line, x, none⟩) = xs.reverse := by
  induction xs with
  | nil => rfl
  | cons x xs ih => rw [List.map_cons, stmtsDeclared, ih, Typed.Stmt.declared, List.reverse_cons]

theorem stmtsLocals_vars (line : Nat) (xs : List LocalVar) :
    stmtsLocals (xs.map fun x => .var ⟨line, x, none⟩) = xs := by
  induction xs with
  | nil => rfl
  | cons x xs ih => rw [List.map_cons, stmtsLocals, ih, Typed.Stmt.locals, List.singleton_append]

theorem stmtsLocated_vars {vars : List LocalVar} (line : Nat) (xs : List LocalVar) :
    stmtsLocated vars (xs.map fun x => .var ⟨line, x, none⟩) = [] := by
  induction xs generalizing vars with
  | nil => rfl
  | cons x xs ih => rw [List.map_cons, stmtsLocated, ih]; rfl

/-- Stores of what is on the stack. -/
theorem map_storeLocal (line : Nat) (xs : List LocalVar) : ∃ ys : List Expr, xs.map (storeLocal line) = ys.map .expr ∧
    exprsMentions ys = xs.map .var := by
  induction xs with
  | nil => exact ⟨[], rfl, rfl⟩
  | cons x xs ih =>
    obtain ⟨ys, hys, hmentions⟩ := ih
    refine ⟨.chain ⟨line, x.type, false, [access line (.writeVar x) x.name x.type []]⟩ :: ys, ?_, ?_⟩
    · rw [List.map_cons, List.map_cons, hys]
      rfl
    · rw [exprsMentions, hmentions]
      rfl

/-- The first value of a variable, if it has one. -/
theorem scoped_initial (hv : v.Scopes) {x : Option Tree.Expr} {expect : Option Ty} {K : List Mention} :
    Tells D L K (x.mapM (v.expr · expect)) fun r => ((r.map Prod.fst).map Expr.mentions).getD [] := by
  cases x with
  | none => exact tells_pure (List.nil_subset _)
  | some x =>
    rw [Option.mapM_some, ← bind_pure_comp]
    exact Tells.bind hv.expr fun y => tells_pure (List.subset_append_left _ _)

theorem gives_var {line : Nat} {x : LocalVar} {init : Option Expr}
    (hx : located (d ++ R.flatten) (Typed.VarDecl.mentions ⟨line, x, init⟩) ⊆ K) :
    Standing.Gives ⟨(x :: d) :: R, x :: L, K⟩ (.after d R L [.var ⟨line, x, init⟩]) :=
  ⟨rfl, .refl _, by simpa [Standing.after, stmtsLocated, Typed.Stmt.located] using hx⟩

/-- Declarations of several variables, and expressions after them. -/
theorem gives_vars (line : Nat) {xs : List LocalVar} (ys : List Expr) {ss : List Typed.Stmt}
    (hss : ss = (xs.map fun x => Typed.Stmt.var ⟨line, x, none⟩) ++ ys.map Typed.Stmt.expr)
    (hy : located (xs.reverse ++ (d ++ R.flatten)) (exprsMentions ys) ⊆ K) :
    Standing.Gives ⟨(xs.reverse ++ d) :: R, xs ++ L, K⟩ (.after d R L ss) := by
  subst hss
  refine ⟨?_, ?_, ?_⟩
  · simp [Standing.after, Typed.stmtsDeclared_append, stmtsDeclared_exprs, stmtsDeclared_vars]
  · simp [Standing.after, Typed.stmtsLocals_append, stmtsLocals_exprs, stmtsLocals_vars]
  · simpa [Standing.after, Typed.stmtsLocated_append, stmtsLocated_exprs, stmtsLocated_vars, stmtsDeclared_vars] using hy

theorem scoped_varStmt (hv : v.Scopes) {dcl : Tree.VarDecl} : RunsStmts d R L K (varStmt v dcl) := by
  rw [varStmt]
  refine (runs_mapM (fun x => .still accepts_writtenType fun _ => .refl _) _).then fun types => ?_
  refine (scoped_initial hv).runs.bind fun init => ?_
  dsimp only
  split
  · next name written _ _ =>
    refine (Runs.still accepts_singleType fun _ => .refl _).then fun t => ?_
    refine Runs.bind (Runs.of (runs_declareLocal (L := L) (K := [])) ⟨rfl, .refl _, List.nil_subset _⟩) fun x => ?_
    refine runs_pure (gives_var ?_)
    exact List.subset_append_of_subset_right _ (List.subset_append_left _ _)
  · refine (Runs.still accepts_itemTypes fun _ => .refl _).then fun items => ?_
    refine (Runs.of runs_declareVars (Standing.also_gives _ _)).bind fun xs => ?_
    split
    · exact runs_pure (gives_vars dcl.span.start.line [] (by simp) (List.nil_subset _))
    · next value _ =>
      obtain ⟨ys, hys, hmentions⟩ := map_storeLocal dcl.span.start.line xs.reverse
      refine runs_pure (gives_vars dcl.span.start.line (value :: ys) (by simp [hys]) (List.subset_append_of_subset_left _ ?_))
      rw [exprsMentions, hmentions, ← List.append_assoc]
      refine located_subset fun m hm => ?_
      simp only [List.map_reverse, List.mem_append, List.mem_reverse] at hm
      exact List.mem_append.mpr hm.symm

/-! ## Assignments -/

theorem scoped_chainOf (hv : v.Scopes) {m : Mode} {K : List Mention} (hm : m.mentions ⊆ K) {c : Tree.Chain} :
    Tells D L K (chainOf v m c) fun r => exprsMentions r.1.links := scoped_chain hv (scoped_lambda hv) hm

/-- The value of a write is one more child of the last access. -/
theorem mentions_store {c : Typed.Chain} {x : Expr} : exprsMentions (c.store x).links ⊆ exprsMentions c.links ++ x.mentions := by
  unfold Typed.Chain.store
  split
  · next w hlast =>
    split
    · have hlinks : c.links = c.links.dropLast ++ [Expr.call w] := (List.dropLast_append_getLast? _ hlast).symm
      obtain ⟨line, a, name, type, args, site, children⟩ := w
      rw [hlinks]
      simp [Typed.exprsMentions_append, exprsMentions, Expr.mentions, Typed.Call.mentions]
    · exact List.subset_append_left _ _
  · exact List.subset_append_left _ _

theorem scoped_setStmt (hv : v.Scopes) {target : Tree.Chain} {value : Tree.Expr} :
    RunsStmts d R L K (setStmt v target value) := by
  rw [setStmt]
  refine (scoped_chainOf hv (m := .write none) (List.nil_subset _)).runs.bind fun c => ?_
  refine (Tells.runs hv.expr).bind fun x => runs_checkAssignable_bind (runs_pure (gives_expr ?_))
  rw [mentions_chain]
  refine List.Subset.trans (located_subset mentions_store) fun m hm => ?_
  simp only [Typed.located_append, List.flatten_cons, List.mem_append] at hm ⊢
  tauto

theorem scoped_updateStmt (hv : v.Scopes) {span : Span} {op : BinaryOp} {target : Tree.Chain} {value : Tree.Expr} :
    RunsStmts d R L K (updateStmt v span op target value) := by
  unfold updateStmt
  split
  · exact runs_report_bind
  · refine (scoped_chainOf hv (m := .read) (List.nil_subset _)).runs.bind fun c => ?_
    refine (Tells.runs hv.expr).bind fun x => (Runs.still accepts_updateType fun _ => .refl _).then fun t => ?_
    obtain ⟨c, l⟩ := c
    obtain ⟨x, r⟩ := x
    -- the target is read for the sum and then written
    have hsum : (Mode.write (some (.binary span.start.line op t (.chain c) x))).mentions ⊆
        exprsMentions c.links ++ x.mentions := by
      simp [Mode.mentions, Mode.values, exprsMentions, Expr.mentions, mentions_chain]
    refine Runs.bind (Runs.of (scoped_chainOf hv hsum) ⟨rfl, .refl _, fun m hm => ?_⟩) fun w => runs_pure (gives_expr ?_)
    · simp only [Standing.also, Typed.located_append, List.mem_append] at hm ⊢
      tauto
    · rw [mentions_chain]
      exact List.subset_append_left _ _

/-- The targets of an assignment of several values become expressions. -/
theorem accepts_targets {xs : List Tree.Expr} {i : Nat} {items : Option (List Ty)} {pl : Place} {st st' : State}
    {r : Option (List Typed.Stmt)} (h : Accepts (targets v i xs items) pl st r st') :
    ∀ ws ∈ r, ∃ ys : List Expr, ws = ys.map .expr := by
  induction xs generalizing i st st' r with
  | nil =>
    obtain ⟨rfl, -⟩ := accepts_pure.mp h
    rintro _ ⟨⟩
    exact ⟨[], rfl⟩
  | cons x xs ih =>
    unfold targets at h
    split at h
    · obtain ⟨⟨c, t⟩, st₁, -, h₁⟩ := accepts_bind.mp h
      have hrest : ∀ {st}, Accepts (do return (← targets v (i + 1) xs items).map (.expr (.chain c) :: ·)) pl st r st' →
          ∀ ws ∈ r, ∃ ys : List Expr, ws = ys.map .expr := by
        intro st h
        obtain ⟨r', st₂, h₂, h₃⟩ := accepts_bind.mp h
        obtain ⟨rfl, -⟩ := accepts_pure.mp h₃
        cases r' with
        | none => simp
        | some ws =>
          rintro _ ⟨⟩
          obtain ⟨ys, rfl⟩ := ih h₂ ws rfl
          exact ⟨.chain c :: ys, rfl⟩
      dsimp only at h₁
      split at h₁
      · exact hrest (accepts_checkAssignable_bind.mp h₁).2
      · exact hrest h₁
    · exact absurd h accepts_report_bind

theorem scoped_targets (hv : v.Scopes) {xs : List Tree.Expr} {i : Nat} {items : Option (List Ty)} :
    Runs ⟨d :: R, L, K⟩ (targets v i xs items) fun r => ⟨d :: R, L, (r.map (stmtsLocated (d ++ R.flatten))).getD []⟩ := by
  induction xs generalizing i K with
  | nil => exact runs_pure ⟨rfl, .refl _, List.nil_subset _⟩
  | cons x xs ih =>
    unfold targets
    split
    · refine (scoped_chainOf hv (m := .write none) (List.nil_subset _)).runs.bind fun c => ?_
      obtain ⟨c, t⟩ := c
      have hrest : Runs ⟨d :: R, L, located (d ++ R.flatten) (exprsMentions c.links) ++ K⟩
          (do return (← targets v (i + 1) xs items).map (.expr (.chain c) :: ·))
          fun r => ⟨d :: R, L, (r.map (stmtsLocated (d ++ R.flatten))).getD []⟩ := by
        refine ih.bind fun r => runs_pure ⟨rfl, .refl _, ?_⟩
        cases r with
        | none => exact List.nil_subset _
        | some ws =>
          intro m hm
          simp only [Option.map_some, Option.getD_some, stmtsLocated, Typed.Stmt.located, Typed.Stmt.declared,
            List.nil_append, mentions_chain, Standing.also, List.mem_append] at hm ⊢
          tauto
      dsimp only
      split
      · exact runs_checkAssignable_bind hrest
      · exact hrest
    · exact runs_report_bind

theorem scoped_multiStmt (hv : v.Scopes) {span : Span} {xs : List Tree.Expr} {op : AssignOp} {value : Tree.Expr} :
    RunsStmts d R L K (multiStmt v span xs op value) := by
  unfold multiStmt
  split
  · exact runs_report_bind
  · refine (Tells.runs hv.expr).bind fun x => (Runs.still accepts_valueTypes fun _ => .refl _).then fun items => ?_
    refine (scoped_targets hv).bind_of_accepts fun ws hws => ?_
    obtain ⟨x, t⟩ := x
    cases ws with
    | none => exact runs_pure gives_nil
    | some ws =>
      -- the writes follow in reverse order
      obtain ⟨_, _, _, hws⟩ := hws
      obtain ⟨ys, rfl⟩ := accepts_targets hws ws rfl
      have hss : .expr x :: (ys.map Typed.Stmt.expr).reverse = (x :: ys.reverse).map .expr := by simp
      dsimp only
      rw [hss, Option.map_some, Option.getD_some, stmtsLocated_exprs]
      refine runs_pure (gives_exprs ?_)
      have hreverse : exprsMentions ys.reverse ⊆ exprsMentions ys := fun m hm => by
        simpa [Typed.mem_exprsMentions] using hm
      rw [exprsMentions, Typed.located_append]
      refine List.append_subset.mpr ⟨?_, List.subset_append_of_subset_left _ (located_subset hreverse)⟩
      exact List.subset_append_of_subset_right _ (List.subset_append_left _ _)

theorem scoped_assignStmt (hv : v.Scopes) {span : Span} {xs : List Tree.Expr} {op : AssignOp} {value : Tree.Expr} :
    RunsStmts d R L K (assignStmt v span xs op value) := by
  unfold assignStmt
  split
  · split
    · exact scoped_setStmt hv
    · exact scoped_updateStmt hv
  · exact runs_report_bind
  · exact scoped_multiStmt hv

/-! ## All statements -/

theorem scoped_block {m : Analysis Typed.Block} (hm : RunsBlock (d :: R) L K m) :
    RunsStmts d R L K (do return [.block (← m)]) :=
  hm.bind fun _ => runs_pure (gives_block rfl (List.subset_append_left _ _))

/-- A call as a statement. -/
theorem scoped_callStmt (hv : v.Scopes) {c : Tree.Chain} (f : Typed.Chain → Typed.Chain) (hf : ∀ c, (f c).links = c.links) :
    RunsStmts d R L K (do
      let (c, t) ← chainOf v .read c
      return [discard (f c) t]) := by
  refine (scoped_chainOf hv (m := .read) (List.nil_subset _)).runs.bind fun r => ?_
  obtain ⟨c, t⟩ := r
  have hc : (Expr.chain (f c)).mentions = exprsMentions c.links := by rw [mentions_chain, hf]
  dsimp only [discard]
  split
  · exact runs_pure (gives_expr (hc ▸ List.subset_append_left _ _))
  · exact runs_pure (gives_plain rfl rfl (by rw [Typed.Stmt.located, hc]; exact List.subset_append_left _ _))

/-- A statement, given that the phrases inside it are consistent. -/
theorem scoped_stmtStep (hv : v.Scopes) {x : Tree.Stmt} : RunsStmts d R L K (stmtStep v x) := by
  unfold stmtStep
  cases x with
  | block b => exact scoped_block (scoped_group hv)
  | var dcl => exact scoped_varStmt hv
  | expr span x =>
    dsimp only
    split
    · exact runs_report_bind
    · exact scoped_callStmt hv id fun _ => rfl
  | assign span xs op value => exact scoped_assignStmt hv
  | ret span values => exact (scoped_returnStmt hv).bind fun s => runs_pure (Standing.also_gives _ _)
  | brk span => exact runs_checkJump.then fun _ => runs_pure (gives_plain rfl rfl (List.nil_subset _))
  | cont span => exact runs_checkJump.then fun _ => runs_pure (gives_plain rfl rfl (List.nil_subset _))
  | cond i => exact scoped_block (scoped_conditions hv)
  | whileLoop span x b =>
    refine (scoped_condition hv).runs.bind fun test => (scoped_loopBody hv).bind fun inner => ?_
    refine runs_pure (gives_block rfl (List.append_subset.mpr ⟨?_, List.subset_append_left _ _⟩))
    exact List.subset_append_of_subset_right _ (List.subset_append_left _ _)
  | doLoop span b x =>
    refine (scoped_loopBody hv).bind fun inner => (scoped_condition hv).runs.bind fun test => ?_
    refine runs_pure (gives_block rfl (List.append_subset.mpr ⟨?_, List.subset_append_left _ _⟩))
    exact List.subset_append_of_subset_right _ (List.subset_append_left _ _)
  | forLoop span init cond post b => exact scoped_forLoop hv
  | yield span => exact scoped_yielding (runs_pure (gives_plain rfl rfl (List.nil_subset _)))
  | yieldWhile span x =>
    refine scoped_yielding ((scoped_condition hv).runs.bind fun test => runs_pure (gives_block rfl ?_))
    exact List.append_subset.mpr ⟨List.subset_append_left _ _, List.nil_subset _⟩
  | yieldCall span x =>
    refine scoped_yielding ?_
    split
    · exact runs_report_bind
    · exact scoped_callStmt hv (fun c => { c with yielded := true }) fun _ => rfl
  | words span word b => exact scoped_block (scoped_wordBlock hv)

theorem scopes_visit (height : Nat) : (visit height).Scopes := by
  induction height with
  | zero => exact ⟨tells_pure (List.nil_subset _), runs_pure gives_nil⟩
  | succ n ih => exact ⟨scoped_exprStep ih, scoped_stmtStep ih⟩

end Statements

end Weft.Analysis
