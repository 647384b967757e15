import Weft.Proofs.Analysis.AnswersExpr
import Weft.Proofs.Analysis.TrustedStmt

/-!
# Statements that answer

Each return that is accepted gives as many values as the function around it returns, and a statement that returns on
every path as it is written does so as it is typed. So it is for everything that a visit accepts of phrases that are
not higher than the visit.
-/

namespace Weft.Analysis

open Typed (Expr exprsLambdas stmtsLambdas stmtsResults armsLambdas armsResults)

/-! ## Lists of statements -/

section Trees

variable {t : Ty} {w : Bool}

theorem AnsweringStmts.single {x : Typed.Stmt} (hl : Answering x.lambdas) (hr : ∀ n ∈ x.results, n = t.valueCount)
    (hw : w = true → x.returns = true) : AnsweringStmts t w [x] := by
  refine ⟨answering_append.mpr ⟨hl, answering_nil⟩, ?_, ?_⟩
  · simpa [stmtsResults] using hr
  · simpa [Typed.someReturns] using hw

theorem AnsweringStmts.plain {x : Typed.Stmt} (hl : Answering x.lambdas) (hr : x.results = []) : AnsweringStmts t false [x] :=
  .single hl (by simp [hr]) (by simp)

theorem AnsweringStmts.expr {x : Expr} (h : Answering x.lambdas) : AnsweringStmts t false [.expr x] := .plain h rfl

theorem answeringStmts_iff {xs : List Typed.Stmt} : AnsweringStmts t false xs ↔ ∀ x ∈ xs, AnsweringStmts t false [x] := by
  induction xs with
  | nil => simp [AnsweringStmts.nil]
  | cons x xs ih =>
    rw [List.forall_mem_cons, ← ih]
    refine ⟨fun h => ?_, fun h => h.1.append h.2⟩
    obtain ⟨hx, hxs⟩ := answering_append.mp h.lambdas
    have hresults := List.forall_mem_append.mp h.results
    exact ⟨.single hx hresults.1 (by simp), hxs, hresults.2, by simp⟩

/-- What answers in a block. -/
theorem answeringStmts_block {b : Typed.Block} : AnsweringStmts t w [.block b] ↔
    Answering b.lambdas ∧ (∀ n ∈ b.results, n = t.valueCount) ∧ (w = true → b.returns = true) := by
  constructor
  · intro h
    refine ⟨(answering_append.mp h.lambdas).1, (List.forall_mem_append.mp h.results).1, fun hw => ?_⟩
    simpa [Typed.someReturns, Typed.Stmt.returns] using h.returns hw
  · exact fun h => .single h.1 h.2.1 h.2.2

theorem answering_discard {c : Typed.Chain} {type : Option Ty} (h : Answering (exprsLambdas c.links)) :
    AnsweringStmts t false [discard c type] := by
  unfold discard
  split <;> exact .plain (answering_chain h) rfl

/-- The value of a write is one more child of the last access. -/
theorem answering_store {c : Typed.Chain} {x : Expr} (h : Answering (exprsLambdas c.links)) (hx : Answering x.lambdas) :
    Answering (exprsLambdas (c.store x).links) := by
  have hall := answering_exprs.mp h
  unfold Typed.Chain.store
  split
  · next w hlast =>
    split
    · refine answering_exprs.mpr fun y hy => ?_
      rcases List.mem_append.mp hy with hy | hy
      · exact hall y (List.dropLast_subset _ hy)
      · obtain rfl := List.mem_singleton.mp hy
        have hw := hall _ (List.mem_of_getLast? hlast)
        obtain ⟨line, a, name, type, args, site, children⟩ := w
        rw [Expr.lambdas, Typed.Call.lambdas] at hw ⊢
        split
        · exact answering_nil
        · next hleaf =>
          rw [if_neg hleaf] at hw
          rw [exprsLambdas_append]
          exact answering_append.mpr ⟨hw, answering_append.mpr ⟨hx, answering_nil⟩⟩
    · exact h
  · exact h

/-- The branches of a condition, one for each written one. -/
theorem answering_arms {written : List (Tree.Expr × Tree.Block)} {arms : List Typed.Arm}
    (h : List.Forall₂ (fun a r => Answering r.test.lambdas ∧ AnsweringStmts t (Tree.someReturns a.2.stmts) [.block r.body])
      written arms) :
    Answering (armsLambdas arms) ∧ (∀ n ∈ armsResults arms, n = t.valueCount) ∧
      ((written.all fun a => Tree.someReturns a.2.stmts) = true → Typed.allReturn arms = true) := by
  induction h with
  | nil => exact ⟨answering_nil, by simp [armsResults], fun _ => rfl⟩
  | @cons a r written arms hr _ ih =>
    obtain ⟨test, body⟩ := r
    obtain ⟨hl, hresults, hreturns⟩ := answeringStmts_block.mp hr.2
    refine ⟨answering_append.mpr ⟨answering_append.mpr ⟨hr.1, hl⟩, ih.1⟩, ?_, ?_⟩
    · exact List.forall_mem_append.mpr ⟨hresults, ih.2.1⟩
    · rw [List.all_cons, Bool.and_eq_true, Typed.allReturn, Bool.and_eq_true]
      exact And.imp hreturns ih.2.2

end Trees

/-! ## Conditions as they are written -/

mutual

theorem returns_if : (i : Tree.If) →
    i.returns = ((i.arms.all fun a => Tree.someReturns a.2.stmts) && (i.last?.any fun b => Tree.someReturns b.stmts))
  | ⟨_, _, ⟨_, ss⟩, other⟩ => by
    rw [Tree.If.returns, Tree.If.arms, Tree.If.last?, returns_else other, List.all_cons, Bool.and_assoc]

theorem returns_else : (e : Tree.Else) →
    e.returns = ((e.arms.all fun a => Tree.someReturns a.2.stmts) && (e.last?.any fun b => Tree.someReturns b.stmts))
  | .nothing => rfl
  | .block ⟨_, ss⟩ => rfl
  | .elseIf i => by rw [Tree.Else.returns, Tree.Else.arms, Tree.Else.last?, returns_if i]

end

mutual

/-- No part of a condition is higher than the whole. -/
theorem height_of_if : (i : Tree.If) → (∀ a ∈ i.arms, a.1.height ≤ i.height ∧ a.2.height ≤ i.height) ∧
    ∀ b ∈ i.last?, b.height ≤ i.height
  | ⟨_, cond, body, other⟩ => by
    obtain ⟨harms, hlast⟩ := height_of_else other
    rw [Tree.If.height, Tree.If.arms, Tree.If.last?, List.forall_mem_cons]
    dsimp only
    refine ⟨⟨⟨by omega, by omega⟩, fun a ha => ?_⟩, fun b hb => ?_⟩
    · have := harms a ha
      omega
    · have := hlast b hb
      omega

theorem height_of_else : (e : Tree.Else) → (∀ a ∈ e.arms, a.1.height ≤ e.height ∧ a.2.height ≤ e.height) ∧
    ∀ b ∈ e.last?, b.height ≤ e.height
  | .nothing => by simp [Tree.Else.arms, Tree.Else.last?]
  | .block b => by simp [Tree.Else.arms, Tree.Else.last?, Tree.Else.height]
  | .elseIf i => by
    rw [Tree.Else.height, Tree.Else.arms, Tree.Else.last?]
    exact height_of_if i

end

section Statements

variable {v : Visit} {height : Nat} {sigs : List Signature}

/-! ## Blocks, conditions and jumps -/

theorem answers_group (hv : v.Answers height) {kind : Typed.Grouping} {b : Tree.Block} (h : b.height ≤ height) :
    Ensures sigs (fun r => AnsweringStmts (returnsIn sigs) (decide (kind = .seq) && Tree.someReturns b.stmts) [.block r])
      (group v kind b) := by
  obtain ⟨span, ss⟩ := b
  rw [group]
  refine (answers_stmts hv h).inBlock.bind fun r hr => ensures_pure (answeringStmts_block.mpr ⟨hr.lambdas, hr.results, ?_⟩)
  rw [Bool.and_eq_true, decide_eq_true_eq]
  rintro ⟨rfl, hw⟩
  exact hr.returns hw

theorem answers_seq (hv : v.Answers height) {b : Tree.Block} (h : b.height ≤ height) :
    Ensures sigs (fun r => AnsweringStmts (returnsIn sigs) (Tree.someReturns b.stmts) [.block r]) (group v .seq b) :=
  answers_group hv h

theorem answers_loopBody (hv : v.Answers height) {b : Tree.Block} (h : b.height ≤ height) :
    Ensures sigs (fun r => AnsweringStmts (returnsIn sigs) (Tree.someReturns b.stmts) [.block r]) (loopBody v b) :=
  (answers_seq hv h).inside

theorem answers_condition (hv : v.Answers height) {x : Tree.Expr} (h : x.height ≤ height) :
    Ensures sigs (fun r => Answering r.lambdas) (condition v x) := by
  rw [condition]
  refine (hv.expr h).bind fun y hy => ?_
  obtain ⟨y, t⟩ := y
  cases t with
  | none => exact ensures_pure hy
  | some t =>
    dsimp only
    split
    · exact ensures_typeName_bind fun _ => ensures_report_bind
    · exact ensures_pure hy

theorem answers_conditions (hv : v.Answers height) {i : Tree.If} (h : i.height ≤ height) :
    Ensures sigs (fun r => AnsweringStmts (returnsIn sigs) i.returns [.block r]) (conditions v i) := by
  obtain ⟨harms, hlast⟩ := height_of_if i
  rw [conditions, returns_if]
  refine Ensures.bind (P := fun arms => List.Forall₂ (fun a r => Answering r.test.lambdas ∧
    AnsweringStmts (returnsIn sigs) (Tree.someReturns a.2.stmts) [.block r.body]) i.arms arms) ?_ fun arms hall => ?_
  · refine ensures_mapM fun a ha => ?_
    refine (answers_condition hv ((harms a ha).1.trans h)).bind fun test htest => ?_
    exact (answers_seq hv ((harms a ha).2.trans h)).bind fun body hbody => ensures_pure ⟨htest, hbody⟩
  obtain ⟨hl, hresults, hreturns⟩ := answering_arms hall
  cases hi : i.last? with
  | none =>
    simp only [Option.mapM_none, pure_bind, Option.any_none, Bool.and_false]
    exact ensures_pure (answeringStmts_block.mpr ⟨hl, hresults, by simp⟩)
  | some b =>
    simp only [Option.mapM_some, bind_map_left, Option.any_some]
    refine (answers_seq hv ((hlast b hi).trans h)).bind fun other hother => ensures_pure (answeringStmts_block.mpr ?_)
    obtain ⟨hl', hresults', hreturns'⟩ := answeringStmts_block.mp hother
    refine ⟨answering_append.mpr ⟨hl, hl'⟩, List.forall_mem_append.mpr ⟨hresults, hresults'⟩, ?_⟩
    rw [Bool.and_eq_true, Typed.Block.returns, Bool.and_eq_true]
    exact And.imp hreturns hreturns'

theorem answers_loopStmt (hv : v.Answers height) {s : Option Tree.Stmt} (h : Tree.stmtHeight? s ≤ height) :
    Ensures sigs (AnsweringStmts (returnsIn sigs) false) (loopStmt v s) := by
  cases s with
  | none => exact ensures_pure .nil
  | some s => exact (hv.stmt h).imp fun r hr => ⟨hr.lambdas, hr.results, by simp⟩

theorem answers_loopTest (hv : v.Answers height) {line : Nat} {x : Option Tree.Expr} (h : Tree.exprHeight? x ≤ height) :
    Ensures sigs (fun r => Answering r.lambdas) (loopTest v line x) := by
  cases x with
  | none => exact ensures_pure answering_nil
  | some x => exact answers_condition hv h

theorem answers_forLoop (hv : v.Answers height) {span : Span} {init post : Option Tree.Stmt} {cond : Option Tree.Expr}
    {b : Tree.Block} (hi : Tree.stmtHeight? init ≤ height) (hc : Tree.exprHeight? cond ≤ height)
    (hp : Tree.stmtHeight? post ≤ height) (hb : b.height ≤ height) :
    Ensures sigs (fun r => AnsweringStmts (returnsIn sigs) false [r]) (forLoop v span init cond post b) := by
  rw [forLoop]
  refine Ensures.inBlock ?_
  refine (answers_loopStmt hv hi).bind fun first hfirst => (answers_loopTest hv hc).bind fun test htest => ?_
  refine (answers_loopBody hv hb).bind fun inner hinner => (answers_loopStmt hv hp).bind fun after hafter => ?_
  obtain ⟨hl, hresults, -⟩ := answeringStmts_block.mp hinner
  -- the loop with the last statement after its body
  have hloop : AnsweringStmts (returnsIn sigs) false
      [.block (.whileLoop span.start.line test inner (some (.group span.start.line .seq after)))] := by
    refine answeringStmts_block.mpr ⟨?_, List.forall_mem_append.mpr ⟨hresults, hafter.results⟩, by simp⟩
    exact answering_append.mpr ⟨answering_append.mpr ⟨htest, hl⟩, hafter.lambdas⟩
  have hall := hfirst.append hloop
  exact ensures_pure (answeringStmts_block.mpr ⟨hall.lambdas, hall.results, by simp⟩)

theorem answers_wordBlock (hv : v.Answers height) {word : Tree.BlockWord} {b : Tree.Block} (h : b.height ≤ height) :
    Ensures sigs (fun r => AnsweringStmts (returnsIn sigs) (decide (word = .seq) && Tree.someReturns b.stmts) [.block r])
      (wordBlock v word b) := by
  cases word with
  | defer => exact (answers_group hv h).inside
  | seq => exact answers_group hv h
  | paral => exact answers_group hv h
  | paralAll => exact answers_group hv h

/-! ## Returns and yields -/

theorem answers_yielding {span : Span} {m : Analysis (List Typed.Stmt)} {w : Bool}
    (hm : Ensures sigs (AnsweringStmts (returnsIn sigs) w) m) :
    Ensures sigs (AnsweringStmts (returnsIn sigs) w) (yielding span m) := by
  rw [yielding]
  refine ensures_body_bind fun _ _ => ensures_guard fun _ => Ensures.then ?_ fun _ => hm
  exact ensures_updateBody (by intro b; rfl) trivial

/-- A return gives as many values as the body around it returns. -/
theorem answers_returnStmt (hv : v.Answers height) {span : Span} {values : List Tree.Expr}
    (h : Tree.exprsHeight values ≤ height) :
    Ensures sigs (fun r => AnsweringStmts (returnsIn sigs) true [r]) (returnStmt v span values) := by
  have hvalues := height_of_exprs h
  -- one return with some values
  have hret : ∀ {line n : Nat} {ys : List Expr}, Answering (exprsLambdas ys) → n = (returnsIn sigs).valueCount →
      AnsweringStmts (returnsIn sigs) true [.ret line n ys] := by
    intro line n ys hys hn
    exact .single hys (by simpa [Typed.Stmt.results] using hn) fun _ => rfl
  rw [returnStmt]
  refine ensures_body_bind fun b hb => ensures_guard fun _ => ?_
  dsimp only
  rw [hb]
  split
  · refine ensures_guard fun hvoid => ensures_pure (hret answering_nil ?_)
    obtain hvoid : returnsIn sigs = .void := Ty.is_iff.mp (by simpa using hvoid)
    rw [hvoid]
    rfl
  · next x =>
    refine ensures_guard fun _ => (hv.expr (hvalues x (by simp))).bind fun y hy => ?_
    exact ensures_checkAssignable_bind (ensures_pure (hret (answering_append.mpr ⟨hy, answering_nil⟩) rfl))
  · next xs hnil _ =>
    refine ensures_guard fun _ => ensures_guard fun hlen => ?_
    refine (ensures_each (Q := fun y => Answering y.lambdas) fun p hp => ?_).bind fun ys hys => ensures_pure ?_
    · refine (hv.expr (hvalues p.1 (List.of_mem_zip hp).1)).bind fun y hy => ?_
      exact ensures_checkAssignable_bind (ensures_pure hy)
    · refine hret (answering_exprs.mpr hys) ?_
      have hsome : values.length ≠ 0 := by simpa using hnil
      rw [ne_eq, not_not] at hlen
      generalize returnsIn sigs = t at hlen ⊢
      cases t with
      | tuple items => exact hlen.symm
      | _ => exact absurd hlen.symm hsome

/-! ## Variables -/

theorem ensures_declareLocal {span : Span} {name : String} {t : Option Ty} :
    Ensures sigs (fun _ => True) (declareLocal span name t) := by
  rw [declareLocal]
  exact ensures_body_bind fun _ _ => ensures_guard fun _ => ensures_declare

theorem ensures_declareVars {d : Tree.VarDecl} {vars : List ((String × Option Tree.TypeExpr) × Option Ty)} {i : Nat}
    {items : Option (List Ty)} : Ensures sigs (fun _ => True) (declareVars d i vars items) := by
  induction vars generalizing i with
  | nil => exact ensures_pure trivial
  | cons x vars ih =>
    obtain ⟨⟨name, written⟩, t⟩ := x
    rw [declareVars]
    refine Ensures.then (.still fun h => ⟨accepts_variableType h, trivial⟩) fun t => ?_
    exact ensures_declareLocal.then fun x => ih.then fun xs => ensures_pure trivial

/-- The first value of a variable, if it has one. -/
theorem answers_initial (hv : v.Answers height) {x : Option Tree.Expr} {expect : Option Ty} (h : Tree.exprHeight? x ≤ height) :
    Ensures sigs (fun r => ∀ y ∈ r, Answering y.1.lambdas) (x.mapM (v.expr · expect)) := by
  cases x with
  | none => exact ensures_pure (by simp)
  | some x =>
    rw [Option.mapM_some, ← bind_pure_comp]
    exact (hv.expr h).bind fun y hy => ensures_pure (by simpa using hy)

theorem answering_storeLocal {t : Ty} {line : Nat} {x : LocalVar} : AnsweringStmts t false [storeLocal line x] :=
  .expr (answering_chain (answering_append.mpr ⟨answering_access answering_nil, answering_nil⟩))

theorem answers_varStmt (hv : v.Answers height) {d : Tree.VarDecl} (h : d.height ≤ height) :
    Ensures sigs (AnsweringStmts (returnsIn sigs) false) (varStmt v d) := by
  have hinit : Tree.exprHeight? d.init ≤ height := by
    obtain ⟨span, fileLocal, vars, init⟩ := d
    cases init <;> exact h
  rw [varStmt]
  refine Ensures.bind (ensures_each (Q := fun _ => True) fun x _ => ?_) fun types _ => ?_
  · exact .still fun h => ⟨accepts_writtenType h, trivial⟩
  refine (answers_initial hv hinit).bind fun init hall => ?_
  dsimp only
  split
  · refine Ensures.then (.still fun h => ⟨accepts_singleType h, trivial⟩) fun t => ?_
    refine ensures_declareLocal.then fun x => ensures_pure (.plain ?_ rfl)
    cases init with
    | none => exact answering_nil
    | some y => exact hall y rfl
  · refine Ensures.then (.still fun h => ⟨accepts_itemTypes h, trivial⟩) fun items => ?_
    refine ensures_declareVars.then fun xs => ?_
    -- the declarations, and the stores of the values that one expression leaves
    have hdecls : AnsweringStmts (returnsIn sigs) false
        (xs.map fun x => Typed.Stmt.var { line := d.span.start.line, var := x, init := none }) := by
      refine answeringStmts_iff.mpr fun y hy => ?_
      obtain ⟨x, -, rfl⟩ := List.mem_map.mp hy
      exact .plain answering_nil rfl
    have hstores : AnsweringStmts (returnsIn sigs) false (xs.reverse.map (storeLocal d.span.start.line)) := by
      refine answeringStmts_iff.mpr fun y hy => ?_
      obtain ⟨x, -, rfl⟩ := List.mem_map.mp hy
      exact answering_storeLocal
    split
    · exact ensures_pure hdecls
    · next value _ => exact ensures_pure ((hdecls.append (.expr (hall _ rfl))).append hstores)

/-! ## Assignments -/

theorem answers_chainOf (hv : v.Answers height) {m : Mode} (hm : m.Answers) {c : Tree.Chain} (h : c.height ≤ height) :
    Ensures sigs (fun r => Answering (exprsLambdas r.1.links)) (chainOf v m c) :=
  answers_chain hv (fun _ => answers_lambda hv) hm h

theorem answers_setStmt (hv : v.Answers height) {target : Tree.Chain} {value : Tree.Expr} (ht : target.height ≤ height)
    (hx : value.height ≤ height) : Ensures sigs (AnsweringStmts (returnsIn sigs) false) (setStmt v target value) := by
  rw [setStmt]
  refine (answers_chainOf hv (m := .write none) answering_nil ht).bind fun c hc => ?_
  refine (hv.expr hx).bind fun x hx => ensures_checkAssignable_bind (ensures_pure (.expr ?_))
  exact answering_chain (answering_store hc hx)

theorem answers_updateStmt (hv : v.Answers height) {span : Span} {op : BinaryOp} {target : Tree.Chain} {value : Tree.Expr}
    (ht : target.height ≤ height) (hx : value.height ≤ height) :
    Ensures sigs (AnsweringStmts (returnsIn sigs) false) (updateStmt v span op target value) := by
  unfold updateStmt
  split
  · exact ensures_report_bind
  · refine (answers_chainOf hv (m := .read) answering_nil ht).bind fun ⟨c, l⟩ hc => ?_
    refine (hv.expr hx).bind fun ⟨x, r⟩ hx => Ensures.then (.still fun h => ⟨accepts_updateType h, trivial⟩) fun t => ?_
    have hsum : (Mode.write (some (.binary span.start.line op t (.chain c) x))).Answers :=
      answering_append.mpr ⟨answering_append.mpr ⟨answering_chain hc, hx⟩, answering_nil⟩
    exact (answers_chainOf hv hsum ht).bind fun ⟨w, _⟩ hw => ensures_pure (.expr (answering_chain hw))

theorem answers_targets (hv : v.Answers height) {xs : List Tree.Expr} {i : Nat} {items : Option (List Ty)}
    (h : ∀ x ∈ xs, x.height ≤ height) :
    Ensures sigs (fun r => ∀ ws ∈ r, AnsweringStmts (returnsIn sigs) false ws) (targets v i xs items) := by
  induction xs generalizing i with
  | nil => exact ensures_pure (by simp [AnsweringStmts.nil])
  | cons x xs ih =>
    obtain ⟨hx, hxs⟩ := List.forall_mem_cons.mp h
    unfold targets
    split
    · rw [Tree.Expr.height] at hx
      refine (answers_chainOf hv (m := .write none) answering_nil (Nat.le_of_succ_le hx)).bind fun c hc => ?_
      obtain ⟨c, t⟩ := c
      have hrest : Ensures sigs (fun r => ∀ ws ∈ r, AnsweringStmts (returnsIn sigs) false ws)
          (do return (← targets v (i + 1) xs items).map (.expr (.chain c) :: ·)) := by
        refine (ih hxs).bind fun r hr => ensures_pure ?_
        cases r with
        | none => simp
        | some ws =>
          rintro _ ⟨⟩
          exact (AnsweringStmts.expr (answering_chain hc)).append (hr ws rfl)
      dsimp only
      split
      · exact ensures_checkAssignable_bind hrest
      · exact hrest
    · exact ensures_report_bind

theorem answers_multiStmt (hv : v.Answers height) {span : Span} {xs : List Tree.Expr} {op : AssignOp} {value : Tree.Expr}
    (h : ∀ x ∈ xs, x.height ≤ height) (hx : value.height ≤ height) :
    Ensures sigs (AnsweringStmts (returnsIn sigs) false) (multiStmt v span xs op value) := by
  unfold multiStmt
  split
  · exact ensures_report_bind
  · refine (hv.expr hx).bind fun ⟨x, t⟩ hx => Ensures.then (.still fun h => ⟨accepts_valueTypes h, trivial⟩) fun items => ?_
    refine (answers_targets hv h).bind fun ws hws => ?_
    cases ws with
    | none => exact ensures_pure .nil
    | some ws =>
      have hwrites := answeringStmts_iff.mp (hws ws rfl)
      refine ensures_pure ((AnsweringStmts.expr hx).append (answeringStmts_iff.mpr fun w hw => ?_))
      exact hwrites w (List.mem_reverse.mp hw)

theorem answers_assignStmt (hv : v.Answers height) {span : Span} {xs : List Tree.Expr} {op : AssignOp} {value : Tree.Expr}
    (h : Tree.exprsHeight xs ≤ height) (hx : value.height ≤ height) :
    Ensures sigs (AnsweringStmts (returnsIn sigs) false) (assignStmt v span xs op value) := by
  have hxs := height_of_exprs h
  unfold assignStmt
  split
  · next target =>
    have ht : target.height ≤ height := by
      have := hxs (.chain target) (by simp)
      rw [Tree.Expr.height] at this
      omega
    split
    · exact answers_setStmt hv ht hx
    · exact answers_updateStmt hv ht hx
  · exact ensures_report_bind
  · exact answers_multiStmt hv hxs hx

/-! ## All statements -/

theorem answers_block {m : Analysis Typed.Block} {w : Bool}
    (hm : Ensures sigs (fun r => AnsweringStmts (returnsIn sigs) w [.block r]) m) :
    Ensures sigs (AnsweringStmts (returnsIn sigs) w) (do return [.block (← m)]) :=
  hm.bind fun _ hr => ensures_pure hr

/-- A call as a statement. -/
theorem answers_callStmt (hv : v.Answers height) {x : Tree.Expr} {c : Tree.Chain} (hc : callChain? x = some c)
    (h : x.height ≤ height) (f : Typed.Chain → Typed.Chain) (hf : ∀ c, (f c).links = c.links) :
    Ensures sigs (AnsweringStmts (returnsIn sigs) false) (do
      let (c, t) ← chainOf v .read c
      return [discard (f c) t]) := by
  have hc : c.height ≤ height := by
    unfold callChain? at hc
    split at hc
    · split at hc
      · cases hc
        rw [Tree.Expr.height] at h
        omega
      · cases hc
    · cases hc
  refine (answers_chainOf hv (m := .read) answering_nil hc).bind fun c hlinks => ensures_pure (answering_discard ?_)
  rw [hf]
  exact hlinks

theorem ensures_checkJump {span : Span} {word : String} : Ensures sigs (fun _ => True) (checkJump span word) :=
  .still fun h => ⟨(accepts_checkJump h).1, trivial⟩

/-- A statement whose parts are low enough for a visit. -/
theorem answers_stmtStep (hv : v.Answers height) {x : Tree.Stmt} (h : x.height ≤ height + 1) :
    Ensures sigs (AnsweringStmts (returnsIn sigs) x.returns) (stmtStep v x) := by
  unfold stmtStep
  cases x with
  | block b =>
    rw [Tree.Stmt.height, Nat.add_le_add_iff_right] at h
    obtain ⟨span, ss⟩ := b
    exact answers_block (answers_seq hv h)
  | var d =>
    rw [Tree.Stmt.height, Nat.add_le_add_iff_right] at h
    exact answers_varStmt hv h
  | expr span x =>
    rw [Tree.Stmt.height, Nat.add_le_add_iff_right] at h
    dsimp only
    split
    · exact ensures_report_bind
    · next hc => exact answers_callStmt hv hc h id fun _ => rfl
  | assign span xs op value =>
    rw [Tree.Stmt.height, Nat.add_le_add_iff_right, Nat.max_le] at h
    exact answers_assignStmt hv h.1 h.2
  | ret span values =>
    rw [Tree.Stmt.height, Nat.add_le_add_iff_right] at h
    exact (answers_returnStmt hv h).bind fun _ hr => ensures_pure hr
  | brk span => exact ensures_checkJump.then fun _ => ensures_pure (.plain answering_nil rfl)
  | cont span => exact ensures_checkJump.then fun _ => ensures_pure (.plain answering_nil rfl)
  | cond i =>
    rw [Tree.Stmt.height, Nat.add_le_add_iff_right] at h
    exact answers_block (answers_conditions hv h)
  | whileLoop span x b =>
    rw [Tree.Stmt.height, Nat.add_le_add_iff_right, Nat.max_le] at h
    refine (answers_condition hv h.1).bind fun test htest => (answers_loopBody hv h.2).bind fun inner hinner => ?_
    obtain ⟨hl, hresults, -⟩ := answeringStmts_block.mp hinner
    exact ensures_pure (answeringStmts_block.mpr ⟨answering_append.mpr ⟨htest, hl⟩, hresults, nofun⟩)
  | doLoop span b x =>
    rw [Tree.Stmt.height, Nat.add_le_add_iff_right, Nat.max_le] at h
    refine (answers_loopBody hv h.1).bind fun inner hinner => (answers_condition hv h.2).bind fun test htest => ?_
    obtain ⟨hl, hresults, -⟩ := answeringStmts_block.mp hinner
    exact ensures_pure (answeringStmts_block.mpr ⟨answering_append.mpr ⟨hl, htest⟩, hresults, nofun⟩)
  | forLoop span init cond post b =>
    rw [Tree.Stmt.height, Nat.add_le_add_iff_right, Nat.max_le, Nat.max_le, Nat.max_le] at h
    exact (answers_forLoop hv h.1.1 h.1.2 h.2.1 h.2.2).bind fun _ hr => ensures_pure hr
  | yield span => exact answers_yielding (ensures_pure (.plain answering_nil rfl))
  | yieldWhile span x =>
    rw [Tree.Stmt.height, Nat.add_le_add_iff_right] at h
    refine answers_yielding ((answers_condition hv h).bind fun test htest => ensures_pure ?_)
    exact answeringStmts_block.mpr ⟨answering_append.mpr ⟨htest, answering_nil⟩, nofun, nofun⟩
  | yieldCall span x =>
    rw [Tree.Stmt.height, Nat.add_le_add_iff_right] at h
    refine answers_yielding ?_
    split
    · exact ensures_report_bind
    · next hc => exact answers_callStmt hv hc h (fun c => { c with yielded := true }) fun _ => rfl
  | words span word b =>
    rw [Tree.Stmt.height, Nat.add_le_add_iff_right] at h
    obtain ⟨bspan, ss⟩ := b
    have hreturns : (Tree.Stmt.words span word ⟨bspan, ss⟩).returns = (decide (word = .seq) && Tree.someReturns ss) := by
      cases word <;> rfl
    rw [hreturns]
    exact answers_block (answers_wordBlock hv h)

/-- A visit answers for all phrases that are not higher than it. -/
theorem answers_visit (height : Nat) : (visit height).Answers height := by
  induction height with
  | zero =>
    refine ⟨fun _ => ensures_pure answering_nil, ?_⟩
    intro sigs x h
    cases x <;> simp [Tree.Stmt.height] at h
  | succ n ih => exact ⟨fun h => answers_exprStep ih h, fun h => answers_stmtStep ih h⟩

end Statements

end Weft.Analysis
