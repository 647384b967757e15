import Weft.Proofs.Analysis.AnswersChain
import Weft.Proofs.Analysis.TrustedExpr

/-!
# Expressions whose lambdas answer

A function that is accepted answers its signature: it is checked that it returns on every path, and each return gives
what the signature says. The lambdas of every expression that is accepted answer, if those of the phrases inside it do.
-/

namespace Weft.Analysis

open Typed (Expr exprsLambdas callsLambdas appendsLambdas paramsLambdas stmtsLambdas stmtsResults)

/-! ## Functions -/

section Trees

variable {t : Ty} {w w' : Bool} {xs ys : List Typed.Stmt}

theorem stmtsLambdas_append (xs ys : List Typed.Stmt) : stmtsLambdas (xs ++ ys) = stmtsLambdas xs ++ stmtsLambdas ys := by
  induction xs with
  | nil => rfl
  | cons x xs ih => rw [List.cons_append, stmtsLambdas, stmtsLambdas, ih, List.append_assoc]

theorem stmtsResults_append (xs ys : List Typed.Stmt) : stmtsResults (xs ++ ys) = stmtsResults xs ++ stmtsResults ys := by
  induction xs with
  | nil => rfl
  | cons x xs ih => rw [List.cons_append, stmtsResults, stmtsResults, ih, List.append_assoc]

theorem someReturns_append (xs ys : List Typed.Stmt) :
    Typed.someReturns (xs ++ ys) = (Typed.someReturns xs || Typed.someReturns ys) := by
  induction xs with
  | nil => rfl
  | cons x xs ih => rw [List.cons_append, Typed.someReturns, Typed.someReturns, ih, Bool.or_assoc]

theorem AnsweringStmts.nil : AnsweringStmts t false [] := ⟨answering_nil, by simp [stmtsResults], by simp⟩

theorem AnsweringStmts.append (hx : AnsweringStmts t w xs) (hy : AnsweringStmts t w' ys) :
    AnsweringStmts t (w || w') (xs ++ ys) := by
  refine ⟨?_, ?_, ?_⟩
  · rw [stmtsLambdas_append]
    exact answering_append.mpr ⟨hx.lambdas, hy.lambdas⟩
  · rw [stmtsResults_append]
    exact List.forall_mem_append.mpr ⟨hx.results, hy.results⟩
  · rw [someReturns_append, Bool.or_eq_true, Bool.or_eq_true]
    exact Or.imp hx.returns hy.returns

/-- A written list of statements is typed statement by statement. -/
theorem AnsweringStmts.flatten {ss : List Tree.Stmt} {lists : List (List Typed.Stmt)}
    (h : List.Forall₂ (fun s r => AnsweringStmts t s.returns r) ss lists) :
    AnsweringStmts t (Tree.someReturns ss) lists.flatten := by
  induction h with
  | nil => exact .nil
  | cons hx _ ih => exact hx.append ih

theorem AnsweringStmts.frame {slots line : Nat} {ps : List Typed.VarDecl} (hp : t.proper = true)
    (h : AnsweringStmts t w xs) (hw : t ≠ .void → w = true) : Typed.Frame.Answers t ⟨slots, ps, line, xs⟩ :=
  ⟨h.results, fun ht => ⟨Ty.valueCount_ne_zero hp ht, h.returns (hw ht)⟩⟩

theorem answering_params_cons {d : Typed.VarDecl} {ds : List Typed.VarDecl} :
    Answering (paramsLambdas (d :: ds)) ↔ (∀ x, d.init = some x → Answering x.lambdas) ∧ Answering (paramsLambdas ds) := by
  obtain ⟨line, x, init⟩ := d
  cases init <;> simp [paramsLambdas, answering_append, and_comm]

end Trees

section Frames

variable {v : Visit} {height : Nat} {sigs : List Signature}

theorem ensures_declareParams {ps : List Tree.Param} {ts : List (Bool × Ty)} :
    Ensures sigs (fun r => Answering (paramsLambdas r)) (declareParams ps ts) := by
  induction ps generalizing ts with
  | nil => exact ensures_pure answering_nil
  | cons p ps ih =>
    cases ts with
    | nil => exact ensures_pure answering_nil
    | cons t ts =>
      rw [declareParams]
      refine ensures_guard fun _ => ensures_declare.then fun x => ih.bind fun r hr => ensures_pure ?_
      exact answering_params_cons.mpr ⟨by simp, hr⟩

theorem answers_defaultValues (hv : v.Answers height) {ps : List Tree.Param} {ts : List (Bool × Ty)}
    {ds : List Typed.VarDecl} (hps : Tree.paramsHeight ps ≤ height) (hds : Answering (paramsLambdas ds)) :
    Ensures sigs (fun r => Answering (paramsLambdas r)) (defaultValues v ps ts ds) := by
  induction ps generalizing ts ds with
  | nil => exact ensures_pure hds
  | cons p ps ih =>
    rw [Tree.paramsHeight, Nat.max_le] at hps
    match ts, ds with
    | [], ds => exact ensures_pure hds
    | _ :: _, [] => exact ensures_pure hds
    | t :: ts, d :: ds =>
      obtain ⟨hd, hds⟩ := answering_params_cons.mp hds
      obtain ⟨span, ref, type, name, default⟩ := p
      rw [defaultValues]
      cases default with
      | none => exact (ih hps.2 hds).bind fun r hr => ensures_pure (answering_params_cons.mpr ⟨hd, hr⟩)
      | some x =>
        refine (hv.expr hps.1).bind fun y hy => ensures_checkAssignable_bind ?_
        refine (ih hps.2 hds).bind fun r hr => ensures_pure (answering_params_cons.mpr ⟨?_, hr⟩)
        rintro _ ⟨⟩
        exact hy

theorem height_of_stmts {ss : List Tree.Stmt} (h : Tree.stmtsHeight ss ≤ height) : ∀ s ∈ ss, s.height ≤ height := by
  induction ss with
  | nil => simp
  | cons s ss ih =>
    rw [Tree.stmtsHeight, Nat.max_le] at h
    exact List.forall_mem_cons.mpr ⟨h.1, ih h.2⟩

theorem answers_stmts (hv : v.Answers height) {ss : List Tree.Stmt} (h : Tree.stmtsHeight ss ≤ height) :
    Ensures sigs (AnsweringStmts (returnsIn sigs) (Tree.someReturns ss)) (stmts v ss) := by
  rw [stmts]
  exact (ensures_mapM fun s hs => hv.stmt (height_of_stmts h s hs)).bind fun lists hlists =>
    ensures_pure (.flatten hlists)

theorem answers_frame (hv : v.Answers height) {ps : List Tree.Param} {b : Tree.Block} (hps : Tree.paramsHeight ps ≤ height)
    (hb : b.height ≤ height) : Ensures sigs (fun r => Answering (paramsLambdas r.1) ∧
      AnsweringStmts (returnsIn sigs) (Tree.someReturns b.stmts) r.2) (frame v ps b) := by
  obtain ⟨span, ss⟩ := b
  rw [frame]
  refine ensures_body_bind fun _ _ => ensures_declareParams.bind fun ds hds => ?_
  refine (answers_defaultValues hv hps hds).bind fun ds hds => ?_
  exact (answers_stmts hv hb).bind fun ss hss => ensures_pure ⟨hds, hss⟩

theorem Ty.is_iff {t : Ty} {b : Builtin} : t.is b = true ↔ t = .builtin b := by
  cases t <;> simp [Ty.is]

/-- A body that passes the check returns on every path, unless it is void. -/
theorem ensures_checkBody {span : Span} {name : String} {b : Body} {block : Tree.Block} :
    Ensures sigs (fun _ => b.sig.returns ≠ .void → Tree.someReturns block.stmts = true) (checkBody span name b block) := by
  refine .still fun h => ?_
  simp only [checkBody, accepts_guard, accepts_guard_last, accepts_pure] at h
  obtain ⟨-, hreturns, -, -, rfl⟩ := h
  refine ⟨rfl, fun hvoid => ?_⟩
  have hvoid : b.sig.returns.is .void = false := by rwa [Bool.eq_false_iff, ne_eq, Ty.is_iff]
  simpa [hvoid] using hreturns

/-- A lambda that is accepted answers its signature. -/
theorem answers_lambda (hv : v.Answers height) {fn : Tree.Lambda} (h : fn.height ≤ height) : EnsuresExpr sigs (lambda v fn) := by
  obtain ⟨span, coro, returns, params, body⟩ := fn
  rw [Tree.Lambda.height, Nat.max_le] at h
  rw [lambda]
  refine Ensures.bind (P := fun sig => sig.proper = true) (.still fun h => ?_) fun sig hsig => ?_
  · exact ⟨(accepts_resolveSignature h).1, (accepts_resolveSignature h).2.1.proper⟩
  refine (answers_frame hv h.1 h.2).inBody.bind fun r hr => ?_
  obtain ⟨⟨ps, ss⟩, b⟩ := r
  obtain ⟨⟨hps, hss⟩, hb⟩ := hr
  refine ensures_checkBody.bind fun _ hreturns => ensures_pure ?_
  have hb : b.sig = sig := hb
  rw [hb] at hreturns
  have hframe : Typed.Frame.Answers sig.returns ⟨b.slots, ps, body.span.start.line, ss⟩ :=
    hss.frame (Signature.proper_iff.mp hsig).1 hreturns
  exact List.forall_mem_cons.mpr ⟨⟨hsig, hframe⟩, answering_append.mpr ⟨hps, hss.lambdas⟩⟩

end Frames

section Expressions

variable {v : Visit} {height : Nat} {sigs : List Signature}

/-! ## Operators and casts -/

theorem answers_unary (hv : v.Answers height) {span : Span} {op : UnaryOp} {x : Tree.Expr} (hx : x.height ≤ height) :
    EnsuresExpr sigs (unary v span op x) := by
  rw [unary]
  refine (hv.expr hx).bind fun y hy => ?_
  obtain ⟨y, t⟩ := y
  cases t with
  | none => exact ensures_pure hy
  | some t =>
    refine ensures_store_bind fun s => ?_
    split
    · exact ensures_pure hy
    · exact ensures_report_bind

theorem answers_binary (hv : v.Answers height) {span : Span} {op : BinaryOp} {x y : Tree.Expr} (hx : x.height ≤ height)
    (hy : y.height ≤ height) : EnsuresExpr sigs (binary v span op x y) := by
  rw [binary]
  refine (hv.expr hx).bind fun lhs hx => (hv.expr hy).bind fun rhs hy => ?_
  obtain ⟨x, l⟩ := lhs
  obtain ⟨y, r⟩ := rhs
  have hall := answering_append.mpr ⟨hx, hy⟩
  dsimp only
  split
  · refine ensures_store_bind fun s => ?_
    split
    · exact ensures_pure hall
    · exact ensures_report_bind
  · exact ensures_pure hall

theorem ensures_resolveType {allowVoid : Bool} {type : Tree.TypeExpr} :
    Ensures sigs (fun _ => True) (resolveType allowVoid type) :=
  .still fun h => ⟨(accepts_resolveType _ h).1, trivial⟩

theorem answers_cast (hv : v.Answers height) {span : Span} {kind : Typed.CastKind} {x : Tree.Expr} {type : Tree.TypeExpr}
    (hx : x.height ≤ height) : EnsuresExpr sigs (cast v span kind x type) := by
  rw [cast]
  refine (hv.expr hx).bind fun e hy => ensures_resolveType.then fun dst => ?_
  obtain ⟨y, src⟩ := e
  dsimp only
  split
  · refine ensures_store_bind fun s => ensures_guard fun _ => ?_
    split
    · exact ensures_pure hy
    · exact ensures_guard fun _ => ensures_pure hy
    · exact ensures_pure hy
  · exact ensures_pure hy

/-! ## Construction -/

theorem answers_initFields (hv : v.Answers height) {c : ClassId} {seen : List String} {is : List Tree.FieldInit}
    (h : Tree.initsHeight is ≤ height) : Ensures sigs (fun r => Answering (callsLambdas r)) (initFields v c seen is) := by
  induction is generalizing seen with
  | nil => exact ensures_pure answering_nil
  | cons i is ih =>
    rw [Tree.initsHeight, Nat.max_le] at h
    obtain ⟨span, name, x⟩ := i
    rw [initFields]
    refine ensures_store_bind fun s => ?_
    split
    · refine ensures_guard fun _ => (hv.expr h.1).bind fun y hy => ensures_checkAssignable_bind ?_
      refine (ih h.2).bind fun cs hcs => ensures_pure (answering_append.mpr ⟨?_, hcs⟩)
      exact answering_call (answering_append.mpr ⟨hy, answering_nil⟩)
    · exact ensures_report_bind

theorem answers_new (hv : v.Answers height) {span : Span} {type : Tree.TypeExpr} {is : List Tree.FieldInit}
    (h : Tree.initsHeight is ≤ height) : EnsuresExpr sigs (new v span type is) := by
  rw [new]
  refine ensures_resolveType.then fun t => ?_
  dsimp only
  split
  · exact ensures_pure answering_nil
  · exact (answers_initFields hv h).bind fun cs hcs => ensures_pure hcs
  · exact ensures_guard fun _ => ensures_pure answering_nil
  · exact ensures_guard fun _ => ensures_pure answering_nil
  · exact ensures_typeName_bind fun _ => ensures_report_bind

/-! ## Collections -/

theorem height_of_exprs {xs : List Tree.Expr} (h : Tree.exprsHeight xs ≤ height) : ∀ x ∈ xs, x.height ≤ height := by
  induction xs with
  | nil => simp
  | cons x xs ih =>
    rw [Tree.exprsHeight, Nat.max_le] at h
    exact List.forall_mem_cons.mpr ⟨h.1, ih h.2⟩

theorem answering_appends {r : List Typed.Append} (h : ∀ a ∈ r, Answering (appendsLambdas [a])) :
    Answering (appendsLambdas r) := by
  induction r with
  | nil => exact answering_nil
  | cons a r ih =>
    obtain ⟨ha, hr⟩ := List.forall_mem_cons.mp h
    have happend : appendsLambdas (a :: r) = appendsLambdas [a] ++ appendsLambdas r := by
      cases a <;> simp [appendsLambdas]
    rw [happend]
    exact answering_append.mpr ⟨ha, ih hr⟩

theorem answering_element {line : Nat} {x : Expr} (h : Answering x.lambdas) :
    Answering (appendsLambdas [.element line x]) := answering_append.mpr ⟨h, answering_nil⟩

theorem answers_arrayElements (hv : v.Answers height) {elem : Ty} {xs : List Tree.Expr} (h : ∀ x ∈ xs, x.height ≤ height) :
    Ensures sigs (fun r => Answering (appendsLambdas r)) (arrayElements v elem xs) := by
  refine (ensures_each fun x hx => ?_).imp fun _ => answering_appends
  exact (hv.expr (h x hx)).bind fun ⟨y, t⟩ hy => ensures_checkAssignable_bind (ensures_pure (answering_element hy))

theorem answers_mapEntries (hv : v.Answers height) {key value : Ty} {xs : List Tree.Expr}
    (h : ∀ x ∈ xs, x.height ≤ height) : Ensures sigs (fun r => Answering (appendsLambdas r)) (mapEntries v key value xs) := by
  induction xs with
  | nil => exact ensures_pure answering_nil
  | cons x xs ih =>
    obtain ⟨hx, hxs⟩ := List.forall_mem_cons.mp h
    unfold mapEntries
    split
    · next kx vx =>
      -- an entry is written as a collection of two elements
      have hkv : Tree.exprsHeight [kx, vx] ≤ height := by
        rw [Tree.Expr.height] at hx
        omega
      obtain ⟨hk, hv'⟩ : kx.height ≤ height ∧ vx.height ≤ height := by simpa using height_of_exprs hkv
      refine (hv.expr hk).bind fun ⟨k, kt⟩ hk => ensures_checkAssignable_bind ?_
      refine (hv.expr hv').bind fun ⟨e, vt⟩ he => ensures_checkAssignable_bind ?_
      refine (ih hxs).bind fun r hr => ensures_pure ?_
      exact answering_append.mpr ⟨answering_append.mpr ⟨hk, he⟩, hr⟩
    · exact ensures_report_bind

theorem answers_inferredElements (hv : v.Answers height) {xs : List Tree.Expr} (h : ∀ x ∈ xs, x.height ≤ height) :
    Ensures sigs (fun r => Answering (appendsLambdas r.1)) (inferredElements v xs) := by
  cases xs with
  | nil => exact ensures_pure answering_nil
  | cons x xs =>
    obtain ⟨hx, hxs⟩ := List.forall_mem_cons.mp h
    rw [inferredElements]
    refine (hv.expr hx).bind fun e he => ?_
    obtain ⟨e, t⟩ := e
    refine (ensures_each (Q := fun a => Answering (appendsLambdas [a])) fun y hy => ?_).bind fun more hmore =>
      ensures_pure (answering_append.mpr ⟨he, answering_appends hmore⟩)
    refine (hv.expr (hxs y hy)).bind fun e' he' => ?_
    obtain ⟨e', t'⟩ := e'
    dsimp only
    split
    · exact ensures_checkAssignable_bind (ensures_pure (answering_element he'))
    · exact ensures_pure (answering_element he')

theorem answers_collection (hv : v.Answers height) {span : Span} {xs : List Tree.Expr} {expect : Option Ty}
    (h : Tree.exprsHeight xs ≤ height) : EnsuresExpr sigs (collection v span xs expect) := by
  have hxs := height_of_exprs h
  unfold collection
  split
  · simp only [pure_bind]
    exact (answers_arrayElements hv hxs).bind fun r hr => ensures_pure hr
  · simp only [pure_bind]
    exact (answers_mapEntries hv hxs).bind fun r hr => ensures_pure hr
  · simp only [pure_bind]
    exact (answers_inferredElements hv hxs).bind fun r hr => ensures_pure hr

theorem answering_chain {c : Typed.Chain} (h : Answering (exprsLambdas c.links)) : Answering (Expr.chain c).lambdas := by
  obtain ⟨line, type, yielded, links⟩ := c
  exact h

/-- An expression whose parts are low enough for a visit. -/
theorem answers_exprStep (hv : v.Answers height) {x : Tree.Expr} {expect : Option Ty} (h : x.height ≤ height + 1) :
    EnsuresExpr sigs (exprStep v x expect) := by
  unfold exprStep
  cases x with
  | int | float | string | bool | null => exact ensures_pure answering_nil
  | paren span x =>
    rw [Tree.Expr.height, Nat.add_le_add_iff_right] at h
    exact hv.expr h
  | lambda fn =>
    rw [Tree.Expr.height, Nat.add_le_add_iff_right] at h
    exact answers_lambda hv h
  | chain c =>
    rw [Tree.Expr.height, Nat.add_le_add_iff_right] at h
    refine (answers_chain hv (fun fn => answers_lambda hv) (m := .read) answering_nil h).bind ?_
    exact fun ⟨c, t⟩ hc => ensures_pure (answering_chain hc)
  | unary span op x =>
    rw [Tree.Expr.height, Nat.add_le_add_iff_right] at h
    exact answers_unary hv h
  | binary span op x y =>
    rw [Tree.Expr.height, Nat.add_le_add_iff_right, Nat.max_le] at h
    exact answers_binary hv h.1 h.2
  | cast | asType | isType =>
    rw [Tree.Expr.height, Nat.add_le_add_iff_right] at h
    exact answers_cast hv h
  | new span type is =>
    rw [Tree.Expr.height, Nat.add_le_add_iff_right] at h
    exact answers_new hv h
  | collection span xs =>
    rw [Tree.Expr.height, Nat.add_le_add_iff_right] at h
    exact answers_collection hv h

end Expressions

end Weft.Analysis
