import Weft.Proofs.Renaming.Chains

/-!
# Expressions and statements of renamed symbols

An expression is analyzed under a renaming as it is without, if the phrases inside it are.
-/

namespace Weft.Analysis

section Expressions

variable {σ : Renaming} {s s' : Store} {v : Visit}

/-! ## Functions -/

theorem carries_declareParams (ps : List Tree.Param) (ts : List (Bool × Ty)) :
    Carries σ s s' (List.map (Typed.VarDecl.rename σ)) (declareParams ps ts)
      (declareParams ps (ts.map fun p => (p.1, p.2.rename σ))) := by
  induction ps generalizing ts with
  | nil =>
    unfold declareParams
    exact carries_pure rfl
  | cons p ps ih =>
    cases ts with
    | nil =>
      unfold declareParams
      exact carries_pure rfl
    | cons t ts =>
      unfold declareParams
      refine carries_guard Iff.rfl rfl ?_
      refine carries_declare.bind fun x => ?_
      exact (ih ts).bind fun ds => carries_pure (by simp)

variable (h : s.Mirrors σ s') (hv : v.Carries σ s s')
include hv

theorem carries_stmts (ss : List Tree.Stmt) :
    Carries σ s s' (List.map (Typed.Stmt.rename σ)) (stmts v ss) (stmts v ss) := by
  unfold stmts
  refine (carries_mapM hv.stmt ss).bind fun tss => carries_pure ?_
  rw [List.map_flatten]

include h

theorem carries_defaultValues (ps : List Tree.Param) (ts : List (Bool × Ty)) (ds : List Typed.VarDecl) :
    Carries σ s s' (List.map (Typed.VarDecl.rename σ)) (defaultValues v ps ts ds)
      (defaultValues v ps (ts.map fun p => (p.1, p.2.rename σ)) (ds.map (Typed.VarDecl.rename σ))) := by
  induction ps generalizing ts ds with
  | nil =>
    unfold defaultValues
    exact carries_pure rfl
  | cons p ps ih =>
    cases ts with
    | nil =>
      unfold defaultValues
      exact carries_pure rfl
    | cons t ts =>
      cases ds with
      | nil =>
        unfold defaultValues
        exact carries_pure rfl
      | cons d ds =>
        simp only [List.map_cons]
        unfold defaultValues
        cases p.default with
        | none => exact (ih ts ds).bind fun ds => carries_pure rfl
        | some x =>
          refine (hv.expr x (some t.2)).bind fun r => ?_
          refine (carries_checkAssignable h (b := some t.2)).bind fun _ => ?_
          refine (ih ts ds).bind fun ds => carries_pure ?_
          obtain ⟨line, var, init⟩ := d
          simp

/-- The parameters and statements of a body are carried over. -/
theorem carries_frame (ps : List Tree.Param) (b : Tree.Block) :
    Carries σ s s' (Prod.map (List.map (Typed.VarDecl.rename σ)) (List.map (Typed.Stmt.rename σ))) (frame v ps b)
      (frame v ps b) := by
  unfold frame
  refine carries_body.bind fun outer => ?_
  rw [Body.rename_sig, Signature.rename_params]
  refine (carries_declareParams ps _).bind fun ds => ?_
  refine (carries_defaultValues h hv ps _ ds).bind fun ds => ?_
  exact (carries_stmts hv b.stmts).bind fun ss => carries_pure rfl

omit h hv in
theorem carries_checkBody (span : Span) (name : String) (b : Body) (block : Tree.Block) :
    Carries σ s s' id (checkBody span name b block) (checkBody span name (b.rename σ) block) := by
  unfold checkBody
  refine carries_guard Iff.rfl rfl (carries_guard ?_ rfl (carries_ite ?_ (carries_report rfl) (carries_pure rfl)))
  · simp
  · simp

theorem carries_lambda (fn : Tree.Lambda) :
    Carries σ s s' (Prod.map (Typed.Expr.rename σ) (Option.map (Ty.rename σ))) (lambda v fn) (lambda v fn) := by
  unfold lambda
  refine (carries_resolveSignature h.named fn.coro fn.returns fn.params).bind fun sig => ?_
  rw [← Body.rename_empty]
  refine (carries_inBody (carries_frame h hv fn.params fn.body)).bind fun r => ?_
  refine (carries_checkBody fn.span "lambda" r.2 fn.body).bind fun _ => carries_pure ?_
  simp

/-! ## Operators and casts -/

theorem carries_unary (span : Span) (op : UnaryOp) (x : Tree.Expr) :
    Carries σ s s' (Prod.map (Typed.Expr.rename σ) (Option.map (Ty.rename σ))) (unary v span op x) (unary v span op x) := by
  unfold unary
  refine (hv.expr x none).bind fun r => ?_
  obtain ⟨x, t⟩ := r
  cases t with
  | none => exact carries_pure rfl
  | some t =>
    refine carries_store_bind ?_
    simp only [h.unaryResult]
    cases op.result s t with
    | ok t => exact carries_pure rfl
    | error e => exact carries_report_bind rfl (carries_pure rfl)

theorem carries_binary (span : Span) (op : BinaryOp) (x y : Tree.Expr) :
    Carries σ s s' (Prod.map (Typed.Expr.rename σ) (Option.map (Ty.rename σ))) (binary v span op x y)
      (binary v span op x y) := by
  unfold binary
  refine (hv.expr x none).bind fun r => ?_
  refine (hv.expr y none).bind fun q => ?_
  obtain ⟨x, l⟩ := r
  obtain ⟨y, r⟩ := q
  cases l with
  | none => exact carries_pure rfl
  | some l =>
    cases r with
    | none => exact carries_pure rfl
    | some r =>
      refine carries_store_bind ?_
      simp only [h.binaryResult]
      cases op.result s l r with
      | ok t => exact carries_pure rfl
      | error e => exact carries_report_bind rfl (carries_pure rfl)

theorem carries_cast (span : Span) (kind : Typed.CastKind) (x : Tree.Expr) (type : Tree.TypeExpr) :
    Carries σ s s' (Prod.map (Typed.Expr.rename σ) (Option.map (Ty.rename σ))) (cast v span kind x type)
      (cast v span kind x type) := by
  unfold cast
  refine (hv.expr x none).bind fun r => ?_
  refine (carries_resolveType h.named false type).bind fun dst => ?_
  obtain ⟨x, src⟩ := r
  cases src with
  | none => exact carries_pure rfl
  | some src =>
    cases dst with
    | none => exact carries_pure rfl
    | some dst =>
      refine carries_store_bind (carries_guard ?_ ?_ ?_)
      · rw [h.castable]
      · rw [Ty.typeName_rename h.named, Ty.typeName_rename h.named]
      · cases kind with
        | isType => exact carries_pure rfl
        | asType =>
          refine carries_guard ?_ ?_ (carries_pure rfl)
          · rw [Ty.isReference_rename]
          · rw [Ty.typeName_rename h.named]
        | explicit => exact carries_pure rfl

/-! ## Construction -/

theorem carries_initFields (c : ClassId) (inits : List Tree.FieldInit) (seen : List String) :
    Carries σ s s' (List.map (Typed.Call.rename σ)) (initFields v c seen inits) (initFields v (σ.cls c) seen inits) := by
  induction inits generalizing seen with
  | nil =>
    unfold initFields
    exact carries_pure rfl
  | cons i rest ih =>
    have hother : Carries σ s s' (List.map (Typed.Call.rename σ))
        (do
          report i.span (.noField (s.cls c).typeName i.name)
          initFields v c seen rest)
        (do
          report i.span (.noField (s'.cls (σ.cls c)).typeName i.name)
          initFields v (σ.cls c) seen rest) := carries_report_bind (by rw [h.named.cls_typeName]) (ih seen)
    unfold initFields
    refine carries_store_bind ?_
    rw [h.classMember?]
    cases s.classMember? c i.name with
    | none => exact hother
    | some a =>
      cases a with
      | field f =>
        refine carries_guard Iff.rfl rfl ?_
        rw [h.field_type]
        refine (hv.expr i.value _).bind fun r => ?_
        refine (carries_checkAssignable h).bind fun _ => ?_
        refine (ih (i.name :: seen)).bind fun calls => carries_pure ?_
        simp [Typed.Access.rename]
      | _ => exact hother

theorem carries_new (span : Span) (type : Tree.TypeExpr) (inits : List Tree.FieldInit) :
    Carries σ s s' (Prod.map (Typed.Expr.rename σ) (Option.map (Ty.rename σ))) (new v span type inits)
      (new v span type inits) := by
  unfold new
  refine (carries_resolveType h.named false type).bind fun t => ?_
  cases t with
  | none => exact carries_pure (by simp)
  | some t =>
    have hcollection : Carries σ s s' (Prod.map (Typed.Expr.rename σ) (Option.map (Ty.rename σ)))
        (do
          if !inits.isEmpty then report span .initsWithoutClass
          return (Typed.Expr.new span.start.line (some t) [], some t))
        (do
          if !inits.isEmpty then report span .initsWithoutClass
          return (Typed.Expr.new span.start.line (some (t.rename σ)) [], some (t.rename σ))) :=
      carries_guard Iff.rfl rfl (carries_pure (by simp))
    have hother : Carries σ s s' (Prod.map (Typed.Expr.rename σ) (Option.map (Ty.rename σ)))
        (do
          report type.span (.notCreatable (← typeName t))
          return (Typed.Expr.new span.start.line (some t) [], none))
        (do
          report type.span (.notCreatable (← typeName (t.rename σ)))
          return (Typed.Expr.new span.start.line (some (t.rename σ)) [], none)) := by
      refine (carries_typeName h.named).bind fun n => ?_
      exact carries_report_bind rfl (carries_pure (by simp))
    cases t with
    | cls c =>
      refine (carries_initFields h hv c inits []).bind fun calls => carries_pure ?_
      simp
    | array elem => exact hcollection
    | map key value => exact hcollection
    | _ => exact hother

theorem carries_arrayElements (elem : Ty) (xs : List Tree.Expr) :
    Carries σ s s' (List.map (Typed.Append.rename σ)) (arrayElements v elem xs) (arrayElements v (elem.rename σ) xs) := by
  unfold arrayElements
  refine carries_mapM (fun x => ?_) xs
  refine (hv.expr x (some elem)).bind fun r => ?_
  exact (carries_checkAssignable h (b := some elem)).bind fun _ => carries_pure rfl

theorem carries_mapEntries (key value : Ty) (xs : List Tree.Expr) :
    Carries σ s s' (List.map (Typed.Append.rename σ)) (mapEntries v key value xs)
      (mapEntries v (key.rename σ) (value.rename σ) xs) := by
  induction xs with
  | nil =>
    unfold mapEntries
    exact carries_pure rfl
  | cons x rest ih =>
    unfold mapEntries
    split
    · next span kx vx =>
      refine (hv.expr kx (some key)).bind fun r => ?_
      refine (carries_checkAssignable h (b := some key)).bind fun _ => ?_
      refine (hv.expr vx (some value)).bind fun q => ?_
      refine (carries_checkAssignable h (b := some value)).bind fun _ => ?_
      exact ih.bind fun items => carries_pure (by simp)
    · exact carries_report_bind rfl ih

omit h hv in
/-- The first element of a collection decides under a renaming as it decides without. -/
theorem filter_decidesElement_rename (t : Option Ty) :
    (t.map (Ty.rename σ)).filter decidesElement = (t.filter decidesElement).map (Ty.rename σ) := by
  cases t with
  | none => rfl
  | some t =>
    have hdecides : decidesElement (t.rename σ) = decidesElement t := by simp [decidesElement]
    simp only [Option.map_some, Option.filter_some, hdecides]
    split <;> rfl

theorem carries_inferredElements (xs : List Tree.Expr) :
    Carries σ s s' (Prod.map (List.map (Typed.Append.rename σ)) (Ty.rename σ)) (inferredElements v xs)
      (inferredElements v xs) := by
  cases xs with
  | nil =>
    unfold inferredElements
    exact carries_pure (by simp)
  | cons x rest =>
    unfold inferredElements
    refine (hv.expr x none).bind fun r => ?_
    obtain ⟨e, t⟩ := r
    simp only [Prod.map, filter_decidesElement_rename]
    refine Carries.bind (f := List.map (Typed.Append.rename σ)) (carries_mapM (fun x => ?_) rest) fun more => ?_
    · refine (hv.expr x _).bind fun r => ?_
      refine carries_ite (by simp) ?_ (carries_pure rfl)
      exact (carries_checkAssignable h).bind fun _ => carries_pure rfl
    · refine carries_pure ?_
      simp [getD_any_rename]

theorem carries_inferred (span : Span) (xs : List Tree.Expr) :
    Carries σ s s' (Prod.map (Typed.Expr.rename σ) (Option.map (Ty.rename σ)))
      (do
        let (items, elem) ← inferredElements v xs
        let (items, t) ← pure (items, Ty.array elem)
        return (.collection span.start.line t items, some t))
      (do
        let (items, elem) ← inferredElements v xs
        let (items, t) ← pure (items, Ty.array elem)
        return (.collection span.start.line t items, some t)) :=
  (carries_inferredElements h hv xs).bind fun r => carries_pure (by simp)

theorem carries_collection (span : Span) (xs : List Tree.Expr) (expect : Option Ty) :
    Carries σ s s' (Prod.map (Typed.Expr.rename σ) (Option.map (Ty.rename σ))) (collection v span xs expect)
      (collection v span xs (expect.map (Ty.rename σ))) := by
  have hdone : ∀ r : List Typed.Append × Ty, Carries σ s s' (Prod.map (Typed.Expr.rename σ) (Option.map (Ty.rename σ)))
      (pure (Typed.Expr.collection span.start.line r.2 r.1, some r.2))
      (pure (Typed.Expr.collection span.start.line (r.2.rename σ) (r.1.map (Typed.Append.rename σ)),
        some (r.2.rename σ))) := fun r => carries_pure (by simp)
  unfold collection
  cases expect with
  | none => exact carries_inferred h hv span xs
  | some t =>
    cases t with
    | array elem => exact (carries_arrayElements h hv elem xs).bind fun items => hdone (items, .array elem)
    | map key value => exact (carries_mapEntries h hv key value xs).bind fun items => hdone (items, .map key value)
    | _ => exact carries_inferred h hv span xs

/-- Expressions are analyzed under a renaming as they are without. -/
theorem carries_exprStep (x : Tree.Expr) (expect : Option Ty) :
    Carries σ s s' (Prod.map (Typed.Expr.rename σ) (Option.map (Ty.rename σ))) (exprStep v x expect)
      (exprStep v x (expect.map (Ty.rename σ))) := by
  unfold exprStep
  cases x with
  | paren span x => exact hv.expr x expect
  | lambda fn => exact carries_lambda h hv fn
  | chain c => exact (carries_chain h hv (carries_lambda h hv) .read c).bind fun r => carries_pure rfl
  | unary span op x => exact carries_unary h hv span op x
  | binary span op x y => exact carries_binary h hv span op x y
  | cast span type x => exact carries_cast h hv span .explicit x type
  | asType span x type => exact carries_cast h hv span .asType x type
  | isType span x type => exact carries_cast h hv span .isType x type
  | new span type inits => exact carries_new h hv span type inits
  | collection span xs => exact carries_collection h hv span xs expect
  | _ => exact carries_pure (by simp)

end Expressions

end Weft.Analysis

/-!
## Statements of renamed symbols

A statement is analyzed under a renaming as it is without, and so, by induction on its height, is a whole body.
-/

namespace Weft.Analysis

section Statements

variable {σ : Renaming} {s s' : Store} {v : Visit}

/-! ## Blocks, conditions and jumps -/

theorem carries_checkJump (span : Span) (word : String) :
    Carries σ s s' id (checkJump span word) (checkJump span word) := by
  unfold checkJump
  refine carries_body.bind fun b => ?_
  rw [Body.loopState_rename]
  exact carries_ite Iff.rfl (carries_report rfl) (carries_ite Iff.rfl (carries_report rfl) (carries_pure rfl))

section Blocks

variable (hv : v.Carries σ s s')
include hv

theorem carries_blockStmts (b : Tree.Block) :
    Carries σ s s' (List.map (Typed.Stmt.rename σ)) (blockStmts v b) (blockStmts v b) :=
  carries_inBlock (carries_stmts hv b.stmts)

theorem carries_group (kind : Typed.Grouping) (b : Tree.Block) :
    Carries σ s s' (Typed.Block.rename σ) (group v kind b) (group v kind b) := by
  unfold group
  exact (carries_blockStmts hv b).bind fun ss => carries_pure (by simp)

theorem carries_loopBody (b : Tree.Block) : Carries σ s s' (Typed.Block.rename σ) (loopBody v b) (loopBody v b) :=
  carries_inside (carries_group hv .seq b)

theorem carries_loopStmt (st : Option Tree.Stmt) :
    Carries σ s s' (List.map (Typed.Stmt.rename σ)) (loopStmt v st) (loopStmt v st) := by
  cases st with
  | none => exact carries_pure rfl
  | some st => exact hv.stmt st

theorem carries_wordBlock (w : Tree.BlockWord) (b : Tree.Block) :
    Carries σ s s' (Typed.Block.rename σ) (wordBlock v w b) (wordBlock v w b) := by
  unfold wordBlock
  cases w with
  | defer => exact carries_inside (carries_group hv .defer b)
  | _ => exact carries_group hv _ b

theorem carries_condition (h : s.Named σ s') (x : Tree.Expr) :
    Carries σ s s' (Typed.Expr.rename σ) (condition v x) (condition v x) := by
  unfold condition
  refine (hv.expr x (some .bool)).bind fun r => ?_
  obtain ⟨c, t⟩ := r
  cases t with
  | none => exact carries_pure rfl
  | some t =>
    refine carries_ite (by rw [Ty.is_rename]) ?_ (carries_pure rfl)
    exact (carries_typeName h).bind fun n => carries_report_bind rfl (carries_pure rfl)

theorem carries_loopTest (h : s.Named σ s') (line : Nat) (x : Option Tree.Expr) :
    Carries σ s s' (Typed.Expr.rename σ) (loopTest v line x) (loopTest v line x) := by
  cases x with
  | none => exact carries_pure (by simp [Typed.boolLiteral])
  | some x => exact carries_condition hv h x

theorem carries_conditions (h : s.Named σ s') (i : Tree.If) :
    Carries σ s s' (Typed.Block.rename σ) (conditions v i) (conditions v i) := by
  unfold conditions
  refine Carries.bind (f := List.map (Typed.Arm.rename σ)) (carries_mapM (fun arm => ?_) i.arms) fun arms => ?_
  · refine (carries_condition hv h arm.1).bind fun test => ?_
    exact (carries_group hv .seq arm.2).bind fun body => carries_pure rfl
  · refine (carries_optionMapM (carries_group hv .seq) i.last?).bind fun other => carries_pure ?_
    simp

theorem carries_forLoop (h : s.Named σ s') (span : Span) (init : Option Tree.Stmt) (cond : Option Tree.Expr)
    (post : Option Tree.Stmt) (b : Tree.Block) :
    Carries σ s s' (Typed.Stmt.rename σ) (forLoop v span init cond post b) (forLoop v span init cond post b) := by
  unfold forLoop
  refine carries_inBlock ?_
  refine (carries_loopStmt hv init).bind fun first => ?_
  refine (carries_loopTest hv h _ cond).bind fun test => ?_
  refine (carries_loopBody hv b).bind fun inner => ?_
  exact (carries_loopStmt hv post).bind fun after => carries_pure (by simp)

end Blocks

/-! ## Calls as statements -/

theorem discard_rename (c : Typed.Chain) (t : Option Ty) :
    discard (c.rename σ) (t.map (Ty.rename σ)) = (discard c t).rename σ := by
  obtain ⟨line, type, yielded, links⟩ := c
  have hcount : ((t.map (Ty.rename σ)).map Ty.valueCount).getD 0 = (t.map Ty.valueCount).getD 0 := by
    rw [Option.map_map]
    cases t <;> simp
  unfold discard
  rw [hcount]
  split
  · rfl
  · simp

theorem carries_yielding {span : Span} {m : Analysis (List Typed.Stmt)}
    (hm : Carries σ s s' (List.map (Typed.Stmt.rename σ)) m m) :
    Carries σ s s' (List.map (Typed.Stmt.rename σ)) (yielding span m) (yielding span m) := by
  unfold yielding
  refine carries_body.bind fun b => ?_
  refine carries_guard (by simp) rfl ?_
  refine Carries.bind (carries_updateBody ?_) fun _ => hm
  exact fun b => rfl

/-! ## Variables -/

theorem carries_declareLocal {span : Span} {name : String} {t : Option Ty} :
    Carries σ s s' (LocalVar.rename σ) (declareLocal span name t) (declareLocal span name (t.map (Ty.rename σ))) := by
  unfold declareLocal
  refine carries_body.bind fun b => ?_
  refine carries_guard ?_ rfl ?_
  · rw [Body.find?_rename, Option.isSome_map]
  · rw [getD_any_rename]
    exact carries_declare

theorem storeLocal_rename (line : Nat) (x : LocalVar) :
    storeLocal line (x.rename σ) = (storeLocal line x).rename σ := by
  simp [storeLocal, Typed.Access.rename, LocalVar.rename]

section Variables

variable (h : s.Mirrors σ s')
include h

theorem carries_inferType (d : Tree.VarDecl) (name : String) (t : Option Ty) :
    Carries σ s s' (Option.map (Ty.rename σ)) (inferType d name t) (inferType d name (t.map (Ty.rename σ))) := by
  unfold inferType
  cases d.init with
  | none => exact carries_report_bind rfl (carries_pure rfl)
  | some x =>
    cases t with
    | none => exact carries_pure rfl
    | some t =>
      refine carries_ite (by rw [Ty.is_rename]) (carries_report_bind rfl (carries_pure rfl)) ?_
      refine carries_ite (by rw [Ty.valueCount_rename]) ?_ (carries_pure rfl)
      exact (carries_typeName h.named).bind fun n => carries_report_bind rfl (carries_pure rfl)

theorem carries_valueTypes (span : Span) (n : Nat) (t : Option Ty) :
    Carries σ s s' (Option.map (List.map (Ty.rename σ))) (valueTypes span n t)
      (valueTypes span n (t.map (Ty.rename σ))) := by
  cases t with
  | none => exact carries_pure rfl
  | some t =>
    have hrest : ∀ items : List Ty, Carries σ s s' (Option.map (List.map (Ty.rename σ)))
        (do
          if items.length = n then return some items
          report span (.valueCount n (← typeName t))
          return none)
        (do
          if (items.map (Ty.rename σ)).length = n then return some (items.map (Ty.rename σ))
          report span (.valueCount n (← typeName (t.rename σ)))
          return none) := by
      intro items
      refine carries_ite (by rw [List.length_map]) (carries_pure rfl) ?_
      exact (carries_typeName h.named).bind fun m => carries_report_bind rfl (carries_pure rfl)
    cases t with
    | tuple items =>
      have hitems := hrest items
      rw [Ty.rename_tuple] at hitems
      rw [Option.map_some, Ty.rename_tuple]
      exact hitems
    | _ => exact hrest []

theorem carries_variableType (d : Tree.VarDecl) (name : String) (written : Option Tree.TypeExpr) (t item : Option Ty) :
    Carries σ s s' (Option.map (Ty.rename σ)) (variableType d name written t item)
      (variableType d name written (t.map (Ty.rename σ)) (item.map (Ty.rename σ))) := by
  unfold variableType
  cases written with
  | none =>
    cases item with
    | none => exact carries_report_bind rfl (carries_pure rfl)
    | some item => exact carries_pure rfl
  | some te => exact (carries_checkAssignable h).bind fun _ => carries_pure rfl

theorem carries_declareVars (d : Tree.VarDecl) (i : Nat) (vs : List ((String × Option Tree.TypeExpr) × Option Ty))
    (items : Option (List Ty)) :
    Carries σ s s' (List.map (LocalVar.rename σ)) (declareVars d i vs items)
      (declareVars d i (vs.map fun x => (x.1, x.2.map (Ty.rename σ))) (items.map (List.map (Ty.rename σ)))) := by
  induction vs generalizing i with
  | nil =>
    unfold declareVars
    exact carries_pure rfl
  | cons x rest ih =>
    obtain ⟨⟨name, written⟩, t⟩ := x
    have hitem : (items.map (List.map (Ty.rename σ))).bind (·[i]?) = (items.bind (·[i]?)).map (Ty.rename σ) := by
      cases items <;> simp
    rw [List.map_cons]
    unfold declareVars
    rw [hitem]
    refine (carries_variableType h d name written t _).bind fun t => ?_
    refine carries_declareLocal.bind fun x => ?_
    exact (ih (i + 1)).bind fun xs => carries_pure rfl

theorem carries_singleType (d : Tree.VarDecl) (name : String) (written : Option Tree.TypeExpr)
    (t initType : Option Ty) :
    Carries σ s s' (Option.map (Ty.rename σ)) (singleType d name written t initType)
      (singleType d name written (t.map (Ty.rename σ)) (initType.map (Ty.rename σ))) := by
  unfold singleType
  cases written with
  | none => exact carries_inferType h d name initType
  | some te => exact (carries_checkAssignable h).bind fun _ => carries_pure rfl

theorem carries_writtenType (te : Option Tree.TypeExpr) :
    Carries σ s s' (Option.map (Ty.rename σ)) (writtenType te) (writtenType te) := by
  unfold writtenType
  refine (carries_optionMapM (carries_resolveType h.named false) te).bind fun t => carries_pure ?_
  cases t with
  | none => rfl
  | some t => cases t <;> rfl

/-- Variables that get the values of one expression, or none. -/
theorem carries_manyVars (d : Tree.VarDecl) (types : List (Option Ty)) (init : Option (Typed.Expr × Option Ty)) :
    Carries σ s s' (List.map (Typed.Stmt.rename σ))
      (do
        let items ← d.init.mapM fun x => valueTypes x.span d.vars.length (init.bind Prod.snd)
        let xs ← declareVars d 0 (d.vars.zip types) items.join
        let decls := xs.map fun x => Typed.Stmt.var { line := d.span.start.line, var := x, init := none }
        match init with
        | none => return decls
        | some (value, _) => return decls ++ [.expr value] ++ xs.reverse.map (storeLocal d.span.start.line))
      (do
        let items ← d.init.mapM fun x => valueTypes x.span d.vars.length ((init.bind Prod.snd).map (Ty.rename σ))
        let xs ← declareVars d 0 (d.vars.zip (types.map (Option.map (Ty.rename σ)))) items.join
        let decls := xs.map fun x => Typed.Stmt.var { line := d.span.start.line, var := x, init := none }
        match init.map (Prod.map (Typed.Expr.rename σ) (Option.map (Ty.rename σ))) with
        | none => return decls
        | some (value, _) => return decls ++ [.expr value] ++ xs.reverse.map (storeLocal d.span.start.line)) := by
  have htypes : ∀ x : Tree.Expr, Carries σ s s' (Option.map (List.map (Ty.rename σ)))
      (valueTypes x.span d.vars.length (init.bind Prod.snd))
      (valueTypes x.span d.vars.length ((init.bind Prod.snd).map (Ty.rename σ))) :=
    fun x => carries_valueTypes h x.span d.vars.length (init.bind Prod.snd)
  refine (carries_optionMapM htypes d.init).bind fun items => ?_
  have hjoin : (items.map (Option.map (List.map (Ty.rename σ)))).join = items.join.map (List.map (Ty.rename σ)) := by
    cases items with
    | none => rfl
    | some ts => cases ts <;> rfl
  have hzip : d.vars.zip (types.map (Option.map (Ty.rename σ))) =
      (d.vars.zip types).map fun x => (x.1, x.2.map (Ty.rename σ)) := by
    rw [List.zip_map_right]
    rfl
  rw [hjoin, hzip]
  refine (carries_declareVars h d 0 _ _).bind fun xs => ?_
  cases init with
  | none =>
    refine carries_pure ?_
    simp
  | some r =>
    refine carries_pure ?_
    simp [Function.comp_def, storeLocal_rename]

theorem carries_varStmt (hv : v.Carries σ s s') (d : Tree.VarDecl) :
    Carries σ s s' (List.map (Typed.Stmt.rename σ)) (varStmt v d) (varStmt v d) := by
  have hinit : ∀ expect : Option Ty, Carries σ s s'
      (Option.map (Prod.map (Typed.Expr.rename σ) (Option.map (Ty.rename σ)))) (d.init.mapM (v.expr · expect))
      (d.init.mapM (v.expr · (expect.map (Ty.rename σ)))) := fun expect => carries_optionMapM (fun x => hv.expr x expect) _
  have hinitType : ∀ init : Option (Typed.Expr × Option Ty),
      (init.map (Prod.map (Typed.Expr.rename σ) (Option.map (Ty.rename σ)))).bind Prod.snd =
        (init.bind Prod.snd).map (Ty.rename σ) := fun init => by cases init <;> rfl
  have hmany := carries_manyVars h d
  unfold varStmt
  refine (carries_mapM (fun x => carries_writtenType h x.2) d.vars).bind fun types => ?_
  obtain ⟨span, fileLocal, vars, inits⟩ := d
  match vars, types with
  | [(name, written)], [t] =>
    refine (hinit t).bind fun init => ?_
    rw [hinitType]
    refine (carries_singleType h _ name written t _).bind fun t => ?_
    refine carries_declareLocal.bind fun x => carries_pure ?_
    cases init <;> simp
  | [], [t] | _ :: _ :: _, [t] =>
    refine (hinit t).bind fun init => ?_
    rw [hinitType]
    exact hmany [t] init
  | [], [] | [_], [] | _ :: _ :: _, [] =>
    refine (hinit none).bind fun init => ?_
    rw [hinitType]
    exact hmany [] init
  | [], t :: u :: ts | [_], t :: u :: ts | _ :: _ :: _, t :: u :: ts =>
    refine (hinit none).bind fun init => ?_
    rw [hinitType]
    exact hmany (t :: u :: ts) init

end Variables

/-! ## Assignments -/

section Assignments

variable (h : s.Mirrors σ s') (hv : v.Carries σ s s')
include h hv

theorem carries_chainOf (m : Mode) (c : Tree.Chain) :
    Carries σ s s' (Prod.map (Typed.Chain.rename σ) (Option.map (Ty.rename σ))) (chainOf v m c)
      (chainOf v (m.rename σ) c) := carries_chain h hv (carries_lambda h hv) m c

theorem carries_setStmt (target : Tree.Chain) (value : Tree.Expr) :
    Carries σ s s' (List.map (Typed.Stmt.rename σ)) (setStmt v target value) (setStmt v target value) := by
  unfold setStmt
  refine (carries_chainOf h hv (.write none) target).bind fun r => ?_
  refine (hv.expr value r.2).bind fun q => ?_
  refine (carries_checkAssignable h).bind fun _ => carries_pure ?_
  simp

omit hv in
theorem carries_updateType (span : Span) (op : BinaryOp) (l r : Option Ty) :
    Carries σ s s' (Option.map (Ty.rename σ)) (updateType span op l r)
      (updateType span op (l.map (Ty.rename σ)) (r.map (Ty.rename σ))) := by
  cases l with
  | none => exact carries_pure rfl
  | some l =>
    cases r with
    | none => exact carries_pure rfl
    | some r =>
      unfold updateType
      refine carries_store_bind ?_
      simp only [h.binaryResult]
      cases op.result s l r with
      | ok t => exact (carries_checkAssignable (a := some t) (b := some l) h).bind fun _ => carries_pure rfl
      | error e => exact carries_report_bind rfl (carries_pure rfl)

theorem carries_updateStmt (span : Span) (op : BinaryOp) (target : Tree.Chain) (value : Tree.Expr) :
    Carries σ s s' (List.map (Typed.Stmt.rename σ)) (updateStmt v span op target value)
      (updateStmt v span op target value) := by
  unfold updateStmt
  cases (Tree.Expr.chain target).effect? with
  | some at' => exact carries_report_bind rfl (carries_pure rfl)
  | none =>
    refine (carries_chainOf h hv .read target).bind fun r => ?_
    refine (hv.expr value none).bind fun q => ?_
    refine (carries_updateType h span op r.2 q.2).bind fun t => ?_
    have hwrite := carries_chainOf h hv
      (.write (some (Typed.Expr.binary span.start.line op t (.chain r.1) q.1))) target
    exact hwrite.bind fun c => carries_pure rfl

theorem carries_targets (i : Nat) (xs : List Tree.Expr) (items : Option (List Ty)) :
    Carries σ s s' (Option.map (List.map (Typed.Stmt.rename σ))) (targets v i xs items)
      (targets v i xs (items.map (List.map (Ty.rename σ)))) := by
  induction xs generalizing i with
  | nil =>
    unfold targets
    exact carries_pure rfl
  | cons x rest ih =>
    have hitem : (items.map (List.map (Ty.rename σ))).bind (·[i]?) = (items.bind (·[i]?)).map (Ty.rename σ) := by
      cases items <;> simp
    unfold targets
    split
    · next span at' name =>
      refine (carries_chainOf h hv (.write none) _).bind fun r => ?_
      have hrest : Carries σ s s' (Option.map (List.map (Typed.Stmt.rename σ)))
          (do
            return (← targets v (i + 1) rest items).map (.expr (.chain r.1) :: ·))
          (do
            let ss ← targets v (i + 1) rest (items.map (List.map (Ty.rename σ)))
            return ss.map (.expr (.chain (r.1.rename σ)) :: ·)) := by
        refine (ih (i + 1)).bind fun ss => carries_pure ?_
        cases ss <;> rfl
      rw [hitem]
      cases items.bind (·[i]?) with
      | none => exact hrest
      | some item => exact (carries_checkAssignable h (a := some item)).bind fun _ => hrest
    · exact carries_report_bind rfl (carries_pure rfl)

theorem carries_multiStmt (span : Span) (xs : List Tree.Expr) (op : AssignOp) (value : Tree.Expr) :
    Carries σ s s' (List.map (Typed.Stmt.rename σ)) (multiStmt v span xs op value) (multiStmt v span xs op value) := by
  unfold multiStmt
  cases op with
  | update op => exact carries_report_bind rfl (carries_pure rfl)
  | set =>
    refine (hv.expr value none).bind fun r => ?_
    refine (carries_valueTypes h value.span xs.length r.2).bind fun items => ?_
    refine (carries_targets h hv 0 xs items).bind fun writes => ?_
    cases writes with
    | none => exact carries_pure rfl
    | some writes => exact carries_pure (by simp)

theorem carries_assignStmt (span : Span) (xs : List Tree.Expr) (op : AssignOp) (value : Tree.Expr) :
    Carries σ s s' (List.map (Typed.Stmt.rename σ)) (assignStmt v span xs op value) (assignStmt v span xs op value) := by
  unfold assignStmt
  split
  · cases op with
    | set => exact carries_setStmt h hv _ value
    | update op => exact carries_updateStmt h hv span op _ value
  · exact carries_report_bind rfl (carries_pure rfl)
  · exact carries_multiStmt h hv span xs op value

/-! ## Statements -/

/-- Several values against the types they have to fit. -/
theorem carries_returnItems (span : Span) (xs : List Tree.Expr) (want : Ty) (items : List Ty) :
    Carries σ s s' (Typed.Stmt.rename σ)
      (do
        if items.length ≠ xs.length then
          report span (.returnCount want.valueCount xs.length)
          return .ret span.start.line 0 []
        let ys ← (xs.zip items).mapM fun (x, item) => do
          let (y, t) ← v.expr x (some item)
          checkAssignable x.span t (some item)
          return y
        return .ret span.start.line xs.length ys)
      (do
        if (items.map (Ty.rename σ)).length ≠ xs.length then
          report span (.returnCount (want.rename σ).valueCount xs.length)
          return .ret span.start.line 0 []
        let ys ← (xs.zip (items.map (Ty.rename σ))).mapM fun (x, item) => do
          let (y, t) ← v.expr x (some item)
          checkAssignable x.span t (some item)
          return y
        return .ret span.start.line xs.length ys) := by
  refine carries_ite (by rw [List.length_map]) ?_ ?_
  · exact carries_report_bind (by rw [Ty.valueCount_rename]) (carries_pure (by simp))
  · rw [List.zip_map_right, List.mapM_map]
    refine Carries.bind (f := List.map (Typed.Expr.rename σ)) (carries_mapM (fun p => ?_) _) fun ys => ?_
    · refine (hv.expr p.1 (some p.2)).bind fun r => ?_
      exact (carries_checkAssignable h (b := some p.2)).bind fun _ => carries_pure rfl
    · exact carries_pure (by simp)

theorem carries_returnStmt (span : Span) (values : List Tree.Expr) :
    Carries σ s s' (Typed.Stmt.rename σ) (returnStmt v span values) (returnStmt v span values) := by
  unfold returnStmt
  refine carries_body.bind fun b => ?_
  rw [Body.rename_around]
  refine carries_guard Iff.rfl rfl ?_
  rw [Body.rename_sig, Signature.rename_returns]
  generalize b.sig.returns = want
  obtain _ | ⟨x, _ | ⟨y, rest⟩⟩ := values
  · exact carries_guard (by simp) rfl (carries_pure (by simp))
  · refine carries_ite (by rw [Ty.is_rename]) (carries_report_bind rfl (carries_pure (by simp))) ?_
    refine (hv.expr x (some want)).bind fun r => ?_
    exact (carries_checkAssignable h (b := some want)).bind fun _ => carries_pure (by simp)
  · refine carries_ite (by rw [Ty.is_rename]) (carries_report_bind rfl (carries_pure (by simp))) ?_
    have hrest := carries_returnItems h hv span (x :: y :: rest) want
    cases want with
    | tuple items =>
      have hitems := hrest items
      rw [Ty.rename_tuple] at hitems ⊢
      exact hitems
    | _ => exact hrest []

theorem carries_discarded (c : Tree.Chain) :
    Carries σ s s' (List.map (Typed.Stmt.rename σ))
      (do
        let (c, t) ← chainOf v .read c
        return [discard c t])
      (do
        let (c, t) ← chainOf v .read c
        return [discard c t]) := by
  refine (carries_chainOf h hv .read c).bind fun r => carries_pure ?_
  simp only [discard_rename]
  rfl

/-- Statements are analyzed under a renaming as they are without. -/
theorem carries_stmtStep (st : Tree.Stmt) :
    Carries σ s s' (List.map (Typed.Stmt.rename σ)) (stmtStep v st) (stmtStep v st) := by
  unfold stmtStep
  cases st with
  | block b => exact (carries_group hv .seq b).bind fun b => carries_pure rfl
  | var d => exact carries_varStmt h hv d
  | expr span x =>
    simp only []
    split
    · exact carries_report_bind rfl (carries_pure rfl)
    · exact carries_discarded h hv _
  | assign span xs op value => exact carries_assignStmt h hv span xs op value
  | ret span values => exact (carries_returnStmt h hv span values).bind fun st => carries_pure rfl
  | brk span => exact (carries_checkJump span "break").bind fun _ => carries_pure rfl
  | cont span => exact (carries_checkJump span "continue").bind fun _ => carries_pure rfl
  | cond i => exact (carries_conditions hv h.named i).bind fun b => carries_pure rfl
  | whileLoop span x b =>
    refine (carries_condition hv h.named x).bind fun test => ?_
    exact (carries_loopBody hv b).bind fun inner => carries_pure (by simp)
  | doLoop span b x =>
    refine (carries_loopBody hv b).bind fun inner => ?_
    exact (carries_condition hv h.named x).bind fun test => carries_pure rfl
  | forLoop span init cond post b =>
    exact (carries_forLoop hv h.named span init cond post b).bind fun st => carries_pure rfl
  | yield span => exact carries_yielding (carries_pure rfl)
  | yieldWhile span x =>
    refine carries_yielding ?_
    exact (carries_condition hv h.named x).bind fun test => carries_pure (by simp)
  | yieldCall span x =>
    refine carries_yielding ?_
    simp only []
    split
    · exact carries_report_bind rfl (carries_pure rfl)
    · refine (carries_chainOf h hv .read _).bind fun r => carries_pure ?_
      obtain ⟨⟨line, t, yielded, links⟩, t'⟩ := r
      have hdiscard := discard_rename (σ := σ) ⟨line, t, true, links⟩ t'
      simp only [Typed.Chain.rename_mk] at hdiscard
      simp [hdiscard]
  | words span w b => exact (carries_wordBlock hv w b).bind fun b => carries_pure rfl

end Assignments

theorem carries_visit (h : s.Mirrors σ s') (n : Nat) : (visit n).Carries σ s s' := by
  induction n with
  | zero => exact ⟨fun x _ => carries_pure (by simp), fun _ => carries_pure rfl⟩
  | succ n ih => exact ⟨carries_exprStep h ih, carries_stmtStep h ih⟩

end Statements

end Weft.Analysis
