import Weft.Proofs.Analysis.ScopedChain
import Weft.Proofs.Analysis.TrustedExpr

/-!
# Expressions in scope

The frame of a lambda that is accepted is consistent: its variables have slots of their own, and what it mentions is
what names stand for. So it is for every lambda of an expression, if that holds of the phrases inside.
-/

namespace Weft.Analysis

open Typed (Expr Mention located exprsMentions callsMentions appendsMentions stmtsDeclared stmtsLocals stmtsLocated)

/-! ## Functions -/

section Frames

variable {v : Visit}

/-- What holds after statements that follow others holds after all of them. -/
theorem after_append {d : List LocalVar} {R : List (List LocalVar)} {L : List LocalVar} {K K' : List Typed.Located}
    {xs ys : List Typed.Stmt} (hx : stmtsLocated (d ++ R.flatten) xs ⊆ K) (hk : K ⊆ K') :
    Standing.Gives ((Standing.after (stmtsDeclared xs ++ d) R (stmtsLocals xs ++ L) ys).also K') (.after d R L (xs ++ ys)) := by
  refine ⟨?_, ?_, ?_⟩
  · simp only [Standing.also, Standing.after, Typed.stmtsDeclared_append, List.append_assoc]
  · simp only [Standing.also, Standing.after, Typed.stmtsLocals_append, List.append_assoc]
    exact List.perm_append_comm_assoc _ _ _
  · simp only [Standing.also, Standing.after, Typed.stmtsLocated_append, List.append_assoc]
    exact List.append_subset.mpr ⟨List.subset_append_of_subset_right _ (List.Subset.trans hx hk), List.subset_append_left _ _⟩

theorem scoped_stmts (hv : v.Scopes) {ss : List Tree.Stmt} {d : List LocalVar} {R : List (List LocalVar)}
    {L : List LocalVar} {K : List Typed.Located} : RunsStmts d R L K (stmts v ss) := by
  have hlists : Runs ⟨d :: R, L, K⟩ (ss.mapM v.stmt) fun lists => .after d R L lists.flatten := by
    induction ss generalizing d L K with
    | nil => exact runs_pure ⟨rfl, .refl _, List.nil_subset _⟩
    | cons s ss ih =>
      rw [List.mapM_cons]
      refine Runs.bind hv.stmt fun xs => ih.bind fun lists => runs_pure ?_
      exact after_append (List.subset_append_left _ _) (List.Subset.refl _)
  rw [stmts]
  exact hlists.bind fun lists => runs_pure (Standing.also_gives _ _)

/-- The parameters are declared one after the other, before any default value. -/
theorem runs_declareParams {ps : List Tree.Param} {ts : List (Bool × Ty)} {d L : List LocalVar} {K : List Typed.Located} :
    Runs ⟨[d], L, K⟩ (declareParams ps ts) fun ds => ⟨[(ds.map Typed.VarDecl.var).reverse ++ d], ds.map Typed.VarDecl.var ++ L,
      located ((ds.map Typed.VarDecl.var).reverse ++ d) (ds.flatMap Typed.VarDecl.mentions)⟩ := by
  induction ps generalizing ts d L K with
  | nil => exact runs_pure ⟨rfl, .refl _, List.nil_subset _⟩
  | cons p ps ih =>
    cases ts with
    | nil => exact runs_pure ⟨rfl, .refl _, List.nil_subset _⟩
    | cons t ts =>
      rw [declareParams]
      refine runs_guard fun _ => runs_declare.bind fun x => ih.bind fun ds => runs_pure ⟨?_, ?_, ?_⟩
      · simp [Standing.also]
      · exact List.perm_middle
      · simp [Standing.also, Typed.VarDecl.mentions]

theorem vars_defaultValues {ps : List Tree.Param} {ts : List (Bool × Ty)} {ds r : List Typed.VarDecl} {pl : Place}
    {st st' : State} (h : Accepts (defaultValues v ps ts ds) pl st r st') :
    r.map Typed.VarDecl.var = ds.map Typed.VarDecl.var := by
  fun_induction defaultValues v ps ts ds generalizing r st st' with
  | case1 p ps b t ts d ds hp ih =>
    obtain ⟨r', st₁, h₁, h₂⟩ := accepts_bind.mp h
    obtain ⟨rfl, -⟩ := accepts_pure.mp h₂
    rw [List.map_cons, List.map_cons, ih h₁]
  | case2 p ps b t ts d ds x hx ih =>
    obtain ⟨⟨y, t'⟩, st₁, -, h₁⟩ := accepts_bind.mp h
    obtain ⟨-, h₂⟩ := accepts_checkAssignable_bind.mp h₁
    obtain ⟨r', st₂, h₃, h₄⟩ := accepts_bind.mp h₂
    obtain ⟨rfl, -⟩ := accepts_pure.mp h₄
    rw [List.map_cons, List.map_cons, ih h₃]
  | case3 =>
    obtain ⟨rfl, -⟩ := accepts_pure.mp h
    rfl

theorem scoped_defaultValues (hv : v.Scopes) {ps : List Tree.Param} {ts : List (Bool × Ty)} {ds : List Typed.VarDecl}
    {D : List (List LocalVar)} {L : List LocalVar} {K : List Mention} (hds : ds.flatMap Typed.VarDecl.mentions ⊆ K) :
    Tells D L K (defaultValues v ps ts ds) fun r => r.flatMap Typed.VarDecl.mentions := by
  fun_induction defaultValues v ps ts ds generalizing K with
  | case1 p ps b t ts d ds hp ih =>
    rw [List.flatMap_cons, List.append_subset] at hds
    refine (ih hds.2).bind fun r => tells_pure ?_
    rw [List.flatMap_cons]
    exact List.append_subset.mpr ⟨known_later hds.1, List.subset_append_left _ _⟩
  | case2 p ps b t ts d ds x hx ih =>
    rw [List.flatMap_cons, List.append_subset] at hds
    refine Tells.bind hv.expr fun y => runs_checkAssignable_bind ?_
    refine (ih (known_later hds.2)).bind fun r => tells_pure ?_
    rw [List.flatMap_cons]
    exact List.append_subset.mpr ⟨known_later (List.subset_append_left _ _), List.subset_append_left _ _⟩
  | case3 => exact tells_pure hds

/-- Where the analysis of a function leads: all its variables are declared, and what it mentions is consistent. -/
def Standing.ofFrame (this : List LocalVar) (f : Typed.Frame) : Standing :=
  ⟨[stmtsDeclared f.body ++ (f.paramVars.reverse ++ this)], this ++ f.paramVars ++ stmtsLocals f.body, f.located this⟩

theorem scoped_frame (hv : v.Scopes) {ps : List Tree.Param} {b : Tree.Block} {this : List LocalVar} (slots line : Nat) :
    Runs ⟨[this], this, []⟩ (frame v ps b) fun r => .ofFrame this ⟨slots, r.1, line, r.2⟩ := by
  rw [frame]
  refine runs_body_bind fun start => runs_declareParams.bind fun ds => ?_
  have hdefaults : Tells [(ds.map Typed.VarDecl.var).reverse ++ this] (ds.map Typed.VarDecl.var ++ this)
      (ds.flatMap Typed.VarDecl.mentions) (defaultValues v ps start.sig.params ds) fun r =>
        r.flatMap Typed.VarDecl.mentions := scoped_defaultValues hv (List.Subset.refl _)
  refine Runs.bind_of_accepts (Runs.of hdefaults ⟨rfl, .refl _, ?_⟩) fun ds' hds' => ?_
  · simp [Standing.also]
  obtain ⟨_, _, _, hds'⟩ := hds'
  have hvars := vars_defaultValues hds'
  refine (scoped_stmts hv).bind fun ss => runs_pure ⟨?_, ?_, ?_⟩
  · simp only [Standing.also, Standing.after, Standing.ofFrame, Typed.Frame.paramVars, hvars]
  · simp only [Standing.also, Standing.after, Standing.ofFrame, Typed.Frame.paramVars, hvars]
    exact List.perm_append_comm.trans (List.perm_append_comm.append_right _)
  · simp only [Standing.also, Standing.after, Standing.ofFrame, Typed.Frame.located, Typed.Frame.paramVars, hvars]
    simp

theorem scoped_lambda (hv : v.Scopes) : ScopesLambdas (lambda v) := by
  intro D L K fn pl st r st' l outer hst h
  rw [lambda] at h
  obtain ⟨sig, st₁, hsig, h₁⟩ := accepts_bind.mp h
  obtain ⟨rfl, -⟩ := accepts_resolveSignature hsig
  obtain ⟨⟨⟨params, ss⟩, b⟩, st₂, hbody, h₂⟩ := accepts_bind.mp h₁
  obtain ⟨_, st₃, hcheck, h₃⟩ := accepts_bind.mp h₂
  obtain ⟨rfl, hfew⟩ := accepts_checkBody hcheck
  obtain ⟨rfl, rfl⟩ := accepts_pure.mp h₃
  obtain ⟨l₀, ls, hframe, hgrows⟩ := (scoped_frame hv b.slots fn.body.span.start.line).inBody
    (shows_empty sig) hst.layered hst.bodies hbody
  have hmentions := hframe.mentions
  cases hgrows with
  | @cons _ l' _ outer' hl houter =>
    have hscope : l'.scope = ⟨D.flatten, l'.body.upvals⟩ := by rw [Layer.scope, hl.decls, hst.decls]
    refine ⟨l', outer', ⟨?_, hframe.layered.2, hl.decls.trans hst.decls, ?_, ?_⟩, hl.upvals, houter⟩
    · exact (List.cons.inj hframe.bodies).2
    · rw [hl.declared]
      exact hst.declared
    · intro m hm
      obtain rfl := List.mem_singleton.mp hm
      have hcaptured := hframe.captured
      rw [scopesOf, List.map_cons, hscope] at hcaptured hmentions
      exact .lambda hcaptured (hframe.slotted (.refl _) rfl hfew) hmentions

end Frames

section Expressions

variable {v : Visit} {D : List (List LocalVar)} {L : List LocalVar} {K : List Mention}

/-! ## Operators and casts -/

theorem scoped_unary (hv : v.Scopes) {span : Span} {op : UnaryOp} {x : Tree.Expr} :
    Tells D L K (unary v span op x) fun r => r.1.mentions := by
  rw [unary]
  refine Tells.bind hv.expr fun y => ?_
  obtain ⟨y, t⟩ := y
  have hy : y.mentions ⊆ y.mentions ++ K := List.subset_append_left _ _
  cases t with
  | none => exact tells_pure hy
  | some t =>
    refine runs_store_bind fun s => ?_
    split
    · exact tells_pure hy
    · exact runs_report_bind

theorem scoped_binary (hv : v.Scopes) {span : Span} {op : BinaryOp} {x y : Tree.Expr} :
    Tells D L K (binary v span op x y) fun r => r.1.mentions := by
  rw [binary]
  refine Tells.bind hv.expr fun lhs => Tells.bind hv.expr fun rhs => ?_
  obtain ⟨x, l⟩ := lhs
  obtain ⟨y, r⟩ := rhs
  have hall : x.mentions ++ y.mentions ⊆ y.mentions ++ (x.mentions ++ K) :=
    List.append_subset.mpr ⟨known_later (List.subset_append_left _ _), List.subset_append_left _ _⟩
  dsimp only
  split
  · refine runs_store_bind fun s => ?_
    split
    · exact tells_pure hall
    · exact runs_report_bind
  · exact tells_pure hall

theorem tells_resolveType_bind {β : Type} {allowVoid : Bool} {type : Tree.TypeExpr} {g : Option Ty → Analysis β}
    {ν : β → List Mention} (h : ∀ t, Tells D L K (g t) ν) : Tells D L K (resolveType allowVoid type >>= g) ν :=
  (tells_still fun ha => (accepts_resolveType _ ha).1).then h

theorem scoped_cast (hv : v.Scopes) {span : Span} {kind : Typed.CastKind} {x : Tree.Expr} {type : Tree.TypeExpr} :
    Tells D L K (cast v span kind x type) fun r => r.1.mentions := by
  rw [cast]
  refine Tells.bind hv.expr fun e => tells_resolveType_bind fun dst => ?_
  obtain ⟨y, src⟩ := e
  have hy : y.mentions ⊆ y.mentions ++ K := List.subset_append_left _ _
  dsimp only
  split
  · refine runs_store_bind fun s => runs_guard fun _ => ?_
    split
    · exact tells_pure hy
    · exact runs_guard fun _ => tells_pure hy
    · exact tells_pure hy
  · exact tells_pure hy

/-! ## Construction -/

theorem scoped_initFields (hv : v.Scopes) {c : ClassId} {seen : List String} {is : List Tree.FieldInit} :
    Tells D L K (initFields v c seen is) callsMentions := by
  induction is generalizing seen K with
  | nil => exact tells_pure (List.nil_subset _)
  | cons i is ih =>
    rw [initFields]
    refine runs_store_bind fun s => ?_
    split
    · refine runs_guard fun _ => Tells.bind hv.expr fun y => runs_checkAssignable_bind ?_
      refine ih.bind fun cs => tells_pure (List.append_subset.mpr ⟨?_, List.subset_append_left _ _⟩)
      exact mentions_access (List.nil_subset _)
        (List.append_subset.mpr ⟨known_later (List.subset_append_left _ _), List.nil_subset _⟩)
    · exact runs_report_bind

theorem scoped_new (hv : v.Scopes) {span : Span} {type : Tree.TypeExpr} {is : List Tree.FieldInit} :
    Tells D L K (new v span type is) fun r => r.1.mentions := by
  rw [new]
  refine tells_resolveType_bind fun t => ?_
  dsimp only
  split
  · exact tells_pure (List.nil_subset _)
  · exact (scoped_initFields hv).bind fun cs => tells_pure (List.subset_append_left _ _)
  · exact runs_guard fun _ => tells_pure (List.nil_subset _)
  · exact runs_guard fun _ => tells_pure (List.nil_subset _)
  · exact runs_typeName_bind fun _ => runs_report_bind

/-! ## Collections -/

/-- The mentions of one element or entry. -/
def mentionsOf (a : Typed.Append) : List Mention := appendsMentions [a]

theorem appendsMentions_eq (as : List Typed.Append) : appendsMentions as = as.flatMap mentionsOf := by
  induction as with
  | nil => rfl
  | cons a as ih => cases a <;> simp [appendsMentions, mentionsOf, ih]

theorem mentions_element {line : Nat} {x : Expr} (h : x.mentions ⊆ K) : mentionsOf (.element line x) ⊆ K :=
  List.append_subset.mpr ⟨h, List.nil_subset _⟩

theorem scoped_arrayElements (hv : v.Scopes) {elem : Ty} {xs : List Tree.Expr} :
    Tells D L K (arrayElements v elem xs) appendsMentions := by
  refine (tells_mapM (ν := mentionsOf) fun x _ => ?_).imp fun as => ?_
  · refine Tells.bind hv.expr fun r => runs_checkAssignable_bind (tells_pure (mentions_element ?_))
    exact List.subset_append_left _ _
  · rw [appendsMentions_eq]
    exact List.Subset.refl _

theorem scoped_mapEntries (hv : v.Scopes) {key value : Ty} {xs : List Tree.Expr} :
    Tells D L K (mapEntries v key value xs) appendsMentions := by
  induction xs generalizing K with
  | nil => exact tells_pure (List.nil_subset _)
  | cons x xs ih =>
    unfold mapEntries
    split
    · refine Tells.bind hv.expr fun k => runs_checkAssignable_bind ?_
      refine Tells.bind hv.expr fun e => runs_checkAssignable_bind (ih.bind fun r => tells_pure ?_)
      refine List.append_subset.mpr ⟨List.append_subset.mpr ⟨?_, ?_⟩, List.subset_append_left _ _⟩
      · exact known_later (known_later (List.subset_append_left _ _))
      · exact known_later (List.subset_append_left _ _)
    · exact runs_report_bind

theorem scoped_inferredElements (hv : v.Scopes) {xs : List Tree.Expr} :
    Tells D L K (inferredElements v xs) fun r => appendsMentions r.1 := by
  cases xs with
  | nil => exact tells_pure (List.nil_subset _)
  | cons x xs =>
    rw [inferredElements]
    refine Tells.bind hv.expr fun e => ?_
    obtain ⟨e, t⟩ := e
    refine (tells_mapM (ν := mentionsOf) fun y _ => ?_).bind fun more => tells_pure ?_
    · refine Tells.bind hv.expr fun e' => ?_
      obtain ⟨e', t'⟩ := e'
      have he' : e'.mentions ⊆ e'.mentions ++ (e.mentions ++ K) := List.subset_append_left _ _
      dsimp only
      split
      · exact runs_checkAssignable_bind (tells_pure (mentions_element he'))
      · exact tells_pure (mentions_element he')
    · rw [appendsMentions, appendsMentions_eq]
      exact List.append_subset.mpr ⟨known_later (List.subset_append_left _ _), List.subset_append_left _ _⟩

theorem scoped_collection (hv : v.Scopes) {span : Span} {xs : List Tree.Expr} {expect : Option Ty} :
    Tells D L K (collection v span xs expect) fun r => r.1.mentions := by
  unfold collection
  split
  · simp only [pure_bind]
    exact (scoped_arrayElements hv).bind fun r => tells_pure (List.subset_append_left _ _)
  · simp only [pure_bind]
    exact (scoped_mapEntries hv).bind fun r => tells_pure (List.subset_append_left _ _)
  · simp only [pure_bind]
    exact (scoped_inferredElements hv).bind fun r => tells_pure (List.subset_append_left _ _)

theorem mentions_chain (c : Typed.Chain) : (Expr.chain c).mentions = exprsMentions c.links := by
  obtain ⟨line, type, yielded, links⟩ := c
  rfl

/-- An expression, given that the phrases inside it are consistent. -/
theorem scoped_exprStep (hv : v.Scopes) {x : Tree.Expr} {expect : Option Ty} :
    Tells D L K (exprStep v x expect) fun r => r.1.mentions := by
  unfold exprStep
  cases x with
  | int | float | string | bool | null => exact tells_pure (List.nil_subset _)
  | paren span x => exact hv.expr
  | lambda fn => exact scoped_lambda hv _ _ _ fn
  | chain c =>
    refine (scoped_chain hv (scoped_lambda hv) (m := .read) (List.nil_subset _)).bind fun r => tells_pure ?_
    obtain ⟨c, t⟩ := r
    rw [mentions_chain]
    exact List.subset_append_left _ _
  | unary span op x => exact scoped_unary hv
  | binary span op x y => exact scoped_binary hv
  | cast | asType | isType => exact scoped_cast hv
  | new span type is => exact scoped_new hv
  | collection span xs => exact scoped_collection hv

end Expressions

end Weft.Analysis
