import Weft.Proofs.Tree.Reading

/-!
# Trees of source texts

What holds of every tree that is read from a source text: functions and methods of classes have bodies, and the names
of declarations have no points.
-/

namespace Weft.Tree

mutual

/-- Every function and every method of a class in a declaration has a body. -/
def Decl.Bodied : Decl → Prop
  | .space _ _ decls => bodiedDecls decls
  | .func d => d.body.isSome = true
  | .cls d => ∀ m ∈ d.methods, m.body.isSome = true
  | .iface _ | .enumeration _ | .var _ => True

/-- Every function and every method of a class in a list of declarations has a body. -/
def bodiedDecls : List Decl → Prop
  | [] => True
  | d :: ds => d.Bodied ∧ bodiedDecls ds

end

mutual

/-- The names that a declaration declares have no points. -/
def Decl.Named : Decl → Prop
  | .space _ path decls => (∀ n ∈ path, Dotless n) ∧ namedDecls decls
  | .func d => Dotless d.name
  | .cls d => Dotless d.name ∧ (∀ f ∈ d.fields, Dotless f.name) ∧ ∀ m ∈ d.methods, Dotless m.name
  | .iface d => Dotless d.name ∧ ∀ m ∈ d.methods, Dotless m.name
  | .enumeration d => Dotless d.name ∧ ∀ i ∈ d.items, Dotless i.name
  | .var d => ∀ v ∈ d.vars, Dotless v.1

/-- The names that a list of declarations declares have no points. -/
def namedDecls : List Decl → Prop
  | [] => True
  | d :: ds => d.Named ∧ namedDecls ds

end

theorem bodiedDecls_iff {ds : List Decl} : bodiedDecls ds ↔ ∀ d ∈ ds, d.Bodied := by
  induction ds with
  | nil => simp [bodiedDecls]
  | cons d ds ih => simp [bodiedDecls, ih]

theorem namedDecls_iff {ds : List Decl} : namedDecls ds ↔ ∀ d ∈ ds, d.Named := by
  induction ds with
  | nil => simp [namedDecls]
  | cons d ds ih => simp [namedDecls, ih]

/-- The readers of a level keep the names to come, and declarations are read with their names and bodies. -/
structure Grammar.Sound (g : Grammar) : Prop where
  type : Keeps g.type
  unary : Keeps g.unary
  binary : ∀ n, Keeps (g.binary n)
  block : Keeps g.block
  cond : Keeps g.cond
  stmt : Keeps g.stmt
  decl : Reads (fun d => d.Named ∧ d.Bodied) g.decl

namespace Grammar

open Parse

variable {g : Grammar}

/-! ## Types -/

theorem keeps_dottedRest (n : Nat) : Keeps (dottedRest n) := by
  induction n with
  | zero => exact keeps_pure
  | succ n ih =>
    refine (keeps_sees _).bind fun a _ => (keeps_seesNext _).bind fun b _ => ?_
    split
    · exact keeps_advance.bind fun _ _ => reads_current.keeps.bind fun _ _ => keeps_advance.bind fun _ _ =>
        ih.bind fun _ _ => keeps_pure
    · exact keeps_pure

theorem Sound.paramType (h : g.Sound) : Keeps g.paramType :=
  (keeps_accept _).bind fun _ _ => h.type.bind fun _ _ => keeps_pure

theorem Sound.returnTypes (h : g.Sound) : Keeps g.returnTypes := by
  refine (keeps_sees _).bind fun _ _ => ?_
  split
  · exact keeps_pure
  · exact keeps_commaList h.type

theorem Sound.typeStep (h : g.Sound) : Keeps g.typeStep := by
  refine keeps_here.bind fun start _ => reads_current.keeps.bind fun t _ => ?_
  have hfunc : Keeps (do
      let coro ← accept .kwCoro
      let _ ← expect .kwFunc
      let returns ← g.returnTypes
      let _ ← expect .lparen
      let params ← listUntil .rparen g.paramType
      let _ ← expect .rparen
      return TypeExpr.func (← spanFrom start) coro returns params) :=
    (keeps_accept _).bind fun _ _ => (keeps_expect _).bind fun _ _ => h.returnTypes.bind fun _ _ =>
      (keeps_expect _).bind fun _ _ => (keeps_listUntil h.paramType).bind fun _ _ =>
      (keeps_expect _).bind fun _ _ => (keeps_spanFrom _).bind fun _ _ => keeps_pure
  split
  · refine keeps_advance.bind fun _ _ => (keeps_accept _).bind fun _ _ => ?_
    split
    · exact h.type.bind fun _ _ => (keeps_spanFrom _).bind fun _ _ => keeps_pure
    · exact h.type.bind fun _ _ => (keeps_expect _).bind fun _ _ => h.type.bind fun _ _ =>
        (keeps_spanFrom _).bind fun _ _ => keeps_pure
  · exact hfunc
  · exact hfunc
  · exact keeps_advance.bind fun _ _ => keeps_rounds.bind fun _ _ => (keeps_dottedRest _).bind fun _ _ =>
      (keeps_spanFrom _).bind fun _ _ => keeps_pure
  · exact reads_fail _

theorem keeps_startsVarDecl : Keeps g.startsVarDecl := by
  refine reads_current.keeps.bind fun _ _ => ?_
  dsimp only
  split
  · exact keeps_lookahead.bind fun _ _ => keeps_pure
  · exact keeps_pure

/-! ## Expressions -/

theorem Sound.expr (h : g.Sound) : Keeps g.expr := h.binary 0

theorem Sound.param (h : g.Sound) : Keeps g.param := by
  refine keeps_here.bind fun _ _ => (keeps_accept _).bind fun _ _ => h.type.bind fun _ _ =>
    reads_expectName.keeps.bind fun _ _ => (keeps_accept _).bind fun _ _ => ?_
  split
  · exact h.expr.map_keeps.bind fun _ _ => (keeps_spanFrom _).bind fun _ _ => keeps_pure
  · exact keeps_pure.bind fun _ _ => (keeps_spanFrom _).bind fun _ _ => keeps_pure

theorem Sound.params (h : g.Sound) : Keeps g.params :=
  (keeps_expect _).bind fun _ _ => (keeps_listUntil h.param).bind fun _ _ =>
    (keeps_expect _).bind fun _ _ => keeps_pure

theorem Sound.lambda (h : g.Sound) : Keeps g.lambda :=
  keeps_here.bind fun _ _ => (keeps_accept _).bind fun _ _ => (keeps_expect _).bind fun _ _ =>
    h.returnTypes.bind fun _ _ => h.params.bind fun _ _ => h.block.bind fun _ _ =>
    (keeps_spanFrom _).bind fun _ _ => keeps_pure

theorem keeps_integer : Keeps integer := by
  refine reads_current.keeps.bind fun t _ => ?_
  split
  · split
    · exact keeps_advance.bind fun _ _ => keeps_pure
    · exact reads_fail _
  · exact reads_fail _

theorem Sound.argument (h : g.Sound) : Keeps g.argument := by
  refine keeps_here.bind fun _ _ => (keeps_accept _).bind fun _ _ => (keeps_sees _).bind fun _ _ =>
    (keeps_seesNext _).bind fun _ _ => ?_
  split
  · exact reads_current.keeps.bind fun _ _ => keeps_advance.bind fun _ _ => keeps_advance.bind fun _ _ =>
      keeps_pure.bind fun _ _ => h.expr.bind fun _ _ => (keeps_spanFrom _).bind fun _ _ => keeps_pure
  · exact keeps_pure.bind fun _ _ => h.expr.bind fun _ _ => (keeps_spanFrom _).bind fun _ _ => keeps_pure

theorem Sound.chainItems (h : g.Sound) (n : Nat) : Keeps (g.chainItems n) := by
  induction n with
  | zero => exact keeps_pure
  | succ n ih =>
    refine keeps_here.bind fun _ _ => reads_current.keeps.bind fun t _ => ?_
    split
    · exact keeps_advance.bind fun _ _ => (keeps_listUntil h.argument).bind fun _ _ => (keeps_expect _).bind fun _ _ =>
        (keeps_spanFrom _).bind fun _ _ => ih.bind fun _ _ => keeps_pure
    · exact keeps_advance.bind fun _ _ => reads_expectName.keeps.bind fun _ _ => (keeps_spanFrom _).bind fun _ _ =>
        ih.bind fun _ _ => keeps_pure
    · exact keeps_advance.bind fun _ _ => h.expr.bind fun _ _ => (keeps_expect _).bind fun _ _ =>
        (keeps_spanFrom _).bind fun _ _ => ih.bind fun _ _ => keeps_pure
    · exact keeps_pure

theorem Sound.chain (h : g.Sound) (start : Pos) (root : Root) : Keeps (g.chain start root) :=
  keeps_rounds.bind fun _ _ => (h.chainItems _).bind fun _ _ => (keeps_spanFrom _).bind fun _ _ => keeps_pure

theorem Sound.chainOr (h : g.Sound) (start : Pos) (root : Root) (alone : Expr) :
    Keeps (g.chainOr start root alone) := by
  refine keeps_rounds.bind fun _ _ => (h.chainItems _).bind fun _ _ => ?_
  split
  · exact keeps_pure
  · exact (keeps_spanFrom _).bind fun _ _ => keeps_pure

theorem Sound.fieldInit (h : g.Sound) : Keeps g.fieldInit :=
  keeps_here.bind fun _ _ => reads_expectName.keeps.bind fun _ _ => (keeps_expect _).bind fun _ _ =>
    h.expr.bind fun _ _ => (keeps_spanFrom _).bind fun _ _ => keeps_pure

theorem Sound.operand (h : g.Sound) : Keeps g.operand := by
  refine keeps_here.bind fun start _ => reads_current.keeps.bind fun t _ => ?_
  have hfunc : Keeps (do
      let fn ← g.lambda
      g.chainOr start (.lambda fn) (.lambda fn)) := h.lambda.bind fun _ _ => h.chainOr _ _ _
  have hbool : Keeps (do
      advance
      return Expr.bool (← spanFrom start) (t.kind = .kwTrue)) :=
    keeps_advance.bind fun _ _ => (keeps_spanFrom _).bind fun _ _ => keeps_pure
  split
  · exact keeps_integer.bind fun _ _ => keeps_pure
  · split
    · exact keeps_advance.bind fun _ _ => (keeps_spanFrom _).bind fun _ _ => keeps_pure
    · exact reads_fail _
  · exact keeps_advance.bind fun _ _ => (keeps_spanFrom _).bind fun _ _ => keeps_pure
  · exact hbool
  · exact hbool
  · exact keeps_advance.bind fun _ _ => (keeps_spanFrom _).bind fun _ _ => keeps_pure
  · exact keeps_advance.bind fun _ _ => (keeps_spanFrom _).bind fun _ _ => h.chain _ _
  · exact keeps_advance.bind fun _ _ => (keeps_spanFrom _).bind fun _ _ => h.chain _ _
  · exact keeps_advance.bind fun _ _ => (keeps_spanFrom _).bind fun _ _ => h.chain _ _
  · exact keeps_advance.bind fun _ _ => h.expr.bind fun _ _ => (keeps_expect _).bind fun _ _ =>
      (keeps_spanFrom _).bind fun _ _ => h.chainOr _ _ _
  · exact hfunc
  · exact hfunc
  · refine keeps_advance.bind fun _ _ => h.type.bind fun _ _ => (keeps_accept _).bind fun _ _ => ?_
    split
    · exact (keeps_listUntil h.fieldInit).bind fun _ _ => (keeps_expect _).bind fun _ _ => keeps_pure.bind fun _ _ =>
        (keeps_spanFrom _).bind fun _ _ => keeps_pure
    · exact keeps_pure.bind fun _ _ => (keeps_spanFrom _).bind fun _ _ => keeps_pure
  · exact keeps_advance.bind fun _ _ => (keeps_listUntil h.expr).bind fun _ _ => (keeps_expect _).bind fun _ _ =>
      (keeps_spanFrom _).bind fun _ _ => keeps_pure
  · exact reads_fail _

theorem Sound.castType (h : g.Sound) : Keeps g.castType := by
  refine (reads_attempt (Q := fun _ => True) ?_).keeps
  refine (keeps_expect _).bind fun _ _ => h.type.bind fun _ _ => (keeps_expect _).bind fun _ _ =>
    reads_current.keeps.bind fun _ _ => ?_
  split
  · exact keeps_pure
  · exact reads_failure

theorem Sound.unaryStep (h : g.Sound) : Keeps g.unaryStep := by
  refine keeps_here.bind fun _ _ => reads_current.keeps.bind fun _ _ => ?_
  split
  · exact keeps_advance.bind fun _ _ => h.unary.bind fun _ _ => (keeps_spanFrom _).bind fun _ _ => keeps_pure
  · exact keeps_advance.bind fun _ _ => h.unary.bind fun _ _ => (keeps_spanFrom _).bind fun _ _ => keeps_pure
  · refine h.castType.bind fun _ _ => ?_
    split
    · exact h.unary.bind fun _ _ => (keeps_spanFrom _).bind fun _ _ => keeps_pure
    · exact h.operand
  · exact h.operand

theorem Sound.binaryRest (h : g.Sound) (least : Nat) (x : Expr) (n : Nat) : Keeps (g.binaryRest least x n) := by
  induction n generalizing x with
  | zero => exact keeps_pure
  | succ n ih =>
    refine reads_current.keeps.bind fun _ _ => ?_
    split
    · exact keeps_pure
    · split
      · exact keeps_pure
      · refine keeps_advance.bind fun _ _ => ?_
        dsimp only
        split
        · exact h.type.bind fun _ _ => (keeps_spanFrom _).bind fun _ _ => ih _
        · exact h.type.bind fun _ _ => (keeps_spanFrom _).bind fun _ _ => ih _
        · exact (h.binary _).bind fun _ _ => (keeps_spanFrom _).bind fun _ _ => ih _

theorem Sound.binaryStep (h : g.Sound) (least : Nat) : Keeps (g.binaryStep least) :=
  h.unaryStep.bind fun _ _ => keeps_rounds.bind fun _ _ => h.binaryRest _ _ _

theorem Sound.exprStep (h : g.Sound) : Keeps g.exprStep := h.binaryStep 0

/-! ## Statements -/

theorem Sound.declared (h : g.Sound) : Reads (fun v => Dotless v.1) g.declared := by
  refine (keeps_accept _).bind fun _ _ => ?_
  split
  · exact keeps_pure.bind fun _ _ => reads_expectName.bind fun _ hn => reads_pure hn
  · exact h.typeStep.map_keeps.bind fun _ _ => reads_expectName.bind fun _ hn => reads_pure hn

theorem Sound.varDecl (h : g.Sound) (start : Pos) (fileLocal semicolon : Bool) :
    Reads (fun d => ∀ v ∈ d.vars, Dotless v.1) (g.varDecl start fileLocal semicolon) := by
  refine (reads_commaList h.declared).bind fun vars hvars => (keeps_accept _).bind fun _ _ => ?_
  cases semicolon <;> dsimp only [Bool.false_eq_true, if_false, if_true] <;> split
  · exact h.expr.map_keeps.bind fun _ _ => (keeps_spanFrom _).bind fun _ _ => reads_pure hvars
  · exact keeps_pure.bind fun _ _ => (keeps_spanFrom _).bind fun _ _ => reads_pure hvars
  · exact h.expr.map_keeps.bind fun _ _ => (keeps_expect _).bind fun _ _ => (keeps_spanFrom _).bind fun _ _ =>
      reads_pure hvars
  · exact keeps_pure.bind fun _ _ => (keeps_expect _).bind fun _ _ => (keeps_spanFrom _).bind fun _ _ =>
      reads_pure hvars

theorem Sound.simpleStmt (h : g.Sound) : Keeps g.simpleStmt := by
  refine keeps_here.bind fun _ _ => (keeps_sees _).bind fun _ _ => keeps_startsVarDecl.bind fun _ _ => ?_
  split
  · exact (h.varDecl _ _ _).keeps.bind fun _ _ => keeps_pure
  · refine (keeps_commaList h.exprStep).bind fun _ _ => reads_current.keeps.bind fun _ _ => ?_
    split
    · refine keeps_advance.bind fun _ _ => h.expr.bind fun _ _ => ?_
      split
      · exact reads_fail_bind
      · exact (keeps_spanFrom _).bind fun _ _ => keeps_pure
    · split
      · exact (keeps_spanFrom _).bind fun _ _ => keeps_pure
      · exact reads_current.keeps.bind fun _ _ => reads_fail _

theorem Sound.parenCond (h : g.Sound) : Keeps g.parenCond :=
  (keeps_expect _).bind fun _ _ => h.expr.bind fun _ _ => (keeps_expect _).bind fun _ _ => keeps_pure

theorem Sound.blockStep (h : g.Sound) : Keeps g.blockStep :=
  keeps_here.bind fun _ _ => (keeps_expect _).bind fun _ _ => (keeps_blockItems h.stmt).bind fun _ _ =>
    (keeps_expect _).bind fun _ _ => (keeps_spanFrom _).bind fun _ _ => keeps_pure

theorem Sound.condStep (h : g.Sound) : Keeps g.condStep := by
  refine keeps_here.bind fun _ _ => (keeps_expect _).bind fun _ _ => h.parenCond.bind fun _ _ =>
    h.block.bind fun _ _ => (keeps_accept _).bind fun _ _ => ?_
  split
  · refine (keeps_sees _).bind fun _ _ => ?_
    split
    · exact h.cond.map_keeps.bind fun _ _ => (keeps_spanFrom _).bind fun _ _ => keeps_pure
    · exact h.block.map_keeps.bind fun _ _ => (keeps_spanFrom _).bind fun _ _ => keeps_pure
  · exact keeps_pure.bind fun _ _ => (keeps_spanFrom _).bind fun _ _ => keeps_pure

theorem keeps_optionalUntil {α : Type} {close : Kind} {p : Parse α} (hp : Keeps p) : Keeps (optionalUntil close p) := by
  refine (keeps_sees _).bind fun _ _ => ?_
  split
  · exact keeps_pure
  · exact hp.map_keeps

theorem Sound.forLoop (h : g.Sound) : Keeps g.forLoop :=
  keeps_here.bind fun _ _ => (keeps_expect _).bind fun _ _ => (keeps_expect _).bind fun _ _ =>
    (keeps_optionalUntil h.simpleStmt).bind fun _ _ => (keeps_expect _).bind fun _ _ =>
    (keeps_optionalUntil h.expr).bind fun _ _ => (keeps_expect _).bind fun _ _ =>
    (keeps_optionalUntil h.simpleStmt).bind fun _ _ => (keeps_expect _).bind fun _ _ =>
    h.block.bind fun _ _ => (keeps_spanFrom _).bind fun _ _ => keeps_pure

theorem Sound.yieldRest (h : g.Sound) (start : Pos) : Keeps (g.yieldRest start) := by
  refine (keeps_accept _).bind fun _ _ => ?_
  split
  · exact (keeps_spanFrom _).bind fun _ _ => keeps_pure
  · refine (keeps_accept _).bind fun _ _ => ?_
    split
    · exact h.parenCond.bind fun _ _ => (keeps_expect _).bind fun _ _ => (keeps_spanFrom _).bind fun _ _ => keeps_pure
    · exact h.expr.bind fun _ _ => (keeps_expect _).bind fun _ _ => (keeps_spanFrom _).bind fun _ _ => keeps_pure

theorem Sound.stmtStep (h : g.Sound) : Keeps g.stmtStep := by
  refine keeps_here.bind fun _ _ => reads_current.keeps.bind fun _ _ => ?_
  dsimp only
  split
  · exact h.blockStep.bind fun _ _ => keeps_pure
  · exact (h.varDecl _ _ _).keeps.bind fun _ _ => keeps_pure
  · refine keeps_advance.bind fun _ _ => (keeps_sees _).bind fun _ _ => ?_
    split
    · exact keeps_pure.bind fun _ _ => (keeps_expect _).bind fun _ _ => (keeps_spanFrom _).bind fun _ _ => keeps_pure
    · exact (keeps_commaList h.expr).bind fun _ _ => (keeps_expect _).bind fun _ _ =>
        (keeps_spanFrom _).bind fun _ _ => keeps_pure
  · exact keeps_advance.bind fun _ _ => (keeps_expect _).bind fun _ _ => (keeps_spanFrom _).bind fun _ _ => keeps_pure
  · exact keeps_advance.bind fun _ _ => (keeps_expect _).bind fun _ _ => (keeps_spanFrom _).bind fun _ _ => keeps_pure
  · exact h.condStep.bind fun _ _ => keeps_pure
  · exact keeps_advance.bind fun _ _ => h.parenCond.bind fun _ _ => h.block.bind fun _ _ =>
      (keeps_spanFrom _).bind fun _ _ => keeps_pure
  · exact keeps_advance.bind fun _ _ => h.block.bind fun _ _ => (keeps_expect _).bind fun _ _ =>
      h.parenCond.bind fun _ _ => (keeps_expect _).bind fun _ _ => (keeps_spanFrom _).bind fun _ _ => keeps_pure
  · exact h.forLoop
  · exact keeps_advance.bind fun _ _ => h.yieldRest _
  · split
    · exact keeps_advance.bind fun _ _ => h.block.bind fun _ _ => (keeps_spanFrom _).bind fun _ _ => keeps_pure
    · exact h.simpleStmt.bind fun _ _ => (keeps_expect _).bind fun _ _ => keeps_pure

/-! ## Declarations -/

theorem keeps_modifiers (m : Modifiers) (n : Nat) : Keeps (modifiers m n) := by
  induction n generalizing m with
  | zero => exact keeps_pure
  | succ n ih =>
    refine (keeps_accept _).bind fun _ _ => ?_
    split
    · exact ih _
    · refine (keeps_accept _).bind fun _ _ => ?_
      split
      · exact ih _
      · refine (keeps_accept _).bind fun _ _ => ?_
        split
        · exact ih _
        · exact keeps_pure

theorem keeps_seesFunc : Keeps seesFunc := (keeps_sees _).bind fun _ _ => (keeps_sees _).bind fun _ _ => keeps_pure

theorem keeps_startsFunc : Keeps g.startsFunc := by
  refine keeps_seesFunc.bind fun _ _ => ?_
  split
  · exact keeps_startsVarDecl.bind fun _ _ => keeps_pure
  · exact keeps_pure

theorem Sound.funcHeader (h : g.Sound) : Reads (fun r => Dotless r.2) g.funcHeader := by
  have hplain : Reads (fun r : List TypeExpr × String => Dotless r.2) (do
      let returns ← commaList g.type
      return (returns, ← expectName)) :=
    (keeps_commaList h.type).bind fun _ _ => reads_expectName.bind fun _ hn => reads_pure hn
  intro c hc
  -- the name of a function without return types is the token that was seen before
  by_cases hseen : (decide (c.current.kind = .ident) && decide (c.following.kind = .lparen)) = true
  · have hname : g.funcHeader c = (some ([], c.current.text), c.advance) := by
      change (if _ then _ else _ : Parse (List TypeExpr × String)) c = _
      rw [if_pos hseen]
      rfl
    rw [hname]
    have hk : c.current.kind = .ident := by simp_all
    exact ⟨hc.advance, fun x hx => by cases hx; exact hc.current hk⟩
  · have hheader : g.funcHeader c = (do
        let returns ← commaList g.type
        return (returns, ← expectName) : Parse _) c := by
      change (if _ then _ else _ : Parse (List TypeExpr × String)) c = _
      rw [if_neg hseen]
    rw [hheader]
    exact hplain c hc

theorem Sound.funcDecl (h : g.Sound) (start : Pos) (m : Modifiers) (withBody : Bool) :
    Reads (fun d => Dotless d.name ∧ (withBody = true → d.body.isSome = true)) (g.funcDecl start m withBody) := by
  refine (keeps_accept _).bind fun _ _ => (keeps_expect _).bind fun _ _ => h.funcHeader.bind fun (returns, name) hn =>
    h.params.bind fun _ _ => ?_
  split
  · next hbody =>
    refine (h.block.map (R := fun b => b.isSome = true) fun _ _ => rfl).bind fun _ hb => ?_
    exact (keeps_spanFrom _).bind fun _ _ => reads_pure ⟨hn, fun _ => hb⟩
  · next hbody =>
    exact (keeps_expect _).bind fun _ _ => keeps_pure.bind fun _ _ => (keeps_spanFrom _).bind fun _ _ =>
      reads_pure ⟨hn, fun h => absurd h hbody⟩

theorem Sound.bases (h : g.Sound) : Keeps g.bases := by
  refine (keeps_accept _).bind fun _ _ => ?_
  split
  · exact keeps_commaList h.type
  · exact keeps_pure

/-- What holds of a member of a class that is read. -/
def GoodMember : FieldDecl ⊕ FuncDecl → Prop
  | .inl f => Dotless f.name
  | .inr d => Dotless d.name ∧ d.body.isSome = true

theorem Sound.classMember (h : g.Sound) : Reads GoodMember g.classMember := by
  refine keeps_here.bind fun start _ => keeps_rounds.bind fun _ _ => (keeps_modifiers _ _).bind fun m _ => ?_
  obtain ⟨isStatic, isVirtual, isOverride⟩ := m
  cases isStatic with
  | true => exact reads_fail_bind
  | false =>
    refine keeps_startsFunc.bind fun _ _ => ?_
    split
    · exact (h.funcDecl _ _ _).bind fun _ hd => reads_pure ⟨hd.1, hd.2 rfl⟩
    · split
      · exact reads_current.keeps.bind fun _ _ => reads_fail_bind
      · exact h.type.bind fun _ _ => reads_expectName.bind fun _ hn => (keeps_expect _).bind fun _ _ =>
          (keeps_spanFrom _).bind fun _ _ => reads_pure hn

theorem Sound.classDecl (h : g.Sound) (start : Pos) (fileLocal : Bool) :
    Reads (fun d => (Decl.cls d).Named ∧ (Decl.cls d).Bodied) (g.classDecl start fileLocal) := by
  refine (keeps_expect _).bind fun _ _ => reads_expectName.bind fun name hname => h.bases.bind fun _ _ =>
    (keeps_expect _).bind fun _ _ => (reads_blockItems h.classMember).bind fun members hmembers =>
    (keeps_expect _).bind fun _ _ => (keeps_spanFrom _).bind fun _ _ => reads_pure ?_
  have hfields : ∀ f ∈ members.filterMap Sum.getLeft?, Dotless f.name := by
    intro f hf
    obtain ⟨m, hm, hmf⟩ := List.mem_filterMap.mp hf
    obtain rfl : m = .inl f := by simpa using hmf
    exact hmembers _ hm
  have hmethods : ∀ d ∈ members.filterMap Sum.getRight?, Dotless d.name ∧ d.body.isSome = true := by
    intro d hd
    obtain ⟨m, hm, hmd⟩ := List.mem_filterMap.mp hd
    obtain rfl : m = .inr d := by simpa using hmd
    exact hmembers _ hm
  rw [Decl.Named, Decl.Bodied]
  exact ⟨⟨hname, hfields, fun d hd => (hmethods d hd).1⟩, fun d hd => (hmethods d hd).2⟩

theorem Sound.interfaceMember (h : g.Sound) : Reads (fun d => Dotless d.name) g.interfaceMember := by
  refine keeps_here.bind fun _ _ => keeps_rounds.bind fun _ _ => (keeps_modifiers _ _).bind fun _ _ => ?_
  split
  · exact reads_fail_bind
  · exact (h.funcDecl _ _ _).imp fun _ hd => hd.1

theorem Sound.interfaceDecl (h : g.Sound) : Reads (fun d => (Decl.iface d).Named) g.interfaceDecl := by
  refine keeps_here.bind fun _ _ => (keeps_expect _).bind fun _ _ => reads_expectName.bind fun name hname =>
    h.bases.bind fun _ _ => (keeps_expect _).bind fun _ _ =>
    (reads_blockItems h.interfaceMember).bind fun methods hmethods =>
    (keeps_expect _).bind fun _ _ => (keeps_spanFrom _).bind fun _ _ => reads_pure ?_
  rw [Decl.Named]
  exact ⟨hname, hmethods⟩

theorem reads_enumItem : Reads (fun i => Dotless i.name) enumItem :=
  keeps_here.bind fun _ _ => reads_expectName.bind fun _ hn => (keeps_expect _).bind fun _ _ =>
    (keeps_accept _).bind fun _ _ => keeps_integer.bind fun _ _ => (keeps_spanFrom _).bind fun _ _ => reads_pure hn

theorem reads_enumDecl : Reads (fun d => (Decl.enumeration d).Named) enumDecl := by
  refine keeps_here.bind fun _ _ => (keeps_expect _).bind fun _ _ => reads_expectName.bind fun name hname =>
    (keeps_expect _).bind fun _ _ => (reads_listUntil reads_enumItem).bind fun items hitems =>
    (keeps_expect _).bind fun _ _ => (keeps_spanFrom _).bind fun _ _ => reads_pure ?_
  rw [Decl.Named]
  exact ⟨hname, hitems⟩

theorem Sound.spaceDecl (h : g.Sound) : Reads (fun d => d.Named ∧ d.Bodied) g.spaceDecl := by
  refine keeps_here.bind fun _ _ => (keeps_expect _).bind fun _ _ => keeps_rounds.bind fun _ _ =>
    (reads_items reads_expectName _).bind fun path hpath => (keeps_expect _).bind fun _ _ =>
    (reads_blockItems h.decl).bind fun decls hdecls =>
    (keeps_expect _).bind fun _ _ => (keeps_spanFrom _).bind fun _ _ => reads_pure ?_
  rw [Decl.Named, Decl.Bodied, namedDecls_iff, bodiedDecls_iff]
  exact ⟨⟨hpath, fun d hd => (hdecls d hd).1⟩, fun d hd => (hdecls d hd).2⟩

theorem Sound.plainDecl (h : g.Sound) : Reads (fun d => d.Named ∧ d.Bodied) g.plainDecl := by
  refine keeps_here.bind fun _ _ => keeps_rounds.bind fun _ _ => (keeps_modifiers _ _).bind fun m _ =>
    (keeps_sees _).bind fun _ _ => ?_
  split
  · split
    · exact reads_fail_bind
    · exact (h.classDecl _ _).bind fun _ hd => reads_pure hd
  · refine keeps_startsFunc.bind fun _ _ => ?_
    split
    · refine (h.funcDecl _ _ _).bind fun _ hd => reads_pure ?_
      rw [Decl.Named, Decl.Bodied]
      exact ⟨hd.1, hd.2 rfl⟩
    · split
      · exact reads_current.keeps.bind fun _ _ => reads_fail_bind
      · refine (h.varDecl _ _ _).bind fun _ hd => reads_pure ?_
        rw [Decl.Named, Decl.Bodied]
        exact ⟨hd, True.intro⟩

theorem Sound.declStep (h : g.Sound) : Reads (fun d => d.Named ∧ d.Bodied) g.declStep := by
  refine reads_current.keeps.bind fun _ _ => ?_
  split
  · exact h.spaceDecl
  · refine h.interfaceDecl.bind fun _ hd => reads_pure ⟨hd, ?_⟩
    rw [Decl.Bodied]
    exact True.intro
  · refine reads_enumDecl.bind fun _ hd => reads_pure ⟨hd, ?_⟩
    rw [Decl.Bodied]
    exact True.intro
  · exact h.plainDecl

/-! ## Levels of nesting -/

theorem Sound.step (h : g.Sound) : g.step.Sound where
  type := h.typeStep
  unary := h.unaryStep
  binary := h.binaryStep
  block := h.blockStep
  cond := h.condStep
  stmt := h.stmtStep
  decl := h.declStep

theorem sound_empty : empty.Sound :=
  ⟨reads_failure, reads_failure, fun _ => reads_failure, reads_failure, reads_failure, reads_failure, reads_failure⟩

theorem sound_levels (n : Nat) : (levels n).Sound := by
  induction n with
  | zero => exact sound_empty
  | succ n ih => exact ih.step

end Grammar

/-! ## Files -/

theorem keeps_importDecl : Keeps importDecl :=
  keeps_here.bind fun _ _ => (keeps_expect _).bind fun _ _ => (keeps_expect _).bind fun _ _ =>
    (keeps_expect _).bind fun _ _ => (keeps_spanFrom _).bind fun _ _ => keeps_pure

theorem Grammar.Sound.fileItem {g : Grammar} (h : g.Sound) :
    Reads (fun i => ∀ d, i = .inr d → d.Named ∧ d.Bodied) (fileItem g) := by
  refine (keeps_sees _).bind fun _ _ => ?_
  split
  · exact keeps_importDecl.bind fun _ _ => reads_pure (by simp)
  · exact h.decl.bind fun _ hd => reads_pure (by rintro _ ⟨⟩; exact hd)

theorem Grammar.Sound.file {g : Grammar} (h : g.Sound) (path : String) :
    Reads (fun f => namedDecls f.decls ∧ bodiedDecls f.decls) (file path g) := by
  refine keeps_here.bind fun _ _ => keeps_rounds.bind fun _ _ =>
    (reads_repeatUntil (reads_guarded h.fileItem) _).bind fun items hitems =>
    reads_current.keeps.bind fun _ _ => reads_pure ?_
  have hdecls : ∀ d ∈ items.filterMap Sum.getRight?, d.Named ∧ d.Bodied := by
    intro d hd
    obtain ⟨i, hi, hid⟩ := List.mem_filterMap.mp hd
    exact hitems i hi d (by simpa using hid)
  exact ⟨namedDecls_iff.mpr fun d hd => (hdecls d hd).1, bodiedDecls_iff.mpr fun d hd => (hdecls d hd).2⟩

end Weft.Tree
