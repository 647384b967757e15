import Weft.Proofs.Tree.Progress

/-!
# How phrases are read

The readers of a level of nesting read at least one token each, never the word for an import, and give up only after
they have noted a problem. They call a lower level only behind a token, so two grammars with more levels than tokens to
come read the same.
-/

namespace Weft.Tree

/-- The kinds of token that stand inside declarations. -/
abbrev Inner (k : Kind) : Prop := k ≠ .kwImport

/-- Two grammars read the same wherever fewer than a number of tokens are to come. -/
structure Grammar.Agrees (n : Nat) (g g' : Grammar) : Prop where
  type : Takes Inner n g.type g'.type
  unary : Takes Inner n g.unary g'.unary
  binary : ∀ least, Takes Inner n (g.binary least) (g'.binary least)
  block : Takes Inner n g.block g'.block
  cond : Takes Inner n g.cond g'.cond
  stmt : Takes Inner n g.stmt g'.stmt
  decl : Takes Inner n g.decl g'.decl

namespace Grammar

open Parse

variable {n : Nat} {g g' : Grammar}

/-! ## Pieces -/

theorem takes_token {k : Kind} (hk : k ≠ .eof ∧ Inner k) : Takes Inner n (expect k) (expect k) :=
  takes_expect hk.1 hk.2

theorem skims_token {k : Kind} (hk : k ≠ .eof ∧ Inner k) : Skims Inner n (expect k) (expect k) :=
  (takes_token hk).skims

theorem skims_option {k : Kind} (hk : k ≠ .eof ∧ Inner k) : Skims Inner n (accept k) (accept k) :=
  skims_accept hk.1 hk.2

theorem takes_name : Takes Inner n expectName expectName := takes_expectName (by decide)

theorem skims_list {α : Type} {close : Kind} {p q : Parse α} (h : Takes Inner n p q) :
    Skims Inner n (listUntil close p) (listUntil close q) :=
  skims_listUntil (by decide) h

theorem takes_list {α : Type} {p q : Parse α} (h : Takes Inner n p q) : Takes Inner n (commaList p) (commaList q) :=
  takes_commaList (by decide) h

theorem takesAt_word {α : Type} {t : Token} {k : Kind} {f f' : Unit → Parse α} (ht : t.kind = k)
    (hk : k ≠ .eof ∧ Inner k) (h : Skims Inner n (f ()) (f' ())) :
    TakesAt Inner t (n + 1) (advance >>= f) (advance >>= f') :=
  takesAt_advance (by rw [ht]; exact hk.1) (by rw [ht]; exact hk.2) h

/-- Two tokens whose kinds are known stand one after the other. -/
theorem exists_rest_pair {c : Cursor} (hc : c.Ended) {k k' : Kind} (hk : k ≠ .eof) (hk' : k' ≠ .eof)
    (h : (decide (c.current.kind = k) && decide (c.following.kind = k')) = true) :
    ∃ t u ts, c.rest = t :: u :: ts ∧ t.kind = k ∧ u.kind = k' := by
  obtain ⟨h₁, h₂⟩ : c.current.kind = k ∧ c.following.kind = k' := by simpa using h
  obtain ⟨ts, hts⟩ := hc.exists_rest_two (by rw [h₁]; exact hk) (by rw [h₂]; exact hk')
  exact ⟨_, _, ts, hts, h₁, h₂⟩

/-! ## Types -/

theorem loopsSkim_dottedRest : LoopsSkim Inner n dottedRest dottedRest := by
  intro c k l hc hn hk hl
  induction k generalizing c l with
  | zero => exact absurd hk (Nat.not_lt_zero _)
  | succ k ih =>
    obtain _ | l := l
    · exact absurd hl (Nat.not_lt_zero _)
    refine (runs_sees _).bind ?_
    rintro _ c' - ⟨rfl, rfl⟩
    refine (runs_seesNext _).bind ?_
    rintro _ c - ⟨rfl, rfl⟩
    split
    · next hpair =>
      obtain ⟨t, u, ts, hrest, ht, hu⟩ := exists_rest_pair hc (by decide) (by decide) hpair
      have hrest' : c.advance.rest = u :: ts := by simp [Cursor.advance, hrest]
      refine (runs_advance hrest (by rw [ht]; decide)).bind ?_
      rintro - _ hleads rfl
      refine runs_current.bind ?_
      rintro _ _ - ⟨rfl, rfl⟩
      refine (runs_advance hrest' (by rw [hu]; decide)).bind ?_
      rintro - _ hleads' rfl
      have hlt := Cursor.length_advance hrest
      have hle := hleads'.length_le
      exact (ih _ l (hleads'.ended (hleads.ended hc)) (by omega) (by omega) (by omega)).bind fun _ _ _ _ =>
        runs_pure True.intro
    · exact runs_pure True.intro

theorem Agrees.paramType (h : Agrees n g g') : Takes Inner n g.paramType g'.paramType :=
  (skims_option (by decide)).takes fun _ => h.type.then fun _ => skims_pure

theorem Agrees.returnTypes (h : Agrees n g g') : Skims Inner n g.returnTypes g'.returnTypes := by
  refine (skims_sees _).bind fun _ => ?_
  split
  · exact skims_pure
  · exact (takes_list h.type).skims

theorem Agrees.typeStep (h : Agrees n g g') : Takes Inner (n + 1) g.typeStep g'.typeStep := by
  refine skims_here.takes fun start => takes_current fun t => ?_
  split
  case h_1 ht =>
    refine takesAt_word ht (by decide) ((skims_option (by decide)).bind fun _ => ?_)
    split
    · exact h.type.skims.bind fun _ => (skims_spanFrom _).bind fun _ => skims_pure
    · exact h.type.skims.bind fun _ => (skims_token (by decide)).bind fun _ => h.type.skims.bind fun _ =>
        (skims_spanFrom _).bind fun _ => skims_pure
  case h_2 | h_3 =>
    refine Takes.at ?_ t
    exact (skims_option (by decide)).takes fun _ => (takes_token (by decide)).bind fun _ => h.returnTypes.bind fun _ =>
      (skims_token (by decide)).bind fun _ => (skims_list h.paramType).bind fun _ =>
      (skims_token (by decide)).bind fun _ => (skims_spanFrom _).bind fun _ => skims_pure
  case h_4 ht =>
    exact takesAt_word ht (by decide) <| skims_rounds <| loopsSkim_dottedRest.bind fun _ =>
      (skims_spanFrom _).bind fun _ => skims_pure
  case h_5 => exact (takes_fail _).at t

theorem Agrees.startsVarDecl (h : Agrees n g g') : Skims Inner (n + 1) g.startsVarDecl g'.startsVarDecl := by
  refine skims_current.bind fun _ => ?_
  dsimp only
  split
  · refine (skims_lookahead ?_).bind fun _ => skims_pure
    exact h.typeStep.skims.bind fun _ => skims_get.bind fun _ => (skims_sees _).bind fun _ => skims_pure
  · exact skims_pure

/-! ## Expressions -/

theorem Agrees.mono {m : Nat} (h : Agrees n g g') (hm : m ≤ n) : Agrees m g g' where
  type := h.type.mono hm
  unary := h.unary.mono hm
  binary least := (h.binary least).mono hm
  block := h.block.mono hm
  cond := h.cond.mono hm
  stmt := h.stmt.mono hm
  decl := h.decl.mono hm

theorem Agrees.expr (h : Agrees n g g') : Takes Inner n g.expr g'.expr := h.binary 0

theorem Agrees.param (h : Agrees n g g') : Takes Inner n g.param g'.param := by
  refine skims_here.takes fun _ => (skims_option (by decide)).takes fun _ => h.type.then fun _ =>
    takes_name.skims.bind fun _ => (skims_option (by decide)).bind fun _ => ?_
  split
  · exact h.expr.skims.map.bind fun _ => (skims_spanFrom _).bind fun _ => skims_pure
  · exact skims_pure.bind fun _ => (skims_spanFrom _).bind fun _ => skims_pure

theorem Agrees.params (h : Agrees n g g') : Skims Inner n g.params g'.params :=
  (skims_token (by decide)).bind fun _ => (skims_list h.param).bind fun _ =>
    (skims_token (by decide)).bind fun _ => skims_pure

theorem Agrees.lambda (h : Agrees n g g') : Takes Inner (n + 1) g.lambda g'.lambda :=
  skims_here.takes fun _ => (skims_option (by decide)).takes fun _ => (takes_token (by decide)).bind fun _ =>
    h.returnTypes.bind fun _ => h.params.bind fun _ => h.block.skims.bind fun _ =>
    (skims_spanFrom _).bind fun _ => skims_pure

theorem takes_integer : Takes Inner (n + 1) integer integer := by
  refine takes_current fun t => ?_
  split
  · next ht =>
    split
    · exact takesAt_word ht (by decide) skims_pure
    · exact (takes_fail _).at t
  · exact (takes_fail _).at t

theorem Agrees.argument (h : Agrees n g g') : Takes Inner n g.argument g'.argument := by
  refine skims_here.takes fun start => (skims_option (by decide)).takes fun ref => ?_
  have hvalue : ∀ name : Option String, Takes Inner n
      (pure name >>= fun name => g.expr >>= fun value => spanFrom start >>= fun span => pure (Arg.mk span ref name value))
      (pure name >>= fun name => g'.expr >>= fun value => spanFrom start >>= fun span =>
        pure (Arg.mk span ref name value)) :=
    fun name => skims_pure.takes fun _ => h.expr.then fun _ => (skims_spanFrom _).bind fun _ => skims_pure
  intro c hc hlen
  refine (runs_sees _).bind ?_
  rintro _ c' - ⟨rfl, rfl⟩
  refine (runs_seesNext _).bind ?_
  rintro _ c - ⟨rfl, rfl⟩
  split
  · next hpair =>
    obtain ⟨t, u, ts, hrest, ht, hu⟩ := exists_rest_pair hc (by decide) (by decide) hpair
    have hrest' : c.advance.rest = u :: ts := by simp [Cursor.advance, hrest]
    refine runs_current.bind ?_
    rintro _ _ - ⟨rfl, rfl⟩
    refine (runs_advance hrest (by rw [ht]; decide)).bind ?_
    rintro - _ hleads rfl
    refine (runs_advance hrest' (by rw [hu]; decide)).bind ?_
    rintro - _ hleads' rfl
    have hle := hleads.length_le
    have hle' := hleads'.length_le
    exact (hvalue _ _ (hleads'.ended (hleads.ended hc)) (by omega)).imp fun _ _ _ hlt => by omega
  · exact hvalue none c hc hlen

theorem Agrees.chainItems (h : Agrees n g g') : LoopsSkim Inner n g.chainItems g'.chainItems := by
  intro c k l hc hn hk hl
  induction k generalizing c l with
  | zero => exact absurd hk (Nat.not_lt_zero _)
  | succ k ih =>
    obtain _ | l := l
    · exact absurd hl (Nat.not_lt_zero _)
    -- behind a token, fewer tokens are to come than here
    have hinner := h.mono (Nat.le_of_lt hn)
    have hmore : Skims Inner c.rest.length (g.chainItems k) (g'.chainItems l) :=
      fun c' hc' hlt => ih c' l hc' (by omega) (by omega) (by omega)
    have htail : ∀ (start : Pos) (item : Span → Item), Skims Inner c.rest.length
        (spanFrom start >>= fun span => g.chainItems k >>= fun more => pure (item span :: more))
        (spanFrom start >>= fun span => g'.chainItems l >>= fun more => pure (item span :: more)) :=
      fun _ _ => (skims_spanFrom _).bind fun _ => hmore.bind fun _ => skims_pure
    suffices hstep : Skims Inner (c.rest.length + 1) (g.chainItems (k + 1)) (g'.chainItems (l + 1)) from
      hstep c hc (Nat.lt_succ_self _)
    refine skims_here.bind fun start => skims_current_of fun t => ?_
    split
    case h_1 ht =>
      exact (takesAt_word ht (by decide) <| (skims_list hinner.argument).bind fun args =>
        (skims_token (by decide)).bind fun _ => htail start fun span => .call ⟨span, args⟩).skims
    case h_2 ht =>
      exact (takesAt_word ht (by decide) <| takes_name.skims.bind fun name =>
        htail start fun span => .member span name).skims
    case h_3 ht =>
      exact (takesAt_word ht (by decide) <| hinner.expr.skims.bind fun x =>
        (skims_token (by decide)).bind fun _ => htail start fun span => .index span x).skims
    case h_4 => exact skims_pure.at t

theorem Agrees.chain (h : Agrees n g g') (start : Pos) (root : Root) :
    Skims Inner n (g.chain start root) (g'.chain start root) :=
  skims_rounds <| h.chainItems.bind fun _ => (skims_spanFrom _).bind fun _ => skims_pure

theorem Agrees.chainOr (h : Agrees n g g') (start : Pos) (root : Root) (alone : Expr) :
    Skims Inner n (g.chainOr start root alone) (g'.chainOr start root alone) := by
  refine skims_rounds <| h.chainItems.bind fun _ => ?_
  split
  · exact skims_pure
  · exact (skims_spanFrom _).bind fun _ => skims_pure

theorem Agrees.fieldInit (h : Agrees n g g') : Takes Inner n g.fieldInit g'.fieldInit :=
  skims_here.takes fun _ => takes_name.then fun _ => (skims_token (by decide)).bind fun _ =>
    h.expr.skims.bind fun _ => (skims_spanFrom _).bind fun _ => skims_pure

theorem Agrees.operand (h : Agrees n g g') : Takes Inner (n + 1) g.operand g'.operand := by
  refine skims_here.takes fun start => takes_current fun t => ?_
  split
  case h_1 => exact (takes_integer.then fun _ => skims_pure).at t
  case h_2 ht =>
    split
    · exact takesAt_word ht (by decide) <| (skims_spanFrom _).bind fun _ => skims_pure
    · exact (takes_fail _).at t
  case h_3 ht | h_4 ht | h_5 ht | h_6 ht =>
    exact takesAt_word ht (by decide) <| (skims_spanFrom _).bind fun _ => skims_pure
  case h_7 ht | h_8 ht | h_9 ht =>
    exact takesAt_word ht (by decide) <| (skims_spanFrom _).bind fun _ => h.chain _ _
  case h_10 ht =>
    exact takesAt_word ht (by decide) <| h.expr.skims.bind fun _ => (skims_token (by decide)).bind fun _ =>
      (skims_spanFrom _).bind fun _ => h.chainOr _ _ _
  case h_11 | h_12 => exact (h.lambda.bind fun _ => h.chainOr _ _ _).at t
  case h_13 ht =>
    refine takesAt_word ht (by decide) <| h.type.skims.bind fun _ => (skims_option (by decide)).bind fun _ => ?_
    split
    · exact (skims_list h.fieldInit).bind fun _ => (skims_token (by decide)).bind fun _ => skims_pure.bind fun _ =>
        (skims_spanFrom _).bind fun _ => skims_pure
    · exact skims_pure.bind fun _ => (skims_spanFrom _).bind fun _ => skims_pure
  case h_14 ht =>
    exact takesAt_word ht (by decide) <| (skims_list h.expr).bind fun _ => (skims_token (by decide)).bind fun _ =>
      (skims_spanFrom _).bind fun _ => skims_pure
  case h_15 => exact (takes_fail _).at t

/-- A cast that is refused at last is refused silently, and the place is restored there. -/
theorem Agrees.castType (h : Agrees n g g') {c : Cursor} (hc : c.Ended) (hlen : c.rest.length < n + 1) :
    Runs Inner c g.castType g'.castType fun t? c' => ∀ t, t? = some t → c'.rest.length < c.rest.length := by
  refine runs_attempt (Q := fun _ c' => c'.rest.length < c.rest.length) ?_
  refine (takes_token (by decide) c hc hlen).toTries.bind fun _ c₁ hleads₁ hlt => ?_
  have hc₁ := hleads₁.ended hc
  refine (h.type.skims c₁ hc₁ (by omega)).toTries.bind fun t c₂ hleads₂ _ => ?_
  have hc₂ := hleads₂.ended hc₁
  refine (skims_token (n := n + 1) (by decide) c₂ hc₂ ?_).toTries.bind fun _ c₃ hleads₃ _ => ?_
  · have hle := hleads₂.length_le
    omega
  refine runs_current.toTries.bind fun _ c₄ hleads₄ _ => ?_
  have hle := ((hleads₂.trans hleads₃).trans hleads₄).length_le
  split
  · exact (runs_pure (by omega)).toTries
  · exact tries_failure

theorem Agrees.unaryStep (h : Agrees n g g') : Takes Inner (n + 1) g.unaryStep g'.unaryStep := by
  refine skims_here.takes fun start => takes_current fun t => ?_
  split
  case h_1 ht | h_2 ht =>
    exact takesAt_word ht (by decide) <| h.unary.skims.bind fun _ => (skims_spanFrom _).bind fun _ => skims_pure
  case h_3 =>
    refine Takes.at (fun c hc hlen => (h.castType hc hlen).bind fun t? c' hleads hcast => ?_) t
    have hc' := hleads.ended hc
    have hle := hleads.length_le
    split
    · next t =>
      have hlt := hcast t rfl
      suffices hrest : Skims Inner n _ _ from
        (hrest c' hc' (by omega)).imp fun _ _ hleads' _ => Nat.lt_of_le_of_lt hleads'.length_le hlt
      exact h.unary.skims.bind fun _ => (skims_spanFrom _).bind fun _ => skims_pure
    · exact (h.operand c' hc' (by omega)).imp fun _ _ _ hlt => by omega
  case h_4 => exact h.operand.at t

theorem Infix.inner_of_ofKind? {k : Kind} {i : Infix} (h : Infix.ofKind? k = some i) : k ≠ .eof ∧ Inner k := by
  constructor <;> rintro rfl <;> cases h

theorem Agrees.binaryRest (h : Agrees n g g') (least : Nat) (x : Expr) :
    LoopsSkim Inner n (g.binaryRest least x) (g'.binaryRest least x) := by
  intro c k l hc hn hk hl
  induction k generalizing c l x with
  | zero => exact absurd hk (Nat.not_lt_zero _)
  | succ k ih =>
    obtain _ | l := l
    · exact absurd hl (Nat.not_lt_zero _)
    have hinner := h.mono (Nat.le_of_lt hn)
    have hmore : ∀ y, Skims Inner c.rest.length (g.binaryRest least y k) (g'.binaryRest least y l) :=
      fun y c' hc' hlt => ih y c' l hc' (by omega) (by omega) (by omega)
    suffices hstep : Skims Inner (c.rest.length + 1) (g.binaryRest least x (k + 1)) (g'.binaryRest least x (l + 1)) from
      hstep c hc (Nat.lt_succ_self _)
    refine skims_current_of fun t => ?_
    split
    · exact skims_pure.at t
    · next i hinfix =>
      split
      · exact skims_pure.at t
      · have hkind := Infix.inner_of_ofKind? hinfix
        refine (takesAt_advance hkind.1 hkind.2 ?_).skims
        dsimp only
        split
        · exact hinner.type.skims.bind fun _ => (skims_spanFrom _).bind fun _ => hmore _
        · exact hinner.type.skims.bind fun _ => (skims_spanFrom _).bind fun _ => hmore _
        · exact (hinner.binary _).skims.bind fun _ => (skims_spanFrom _).bind fun _ => hmore _

theorem Agrees.binaryStep (h : Agrees n g g') (least : Nat) :
    Takes Inner (n + 1) (g.binaryStep least) (g'.binaryStep least) :=
  h.unaryStep.bind fun x => skims_rounds (h.binaryRest least x)

theorem Agrees.exprStep (h : Agrees n g g') : Takes Inner (n + 1) g.exprStep g'.exprStep := h.binaryStep 0

/-! ## Statements -/

theorem Agrees.declared (h : Agrees n g g') : Takes Inner (n + 1) g.declared g'.declared := by
  intro c hc hlen
  refine (runs_accept hc (by decide) (by decide)).bind fun b c' hleads hlt => ?_
  have hc' := hleads.ended hc
  have hle := hleads.length_le
  split
  · next hread =>
    suffices hrest : Skims Inner (n + 1) _ _ from
      (hrest c' hc' (by omega)).imp fun _ _ hleads' _ => Nat.lt_of_le_of_lt hleads'.length_le (hlt hread)
    exact skims_pure.bind fun _ => takes_name.skims.bind fun _ => skims_pure
  · suffices hrest : Takes Inner (n + 1) _ _ from
      (hrest c' hc' (by omega)).imp fun _ _ _ hlt' => Nat.lt_of_lt_of_le hlt' hle
    exact h.typeStep.map.then fun _ => takes_name.skims.bind fun _ => skims_pure

theorem Agrees.varDecl (h : Agrees n g g') (start : Pos) (fileLocal semicolon : Bool) :
    Takes Inner (n + 1) (g.varDecl start fileLocal semicolon) (g'.varDecl start fileLocal semicolon) := by
  refine (takes_list h.declared).bind fun vars => (skims_option (by decide)).bind fun _ => ?_
  cases semicolon <;> dsimp only [Bool.false_eq_true, if_false, if_true] <;> split
  · exact h.expr.skims.map.bind fun _ => (skims_spanFrom _).bind fun _ => skims_pure
  · exact skims_pure.bind fun _ => (skims_spanFrom _).bind fun _ => skims_pure
  · exact h.expr.skims.map.bind fun _ => (skims_token (by decide)).bind fun _ => (skims_spanFrom _).bind fun _ =>
      skims_pure
  · exact skims_pure.bind fun _ => (skims_token (by decide)).bind fun _ => (skims_spanFrom _).bind fun _ => skims_pure

theorem inner_of_assignOp? {k : Kind} {op : AssignOp} (h : assignOp? k = some op) : k ≠ .eof ∧ Inner k := by
  constructor <;> rintro rfl <;> cases h

theorem Agrees.simpleStmt (h : Agrees n g g') : Takes Inner (n + 1) g.simpleStmt g'.simpleStmt := by
  refine skims_here.takes fun start => (skims_sees _).takes fun _ => h.startsVarDecl.takes fun _ => ?_
  split
  · exact (h.varDecl start false false).then fun _ => skims_pure
  · refine (takes_list h.exprStep).then fun targets => skims_current_of fun t => ?_
    split
    · next op hop =>
      have hkind := inner_of_assignOp? hop
      refine (takesAt_advance hkind.1 hkind.2 <| h.expr.skims.bind fun _ => ?_).skims
      split
      · exact (takes_fail_bind _).skims
      · exact (skims_spanFrom _).bind fun _ => skims_pure
    · refine Skims.at ?_ t
      split
      · exact (skims_spanFrom _).bind fun _ => skims_pure
      · exact skims_current.bind fun _ => (takes_fail _).skims

theorem Agrees.parenCond (h : Agrees n g g') : Skims Inner n g.parenCond g'.parenCond :=
  (skims_token (by decide)).bind fun _ => h.expr.skims.bind fun _ => (skims_token (by decide)).bind fun _ => skims_pure

theorem Agrees.blockStep (h : Agrees n g g') : Takes Inner (n + 1) g.blockStep g'.blockStep :=
  skims_here.takes fun _ => (takes_token (by decide)).bind fun _ => (skims_blockItems h.stmt).bind fun _ =>
    (skims_token (by decide)).bind fun _ => (skims_spanFrom _).bind fun _ => skims_pure

theorem Agrees.condStep (h : Agrees n g g') : Takes Inner (n + 1) g.condStep g'.condStep := by
  refine skims_here.takes fun _ => (takes_token (by decide)).bind fun _ => h.parenCond.bind fun _ =>
    h.block.skims.bind fun _ => (skims_option (by decide)).bind fun _ => ?_
  split
  · refine (skims_sees _).bind fun _ => ?_
    split
    · exact h.cond.skims.map.bind fun _ => (skims_spanFrom _).bind fun _ => skims_pure
    · exact h.block.skims.map.bind fun _ => (skims_spanFrom _).bind fun _ => skims_pure
  · exact skims_pure.bind fun _ => (skims_spanFrom _).bind fun _ => skims_pure

theorem skims_optionalUntil {α : Type} {close : Kind} {p q : Parse α} (hp : Skims Inner n p q) :
    Skims Inner n (optionalUntil close p) (optionalUntil close q) := by
  refine (skims_sees _).bind fun _ => ?_
  split
  · exact skims_pure
  · exact hp.map

theorem Agrees.forLoop (h : Agrees n g g') : Takes Inner (n + 1) g.forLoop g'.forLoop := by
  have hsimple : Skims Inner n g.simpleStmt g'.simpleStmt := h.simpleStmt.skims.mono (Nat.le_succ n)
  exact skims_here.takes fun _ => (takes_token (by decide)).bind fun _ => (skims_token (by decide)).bind fun _ =>
    (skims_optionalUntil hsimple).bind fun _ => (skims_token (by decide)).bind fun _ =>
    (skims_optionalUntil h.expr.skims).bind fun _ => (skims_token (by decide)).bind fun _ =>
    (skims_optionalUntil hsimple).bind fun _ => (skims_token (by decide)).bind fun _ =>
    h.block.skims.bind fun _ => (skims_spanFrom _).bind fun _ => skims_pure

theorem Agrees.yieldRest (h : Agrees n g g') (start : Pos) : Skims Inner n (g.yieldRest start) (g'.yieldRest start) := by
  refine (skims_option (by decide)).bind fun _ => ?_
  split
  · exact (skims_spanFrom _).bind fun _ => skims_pure
  · refine (skims_option (by decide)).bind fun _ => ?_
    split
    · exact h.parenCond.bind fun _ => (skims_token (by decide)).bind fun _ => (skims_spanFrom _).bind fun _ => skims_pure
    · exact h.expr.skims.bind fun _ => (skims_token (by decide)).bind fun _ => (skims_spanFrom _).bind fun _ =>
        skims_pure

theorem inner_of_blockWord? {k : Kind} {w : BlockWord} (h : blockWord? k = some w) : k ≠ .eof ∧ Inner k := by
  constructor <;> rintro rfl <;> cases h

theorem Agrees.stmtStep (h : Agrees n g g') : Takes Inner (n + 1) g.stmtStep g'.stmtStep := by
  refine skims_here.takes fun start => takes_current fun t => ?_
  dsimp only
  split
  case h_1 => exact (h.blockStep.then fun _ => skims_pure).at t
  case h_2 => exact ((h.varDecl start false true).then fun _ => skims_pure).at t
  case h_3 ht =>
    refine takesAt_word ht (by decide) <| (skims_sees _).bind fun _ => ?_
    split
    · exact skims_pure.bind fun _ => (skims_token (by decide)).bind fun _ => (skims_spanFrom _).bind fun _ => skims_pure
    · exact (takes_list h.expr).skims.bind fun _ => (skims_token (by decide)).bind fun _ =>
        (skims_spanFrom _).bind fun _ => skims_pure
  case h_4 ht | h_5 ht =>
    exact takesAt_word ht (by decide) <| (skims_token (by decide)).bind fun _ => (skims_spanFrom _).bind fun _ =>
      skims_pure
  case h_6 => exact (h.condStep.then fun _ => skims_pure).at t
  case h_7 ht =>
    exact takesAt_word ht (by decide) <| h.parenCond.bind fun _ => h.block.skims.bind fun _ =>
      (skims_spanFrom _).bind fun _ => skims_pure
  case h_8 ht =>
    exact takesAt_word ht (by decide) <| h.block.skims.bind fun _ => (skims_token (by decide)).bind fun _ =>
      h.parenCond.bind fun _ => (skims_token (by decide)).bind fun _ => (skims_spanFrom _).bind fun _ => skims_pure
  case h_9 => exact h.forLoop.at t
  case h_10 ht => exact takesAt_word ht (by decide) (h.yieldRest start)
  case h_11 =>
    split
    · next hword =>
      have hkind := inner_of_blockWord? hword
      exact takesAt_advance hkind.1 hkind.2 <| h.block.skims.bind fun _ => (skims_spanFrom _).bind fun _ => skims_pure
    · exact (h.simpleStmt.then fun _ => (skims_token (by decide)).bind fun _ => skims_pure).at t

/-! ## Declarations -/

theorem loopsSkim_modifiers (m : Modifiers) : LoopsSkim Inner n (modifiers m) (modifiers m) := by
  intro c k l hc hn hk hl
  induction k generalizing c l m with
  | zero => exact absurd hk (Nat.not_lt_zero _)
  | succ k ih =>
    obtain _ | l := l
    · exact absurd hl (Nat.not_lt_zero _)
    refine (runs_accept hc (by decide) (by decide)).bind fun _ c₁ hleads₁ hlt₁ => ?_
    have hc₁ := hleads₁.ended hc
    have hle₁ := hleads₁.length_le
    split
    · next hread =>
      have hlt := hlt₁ hread
      exact ih _ c₁ l hc₁ (by omega) (by omega) (by omega)
    · refine (runs_accept hc₁ (by decide) (by decide)).bind fun _ c₂ hleads₂ hlt₂ => ?_
      have hc₂ := hleads₂.ended hc₁
      have hle₂ := hleads₂.length_le
      split
      · next hread =>
        have hlt := hlt₂ hread
        exact ih _ c₂ l hc₂ (by omega) (by omega) (by omega)
      · refine (runs_accept hc₂ (by decide) (by decide)).bind fun _ c₃ hleads₃ hlt₃ => ?_
        split
        · next hread =>
          have hlt := hlt₃ hread
          exact ih _ c₃ l (hleads₃.ended hc₂) (by omega) (by omega) (by omega)
        · exact runs_pure True.intro

theorem skims_seesFunc : Skims Inner n seesFunc seesFunc :=
  (skims_sees _).bind fun _ => (skims_sees _).bind fun _ => skims_pure

theorem Agrees.startsFunc (h : Agrees n g g') : Skims Inner (n + 1) g.startsFunc g'.startsFunc := by
  refine skims_seesFunc.bind fun _ => ?_
  split
  · exact h.startsVarDecl.bind fun _ => skims_pure
  · exact skims_pure

theorem Agrees.funcHeader (h : Agrees n g g') : Skims Inner n g.funcHeader g'.funcHeader := by
  intro c hc hlen
  refine (runs_sees _).bind ?_
  rintro _ c' - ⟨rfl, rfl⟩
  refine (runs_seesNext _).bind ?_
  rintro _ c - ⟨rfl, rfl⟩
  split
  · next hpair =>
    obtain ⟨t, u, ts, hrest, ht, -⟩ := exists_rest_pair hc (by decide) (by decide) hpair
    refine runs_current.bind ?_
    rintro _ _ - ⟨rfl, rfl⟩
    exact (runs_advance hrest (by rw [ht]; decide)).bind fun _ _ _ _ => runs_pure True.intro
  · suffices hrest : Skims Inner n _ _ from hrest c hc hlen
    exact (takes_list h.type).skims.bind fun _ => takes_name.skims.bind fun _ => skims_pure

theorem Agrees.funcDecl (h : Agrees n g g') (start : Pos) (m : Modifiers) (withBody : Bool) :
    Takes Inner (n + 1) (g.funcDecl start m withBody) (g'.funcDecl start m withBody) := by
  refine (skims_option (by decide)).takes fun _ => (takes_token (by decide)).bind fun _ => h.funcHeader.bind fun _ =>
    h.params.bind fun _ => ?_
  dsimp only
  split
  · exact h.block.skims.map.bind fun _ => (skims_spanFrom _).bind fun _ => skims_pure
  · exact (skims_token (by decide)).bind fun _ => skims_pure.bind fun _ => (skims_spanFrom _).bind fun _ => skims_pure

theorem Agrees.bases (h : Agrees n g g') : Skims Inner n g.bases g'.bases := by
  refine (skims_option (by decide)).bind fun _ => ?_
  split
  · exact (takes_list h.type).skims
  · exact skims_pure

theorem Agrees.classMember (h : Agrees n g g') : Takes Inner n g.classMember g'.classMember := by
  refine skims_here.takes fun start => takes_rounds <| (loopsSkim_modifiers _).takes fun m => ?_
  have hstarts : Skims Inner n g.startsFunc g'.startsFunc := h.startsFunc.mono (Nat.le_succ n)
  have hfunc := (h.funcDecl start m true).mono (Nat.le_succ n)
  dsimp only
  split
  · exact takes_fail_bind _
  · refine hstarts.takes fun _ => ?_
    split
    · exact hfunc.then fun _ => skims_pure
    · split
      · exact skims_current.takes fun _ => takes_fail_bind _
      · exact h.type.then fun _ => takes_name.skims.bind fun _ => (skims_token (by decide)).bind fun _ =>
          (skims_spanFrom _).bind fun _ => skims_pure

theorem Agrees.classDecl (h : Agrees n g g') (start : Pos) (fileLocal : Bool) :
    Takes Inner (n + 1) (g.classDecl start fileLocal) (g'.classDecl start fileLocal) :=
  (takes_token (by decide)).bind fun _ => takes_name.skims.bind fun _ => h.bases.bind fun _ =>
    (skims_token (by decide)).bind fun _ => (skims_blockItems h.classMember).bind fun _ =>
    (skims_token (by decide)).bind fun _ => (skims_spanFrom _).bind fun _ => skims_pure

theorem Agrees.interfaceMember (h : Agrees n g g') : Takes Inner n g.interfaceMember g'.interfaceMember := by
  refine skims_here.takes fun start => takes_rounds <| (loopsSkim_modifiers _).takes fun m => ?_
  split
  · exact takes_fail_bind _
  · exact (h.funcDecl start m false).mono (Nat.le_succ n)

theorem Agrees.interfaceDecl (h : Agrees n g g') : Takes Inner (n + 1) g.interfaceDecl g'.interfaceDecl :=
  skims_here.takes fun _ => (takes_token (by decide)).bind fun _ => takes_name.skims.bind fun _ => h.bases.bind fun _ =>
    (skims_token (by decide)).bind fun _ => (skims_blockItems h.interfaceMember).bind fun _ =>
    (skims_token (by decide)).bind fun _ => (skims_spanFrom _).bind fun _ => skims_pure

theorem takes_enumItem : Takes Inner n enumItem enumItem :=
  skims_here.takes fun _ => takes_name.then fun _ => (skims_token (by decide)).bind fun _ =>
    (skims_option (by decide)).bind fun _ => (takes_integer.skims.mono (Nat.le_succ n)).bind fun _ =>
    (skims_spanFrom _).bind fun _ => skims_pure

theorem takes_enumDecl : Takes Inner n enumDecl enumDecl :=
  skims_here.takes fun _ => (takes_token (by decide)).then fun _ => takes_name.skims.bind fun _ =>
    (skims_token (by decide)).bind fun _ => (skims_list takes_enumItem).bind fun _ =>
    (skims_token (by decide)).bind fun _ => (skims_spanFrom _).bind fun _ => skims_pure

theorem Agrees.spaceDecl (h : Agrees n g g') : Takes Inner (n + 1) g.spaceDecl g'.spaceDecl :=
  skims_here.takes fun _ => (takes_token (by decide)).bind fun _ => skims_rounds <|
    (loopsTake_items (by decide) (by decide) takes_name).skims.bind fun _ => (skims_token (by decide)).bind fun _ =>
    (skims_blockItems h.decl).bind fun _ => (skims_token (by decide)).bind fun _ => (skims_spanFrom _).bind fun _ =>
    skims_pure

theorem Agrees.plainDecl (h : Agrees n g g') : Takes Inner (n + 1) g.plainDecl g'.plainDecl := by
  refine skims_here.takes fun start => takes_rounds <| (loopsSkim_modifiers _).takes fun m =>
    (skims_sees _).takes fun _ => ?_
  split
  · split
    · exact takes_fail_bind _
    · exact (h.classDecl start m.isStatic).then fun _ => skims_pure
  · refine h.startsFunc.takes fun _ => ?_
    split
    · exact (h.funcDecl start m true).then fun _ => skims_pure
    · split
      · exact skims_current.takes fun _ => takes_fail_bind _
      · exact (h.varDecl start m.isStatic true).then fun _ => skims_pure

theorem Agrees.declStep (h : Agrees n g g') : Takes Inner (n + 1) g.declStep g'.declStep := by
  refine takes_current fun t => ?_
  split
  · exact h.spaceDecl.at t
  · exact (h.interfaceDecl.then fun _ => skims_pure).at t
  · exact (takes_enumDecl.then fun _ => skims_pure).at t
  · exact h.plainDecl.at t

/-! ## Levels of nesting -/

/-- A level reads at least one token before it calls the level below, so it reads longer texts like another one. -/
theorem Agrees.step (h : Agrees n g g') : Agrees (n + 1) g.step g'.step where
  type := h.typeStep
  unary := h.unaryStep
  binary := h.binaryStep
  block := h.blockStep
  cond := h.condStep
  stmt := h.stmtStep
  decl := h.declStep

theorem agrees_zero : Agrees 0 g g' := by
  have hnone : ∀ {α : Type} {p q : Parse α}, Takes Inner 0 p q := fun c _ hlen => absurd hlen (Nat.not_lt_zero _)
  exact ⟨hnone, hnone, fun _ => hnone, hnone, hnone, hnone, hnone⟩

/-- Levels beyond the number of the tokens to come change nothing. -/
theorem agrees_levels {m m' : Nat} (hm : n ≤ m) (hm' : n ≤ m') : Agrees n (levels m) (levels m') := by
  induction n generalizing m m' with
  | zero => exact agrees_zero
  | succ n ih =>
    obtain _ | m := m
    · exact absurd hm (Nat.not_succ_le_zero n)
    obtain _ | m' := m'
    · exact absurd hm' (Nat.not_succ_le_zero n)
    exact (ih (Nat.le_of_succ_le_succ hm) (Nat.le_of_succ_le_succ hm')).step

end Grammar

end Weft.Tree
