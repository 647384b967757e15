import Weft.Proofs.Tree.TypeTexts

/-!
# Reading operators

An expression whose operands are in parentheses where they must be is read from its words as it is written. An operand is
read up to a token that binds at most as tightly as the operator in front of it, so operators of the same precedence
associate to the left; a parenthesis in front of an operator, of another parenthesis or of the end encloses no type to
cast to.
-/

namespace Weft

/-- The kind of the token of a unary operator. -/
def UnaryOp.kind : UnaryOp → Kind
  | neg => .minus
  | not => .not

/-- The kind of the token of a binary operator. -/
def BinaryOp.kind : BinaryOp → Kind
  | add => .plus
  | sub => .minus
  | mul => .star
  | div => .slash
  | mod => .percent
  | lt => .lt
  | le => .le
  | gt => .gt
  | ge => .ge
  | eq => .eq
  | ne => .ne
  | and => .andAnd
  | or => .orOr

namespace Tree

open Parse Grammar

/-! ## Expressions and their words -/

namespace Expr

/-- The words of an expression of literals, names, parentheses and operators. -/
def words : Expr → List Word
  | .int _ v => [.int (some v)]
  | .float _ v => [.float (some v)]
  | .string _ s => [.string s]
  | .bool _ b => [.mark (if b then .kwTrue else .kwFalse)]
  | .null _ => [.mark .kwNull]
  | .chain ⟨_, .name _ s, []⟩ => [Word.name s]
  | .paren _ x => Word.mark .lparen :: (x.words ++ [Word.mark .rparen])
  | .unary _ op x => Word.mark op.kind :: x.words
  | .binary _ op x y => x.words ++ Word.mark op.kind :: y.words
  | .isType _ x t => x.words ++ Word.mark .kwIs :: t.words
  | .asType _ x t => x.words ++ Word.mark .kwAs :: t.words
  | _ => []

/-- How tightly the operator of an expression binds: a unary operator binds tighter than every binary one, and an
expression without an operator is held together tighter still. -/
def strength : Expr → Nat
  | .binary _ op _ _ => op.precedence
  | .isType _ _ _ | .asType _ _ _ => Infix.isType.precedence
  | .unary _ _ _ => 7
  | _ => 8

/-- An expression of literals, names, parentheses and operators that needs no more parentheses: the operands of an
operator bind as tightly as it does on its left, and tighter on its right. -/
inductive WellParenthesised : Expr → Prop
  | int {span : Span} {v : Int} : WellParenthesised (.int span v)
  | float {span : Span} {v : Number.Binary64} : WellParenthesised (.float span v)
  | string {span : Span} {s : String} : WellParenthesised (.string span s)
  | bool {span : Span} {b : Bool} : WellParenthesised (.bool span b)
  | null {span : Span} : WellParenthesised (.null span)
  | name {span span' : Span} {s : String} : WellParenthesised (.chain ⟨span, .name span' s, []⟩)
  | paren {span : Span} {x : Expr} (hx : WellParenthesised x) : WellParenthesised (.paren span x)
  | unary {span : Span} {op : UnaryOp} {x : Expr} (hx : WellParenthesised x) (hstrength : 7 ≤ x.strength) :
    WellParenthesised (.unary span op x)
  | binary {span : Span} {op : BinaryOp} {x y : Expr} (hx : WellParenthesised x) (hy : WellParenthesised y)
    (hleft : op.precedence ≤ x.strength) (hright : op.precedence < y.strength) : WellParenthesised (.binary span op x y)
  | isType {span : Span} {x : Expr} {t : TypeExpr} (hx : WellParenthesised x)
    (hleft : Infix.isType.precedence ≤ x.strength) (ht : t.Names fun _ => True) : WellParenthesised (.isType span x t)
  | asType {span : Span} {x : Expr} {t : TypeExpr} (hx : WellParenthesised x)
    (hleft : Infix.asType.precedence ≤ x.strength) (ht : t.Names fun _ => True) : WellParenthesised (.asType span x t)

/-- Expressions of literals, names, parentheses and operators that are the same but for their places. -/
inductive Alike : Expr → Expr → Prop
  | int {span span' : Span} {v : Int} : Alike (.int span v) (.int span' v)
  | float {span span' : Span} {v : Number.Binary64} : Alike (.float span v) (.float span' v)
  | string {span span' : Span} {s : String} : Alike (.string span s) (.string span' s)
  | bool {span span' : Span} {b : Bool} : Alike (.bool span b) (.bool span' b)
  | null {span span' : Span} : Alike (.null span) (.null span')
  | name {span₁ span₂ span₁' span₂' : Span} {s : String} :
    Alike (.chain ⟨span₁, .name span₂ s, []⟩) (.chain ⟨span₁', .name span₂' s, []⟩)
  | paren {span span' : Span} {x x' : Expr} (hx : Alike x x') : Alike (.paren span x) (.paren span' x')
  | unary {span span' : Span} {op : UnaryOp} {x x' : Expr} (hx : Alike x x') :
    Alike (.unary span op x) (.unary span' op x')
  | binary {span span' : Span} {op : BinaryOp} {x x' y y' : Expr} (hx : Alike x x') (hy : Alike y y') :
    Alike (.binary span op x y) (.binary span' op x' y')
  | isType {span span' : Span} {x x' : Expr} {t t' : TypeExpr} (hx : Alike x x') (ht : t.bare = t'.bare) :
    Alike (.isType span x t) (.isType span' x' t')
  | asType {span span' : Span} {x x' : Expr} {t t' : TypeExpr} (hx : Alike x x') (ht : t.bare = t'.bare) :
    Alike (.asType span x t) (.asType span' x' t')

theorem strength_pos (x : Expr) : 0 < x.strength := by
  cases x with
  | binary span op x y => exact (by cases op <;> decide : 0 < op.precedence)
  | _ => exact Nat.succ_pos _

end Expr

theorem ofKind?_kind (op : BinaryOp) : Infix.ofKind? op.kind = some (.op op) := by
  cases op <;> rfl

/-- What follows an expression and binds at most with some precedence: the end, a closing parenthesis or an operator. -/
def Follows (least : Nat) (k : Kind) : Prop :=
  k = .eof ∨ k = .rparen ∨ ∃ i, Infix.ofKind? k = some i ∧ i.precedence ≤ least

theorem Follows.mono {least more : Nat} {k : Kind} (h : Follows least k) (hle : least ≤ more) : Follows more k := by
  obtain h | h | ⟨i, hi, hprec⟩ := h
  · exact .inl h
  · exact .inr (.inl h)
  · exact .inr (.inr ⟨i, hi, hprec.trans hle⟩)

/-- Every operator binds less tightly than a unary one. -/
theorem Follows.seven {least : Nat} {k : Kind} (h : Follows least k) : Follows 7 k := by
  obtain h | h | ⟨i, hi, -⟩ := h
  · exact .inl h
  · exact .inr (.inl h)
  · refine .inr (.inr ⟨i, hi, ?_⟩)
    cases i with
    | op op => exact (by cases op <;> decide : op.precedence ≤ 7)
    | isType => decide
    | asType => decide

/-- A kind that is no kind of those that follow an expression. -/
theorem Follows.notMem {least : Nat} {k : Kind} (h : Follows least k) :
    k ∉ castOperand ∧ k ≠ .lparen ∧ k ≠ .dot ∧ k ≠ .lbracket := by
  obtain rfl | rfl | ⟨i, hi, -⟩ := h
  · decide
  · decide
  · revert hi
    cases k <;> intro hi <;> cases hi <;> decide

/-- The kinds of token that a type starts with. -/
def typeStart : List Kind := [.lbracket, .kwCoro, .kwFunc, .ident]

/-- Words start with one that starts no type, or with a name in front of an operator or of their end. -/
def StartsOperand : List Word → Prop
  | [] => False
  | w :: ws => w.kind ∉ typeStart ∨ ∃ s, w = .name s ∧ (ws = [] ∨ Infix.ofKind? (Word.firstKind ws) ≠ none)

theorem StartsOperand.append {ws vs : List Word} {k : Kind} (h : StartsOperand ws) (hk : Infix.ofKind? k ≠ none) :
    StartsOperand (ws ++ Word.mark k :: vs) := by
  cases ws with
  | nil => exact h.elim
  | cons w ws =>
    obtain hstart | ⟨s, hw, hws⟩ := h
    · exact .inl hstart
    · refine .inr ⟨s, hw, .inr ?_⟩
      cases ws with
      | nil => exact hk
      | cons v ws => exact hws.resolve_left (by simp)

theorem Expr.WellParenthesised.startsOperand {x : Expr} (hx : x.WellParenthesised) : StartsOperand x.words := by
  induction hx with
  | int => exact .inl (by decide : Kind.int ∉ typeStart)
  | float => exact .inl (by decide : Kind.float ∉ typeStart)
  | string => exact .inl (by decide : Kind.string ∉ typeStart)
  | @bool span b => exact .inl (by cases b <;> decide)
  | null => exact .inl (by decide)
  | name => exact .inr ⟨_, rfl, .inl rfl⟩
  | paren => exact .inl (by decide : Kind.lparen ∉ typeStart)
  | @unary span op => exact .inl (by cases op <;> decide : op.kind ∉ typeStart)
  | binary hx hy hleft hright ihx => exact ihx.append (by rw [ofKind?_kind]; simp)
  | isType hx hleft ht ihx => exact ihx.append (by decide)
  | asType hx hleft ht ihx => exact ihx.append (by decide)

/-! ## Readers of expressions -/

/-- Where fewer than a number of tokens are to come, the readers of a level read types and expressions from their words,
and no type where none starts. -/
structure ReadsExprs (n : Nat) (g : Grammar) : Prop where
  type : ReadsTypes n g
  refuses : ∀ c : Cursor, c.current.kind ∉ typeStart → (g.type c).1 = none
  unary : ∀ (ps : List Diagnostic) (x : Expr), x.WellParenthesised → 7 ≤ x.strength →
    GivesAt (Follows 7) n ps g.unary x.words fun y => y.Alike x
  binary : ∀ (ps : List Diagnostic) (x : Expr) (least : Nat), x.WellParenthesised → least < x.strength →
    GivesAt (Follows least) n ps (g.binary least) x.words fun y => y.Alike x

section Readers

variable {n : Nat} {g : Grammar} {ps : List Diagnostic} {c : Cursor} {more : List Word}

theorem gives_chainItems (hc : Follows 7 c.current.kind) (k : Nat) :
    Gives (g.chainItems k) c fun items c' => items = [] ∧ c' = c := by
  cases k with
  | zero => exact gives_pure ⟨rfl, rfl⟩
  | succ k =>
    obtain ⟨-, hparen, hdot, hbracket⟩ := hc.notMem
    refine gives_here (gives_current ?_)
    split
    · next h => exact absurd h hparen
    · next h => exact absurd h hdot
    · next h => exact absurd h hbracket
    · exact gives_pure ⟨rfl, rfl⟩

/-- Parentheses around an expression are no cast in front of what follows it. -/
theorem ReadsExprs.castType (h : ReadsExprs n g) {x : Expr} (hx : x.WellParenthesised) (hn : c.rest.length < n + 1)
    (hc : c.Shows ps (Word.mark .lparen :: (x.words ++ Word.mark .rparen :: more))) (hmore : Follows 7 (Word.firstKind more)) :
    g.castType c = (some none, c) := by
  have hlength := hc.length_cons
  refine attempt_none ?_
  rw [bind_apply (expect_apply (show c.current.kind = .lparen from hc.kind)), Option.elim_some]
  have hstart := hx.startsOperand
  cases hwords : x.words with
  | nil => rw [hwords] at hstart; exact hstart.elim
  | cons w ws =>
    rw [hwords] at hstart hc
    obtain hstart | ⟨s, rfl, hws⟩ := hstart
    · exact bind_none (h.refuses _ (by rwa [hc.advance.kind]))
    · -- a name that is read as a type; what follows it shows that it is an operand
      have hdot : Word.firstKind (ws ++ Word.mark .rparen :: more) ≠ .dot := by
        cases ws with
        | nil => exact (by decide : Kind.rparen ≠ .dot)
        | cons v ws =>
          intro hk
          rw [show Word.firstKind (v :: ws) = .dot from hk] at hws
          simp [Infix.ofKind?] at hws
      obtain ⟨t, c', htype, -, hc'⟩ := h.type ps (.named default [s]) (.named (by simp) (by simp)) c.advance
        (ws ++ Word.mark .rparen :: more) (by omega) hc.advance hdot
      rw [bind_apply htype, Option.elim_some]
      obtain rfl | hinfix := hws
      · rw [bind_apply (expect_apply (show c'.current.kind = .rparen from hc'.kind)), Option.elim_some,
          bind_apply (current_apply _), Option.elim_some, if_neg (by rw [hc'.advance.kind]; exact hmore.notMem.1)]
        rfl
      · refine bind_none (expect_ne ?_)
        rw [hc'.kind]
        cases ws with
        | nil => exact absurd rfl hinfix
        | cons v ws =>
          intro hk
          rw [show Word.firstKind (v :: ws) = .rparen from hk] at hinfix
          exact hinfix rfl

theorem gives_integer {v : Int} (hc : c.Shows ps (.int (some v) :: more)) :
    Gives integer c fun r c' => r.2 = v ∧ c'.Shows ps more := by
  have hkind : c.current.kind = .int := hc.kind
  have hvalue : Number.integer? c.current.text = some v := by
    have hword := hc.word
    rw [Token.word, hkind] at hword
    exact Word.int.inj hword
  refine gives_current ?_
  rw [if_pos hkind, hvalue]
  exact gives_advance (gives_pure ⟨rfl, hc.advance⟩)

theorem ReadsExprs.operand (h : ReadsExprs n g) {x : Expr} (hx : x.WellParenthesised) (hstrength : 7 < x.strength)
    (hn : c.rest.length < n + 1) (hc : c.Shows ps (x.words ++ more)) (hmore : Follows 7 (Word.firstKind more)) :
    Gives g.operand c fun y c' => y.Alike x ∧ c'.Shows ps more := by
  refine gives_here (gives_current ?_)
  cases hx with
  | @int span v =>
    rw [show c.current.kind = .int from hc.kind]
    refine (gives_integer hc).bind ?_
    rintro ⟨span, v⟩ c' ⟨rfl, hc'⟩
    exact gives_pure ⟨.int, hc'⟩
  | @float span v =>
    have hkind : c.current.kind = .float := hc.kind
    have hvalue : Number.float? c.current.text = some v := by
      have hword := hc.word
      rw [Token.word, hkind] at hword
      exact Word.float.inj hword
    rw [hkind, hvalue]
    exact gives_advance (gives_spanFrom (gives_pure ⟨.float, hc.advance⟩))
  | @string span s =>
    have hkind : c.current.kind = .string := hc.kind
    have htext : c.current.text = s := by
      have hword := hc.word
      rw [Token.word, hkind] at hword
      exact Word.string.inj hword
    rw [hkind, htext]
    exact gives_advance (gives_spanFrom (gives_pure ⟨.string, hc.advance⟩))
  | @bool span b =>
    cases b with
    | true =>
      rw [show c.current.kind = .kwTrue from hc.kind]
      exact gives_advance (gives_spanFrom (gives_pure ⟨.bool, hc.advance⟩))
    | false =>
      rw [show c.current.kind = .kwFalse from hc.kind]
      exact gives_advance (gives_spanFrom (gives_pure ⟨.bool, hc.advance⟩))
  | null =>
    rw [show c.current.kind = .kwNull from hc.kind]
    exact gives_advance (gives_spanFrom (gives_pure ⟨.null, hc.advance⟩))
  | @name span span' s =>
    rw [hc.text.1, hc.text.2]
    refine gives_advance (gives_spanFrom (gives_rounds ((gives_chainItems (by rwa [hc.advance.kind]) _).bind ?_)))
    rintro _ _ ⟨rfl, rfl⟩
    exact gives_spanFrom (gives_pure ⟨.name, hc.advance⟩)
  | @paren span x hx =>
    replace hc : c.Shows ps (Word.mark .lparen :: (x.words ++ Word.mark .rparen :: more)) := by simpa [Expr.words] using hc
    have hlength := hc.length_cons
    rw [show c.current.kind = .lparen from hc.kind]
    refine gives_advance ((h.binary ps x 0 hx x.strength_pos _ _ (by omega) hc.advance (.inr (.inl rfl))).bind ?_)
    rintro y c₁ ⟨hy, hc₁⟩
    refine gives_expect hc₁.kind (gives_spanFrom (gives_rounds ((gives_chainItems (by rwa [hc₁.advance.kind]) _).bind ?_)))
    rintro _ _ ⟨rfl, rfl⟩
    exact gives_pure ⟨.paren hy, hc₁.advance⟩
  | unary => exact absurd hstrength (by decide : ¬ 7 < 7)
  | @binary span op => exact absurd hstrength (by cases op <;> decide : ¬ 7 < op.precedence)
  | isType => exact absurd hstrength (by decide : ¬ 7 < 4)
  | asType => exact absurd hstrength (by decide : ¬ 7 < 4)

theorem ReadsExprs.unaryStep (h : ReadsExprs n g) {x : Expr} (hx : x.WellParenthesised) (hstrength : 7 ≤ x.strength) :
    GivesAt (Follows 7) (n + 1) ps g.unaryStep x.words fun y => y.Alike x := by
  intro c more hn hc hmore
  refine gives_here (gives_current ?_)
  cases hx with
  | @unary span op x hx hs =>
    have hlength := hc.length_cons
    have hoperand := h.unary ps x hx hs c.advance more (by omega) hc.advance hmore
    cases op with
    | neg =>
      rw [show c.current.kind = .minus from hc.kind]
      refine gives_advance (hoperand.bind ?_)
      rintro y c' ⟨hy, hc'⟩
      exact gives_spanFrom (gives_pure ⟨.unary hy, hc'⟩)
    | not =>
      rw [show c.current.kind = .not from hc.kind]
      refine gives_advance (hoperand.bind ?_)
      rintro y c' ⟨hy, hc'⟩
      exact gives_spanFrom (gives_pure ⟨.unary hy, hc'⟩)
  | @paren span x hx =>
    have hcast := h.castType hx hn (by simpa [Expr.words] using hc) hmore
    rw [show c.current.kind = .lparen from hc.kind]
    refine gives_off ?_ hcast
    exact h.operand (.paren hx) (by decide : 7 < 8) hn hc hmore
  | @binary span op => exact absurd hstrength (by cases op <;> decide : ¬ 7 ≤ op.precedence)
  | isType => exact absurd hstrength (by decide : ¬ 7 ≤ 4)
  | asType => exact absurd hstrength (by decide : ¬ 7 ≤ 4)
  | int =>
    rw [show c.current.kind = .int from hc.kind]
    exact h.operand .int (by decide : 7 < 8) hn hc hmore
  | float =>
    rw [show c.current.kind = .float from hc.kind]
    exact h.operand .float (by decide : 7 < 8) hn hc hmore
  | string =>
    rw [show c.current.kind = .string from hc.kind]
    exact h.operand .string (by decide : 7 < 8) hn hc hmore
  | @bool span b =>
    have hoperand := h.operand (@Expr.WellParenthesised.bool span b) (by decide : 7 < 8) hn hc hmore
    cases b with
    | true =>
      rw [show c.current.kind = .kwTrue from hc.kind]
      exact hoperand
    | false =>
      rw [show c.current.kind = .kwFalse from hc.kind]
      exact hoperand
  | null =>
    rw [show c.current.kind = .kwNull from hc.kind]
    exact h.operand .null (by decide : 7 < 8) hn hc hmore
  | name =>
    rw [show c.current.kind = .ident from hc.kind]
    exact h.operand .name (by decide : 7 < 8) hn hc hmore

theorem gives_binaryRest {least : Nat} {x : Expr} (hc : Follows least c.current.kind) (k : Nat) :
    Gives (g.binaryRest least x k) c fun y c' => y = x ∧ c' = c := by
  cases k with
  | zero => exact gives_pure ⟨rfl, rfl⟩
  | succ k =>
    refine gives_current ?_
    obtain hk | hk | ⟨i, hi, hprec⟩ := hc
    · rw [hk]
      exact gives_pure ⟨rfl, rfl⟩
    · rw [hk]
      exact gives_pure ⟨rfl, rfl⟩
    · rw [hi]
      dsimp only
      rw [if_pos hprec]
      exact gives_pure ⟨rfl, rfl⟩

/-- What is read behind an operator is its right operand, or a type, and the operators behind that. -/
def Grammar.Infix.rest (g : Grammar) (least : Nat) (x : Expr) (k : Nat) : Infix → Parse Expr
  | .op o => do
    let y ← g.binary o.precedence
    g.binaryRest least (.binary (← spanFrom x.span.start) o x y) k
  | .isType => do
    let t ← g.type
    g.binaryRest least (.isType (← spanFrom x.span.start) x t) k
  | .asType => do
    let t ← g.type
    g.binaryRest least (.asType (← spanFrom x.span.start) x t) k

theorem gives_operator {i : Infix} {least k : Nat} {x : Expr} {Q : Expr → Cursor → Prop}
    (hi : Infix.ofKind? c.current.kind = some i) (hleast : least < i.precedence)
    (h : Gives (i.rest g least x k) c.advance Q) : Gives (g.binaryRest least x (k + 1)) c Q := by
  refine gives_current ?_
  rw [hi]
  dsimp only
  rw [if_neg (Nat.not_le.mpr hleast)]
  refine gives_advance ?_
  cases i with
  | op op => exact h
  | isType => exact h
  | asType => exact h

/-- An expression is read, and reading goes on with the operators behind it: an operand with its unary operators is read
at once, and the left operand of an operator is read in the same way before the operator. -/
theorem ReadsExprs.binaryStep (h : ReadsExprs n g) {x : Expr} (hx : x.WellParenthesised) {least : Nat}
    (hleast : least < x.strength) (hn : c.rest.length < n + 1) (hc : c.Shows ps (x.words ++ more))
    (hmore : Follows x.strength (Word.firstKind more)) {Q : Expr → Cursor → Prop}
    (hQ : ∀ y c' k, y.Alike x → c'.Shows ps more → c'.rest.length < k → Gives (g.binaryRest least y k) c' Q) :
    Gives (g.binaryStep least) c Q := by
  have hoperand : ∀ {x : Expr} {more : List Word}, x.WellParenthesised → 7 ≤ x.strength →
      c.Shows ps (x.words ++ more) → Follows x.strength (Word.firstKind more) →
      (∀ y c' k, y.Alike x → c'.Shows ps more → c'.rest.length < k → Gives (g.binaryRest least y k) c' Q) →
      Gives (g.binaryStep least) c Q := by
    intro x more hx hs hc hmore hQ
    refine (h.unaryStep hx hs c more hn hc hmore.seven).bind ?_
    rintro y c' ⟨hy, hc'⟩
    exact gives_rounds (hQ y c' _ hy hc' (Nat.lt_succ_self _))
  induction hx generalizing more with
  | int => exact hoperand .int (by decide : 7 ≤ 8) hc hmore hQ
  | float => exact hoperand .float (by decide : 7 ≤ 8) hc hmore hQ
  | string => exact hoperand .string (by decide : 7 ≤ 8) hc hmore hQ
  | bool => exact hoperand .bool (by decide : 7 ≤ 8) hc hmore hQ
  | null => exact hoperand .null (by decide : 7 ≤ 8) hc hmore hQ
  | name => exact hoperand .name (by decide : 7 ≤ 8) hc hmore hQ
  | paren hx => exact hoperand (.paren hx) (by decide : 7 ≤ 8) hc hmore hQ
  | unary hx hs => exact hoperand (.unary hx hs) (Nat.le_refl 7) hc hmore hQ
  | @binary span op x y hx hy hleft hright ihx =>
    rw [Expr.words, List.append_assoc] at hc
    refine ihx (Nat.lt_of_lt_of_le hleast hleft) hc (.inr (.inr ⟨.op op, ofKind?_kind op, hleft⟩)) ?_
    intro x' c₁ k hx' hc₁ hk
    have hle := hc.length_le hc₁
    have hlength := hc₁.length_cons
    obtain ⟨k, rfl⟩ := Nat.exists_eq_add_one_of_ne_zero (Nat.ne_of_gt (Nat.zero_lt_of_lt hk))
    refine gives_operator (i := .op op) (by rw [hc₁.kind]; exact ofKind?_kind op) hleast
      ((h.binary ps y op.precedence hy hright c₁.advance more (by omega) hc₁.advance hmore).bind ?_)
    rintro y' c₂ ⟨hy', hc₂⟩
    have hle' := hc₁.advance.length_le hc₂
    exact gives_spanFrom (hQ _ c₂ k (.binary hx' hy') hc₂ (by omega))
  | @isType span x t hx hleft ht ihx =>
    rw [Expr.words, List.append_assoc] at hc
    refine ihx (Nat.lt_of_lt_of_le hleast hleft) hc (.inr (.inr ⟨.isType, rfl, hleft⟩)) ?_
    intro x' c₁ k hx' hc₁ hk
    have hle := hc.length_le hc₁
    have hlength := hc₁.length_cons
    obtain ⟨k, rfl⟩ := Nat.exists_eq_add_one_of_ne_zero (Nat.ne_of_gt (Nat.zero_lt_of_lt hk))
    refine gives_operator (i := .isType) (by rw [hc₁.kind]; rfl) hleast
      ((h.type ps t ht c₁.advance more (by omega) hc₁.advance hmore.notMem.2.2.1).bind ?_)
    rintro u c₂ ⟨hu, hc₂⟩
    have hle' := hc₁.advance.length_le hc₂
    exact gives_spanFrom (hQ _ c₂ k (.isType hx' hu) hc₂ (by omega))
  | @asType span x t hx hleft ht ihx =>
    rw [Expr.words, List.append_assoc] at hc
    refine ihx (Nat.lt_of_lt_of_le hleast hleft) hc (.inr (.inr ⟨.asType, rfl, hleft⟩)) ?_
    intro x' c₁ k hx' hc₁ hk
    have hle := hc.length_le hc₁
    have hlength := hc₁.length_cons
    obtain ⟨k, rfl⟩ := Nat.exists_eq_add_one_of_ne_zero (Nat.ne_of_gt (Nat.zero_lt_of_lt hk))
    refine gives_operator (i := .asType) (by rw [hc₁.kind]; rfl) hleast
      ((h.type ps t ht c₁.advance more (by omega) hc₁.advance hmore.notMem.2.2.1).bind ?_)
    rintro u c₂ ⟨hu, hc₂⟩
    have hle' := hc₁.advance.length_le hc₂
    exact gives_spanFrom (hQ _ c₂ k (.asType hx' hu) hc₂ (by omega))

theorem ReadsExprs.step (h : ReadsExprs n g) : ReadsExprs (n + 1) g.step where
  type := h.type.step
  refuses c hc := by
    change (g.typeStep c).1 = none
    rw [typeStep, bind_apply (here_apply c), Option.elim_some, bind_apply (current_apply c), Option.elim_some]
    generalize c.current.kind = k at hc ⊢
    cases k
    all_goals first
      | exact absurd (by decide) hc
      | rfl
  unary ps x hx hs := h.unaryStep hx hs
  binary ps x least hx hleast c more hn hc hmore := by
    refine h.binaryStep hx hleast hn hc (hmore.mono hleast.le) fun y c' k hy hc' _ => ?_
    refine (gives_binaryRest (by rwa [hc'.kind]) k).imp ?_
    rintro _ _ ⟨rfl, rfl⟩
    exact ⟨hy, hc'⟩

theorem readsExprs_levels (n : Nat) : ReadsExprs n (levels n) := by
  induction n with
  | zero =>
    exact ⟨readsTypes_levels 0, fun _ _ => rfl, fun _ _ _ _ _ _ hn => absurd hn (Nat.not_lt_zero _),
      fun _ _ _ _ _ _ _ hn => absurd hn (Nat.not_lt_zero _)⟩
  | succ n ih => exact ih.step

end Readers

/-! ## Whole expressions -/

theorem Expr.WellParenthesised.plain_words {x : Expr} (hx : x.WellParenthesised) : ∀ w ∈ x.words, w.Plain := by
  induction hx with
  | int => exact List.forall_mem_singleton.mpr (by decide : Kind.int ≠ .eof ∧ Kind.int ≠ .error)
  | float => exact List.forall_mem_singleton.mpr (by decide : Kind.float ≠ .eof ∧ Kind.float ≠ .error)
  | string => exact List.forall_mem_singleton.mpr (by decide : Kind.string ≠ .eof ∧ Kind.string ≠ .error)
  | @bool span b => cases b <;> exact List.forall_mem_singleton.mpr (by decide)
  | null => exact List.forall_mem_singleton.mpr (by decide)
  | name => exact List.forall_mem_singleton.mpr (by decide : Kind.ident ≠ .eof ∧ Kind.ident ≠ .error)
  | paren hx ih =>
    rw [Expr.words, List.forall_mem_cons, List.forall_mem_append]
    exact ⟨by decide, ih, by decide⟩
  | @unary span op x hx hs ih =>
    rw [Expr.words, List.forall_mem_cons]
    exact ⟨by cases op <;> decide, ih⟩
  | @binary span op x y hx hy hleft hright ihx ihy =>
    rw [Expr.words, List.forall_mem_append, List.forall_mem_cons]
    exact ⟨ihx, by cases op <;> decide, ihy⟩
  | isType hx hleft ht ihx =>
    rw [Expr.words, List.forall_mem_append, List.forall_mem_cons]
    exact ⟨ihx, by decide, ht.plain_words⟩
  | asType hx hleft ht ihx =>
    rw [Expr.words, List.forall_mem_append, List.forall_mem_cons]
    exact ⟨ihx, by decide, ht.plain_words⟩

/-- Reading the words of a well parenthesised expression gives the expression with other places, notes no problem and
leaves no word: at every place with these words to come, for readers of more levels of nesting than there are words, and
for every source text with these words. -/
theorem expr_inverts_words {x : Expr} (hx : x.WellParenthesised) :
    (∀ (ps : List Diagnostic) (c : Cursor) (m : Nat), c.Shows ps x.words → c.rest.length < m →
      ∃ y c', (levels m).expr c = (some y, c') ∧ y.Alike x ∧ c'.rest = [] ∧ c'.problems = ps) ∧
    ∀ (path : String) (src : Bytes), (Token.scan src).map Token.word = x.words ++ [.mark .eof] →
      ∃ y c', read path src Grammar.expr = (some y, c') ∧ y.Alike x ∧ c'.rest = [] ∧
        parseExpression path src = (some y, []) := by
  have hreads : ∀ (ps : List Diagnostic) (c : Cursor) (m : Nat), c.Shows ps x.words → c.rest.length < m →
      ∃ y c', (levels m).expr c = (some y, c') ∧ y.Alike x ∧ c'.rest = [] ∧ c'.problems = ps := by
    intro ps c m hc hm
    obtain ⟨y, c', hread, hy, hc'⟩ := (readsExprs_levels m).binary ps x 0 hx x.strength_pos c [] hm
      (by rwa [List.append_nil]) (.inl rfl)
    exact ⟨y, c', hread, hy, List.map_eq_nil_iff.mp hc'.rest, hc'.problems⟩
  refine ⟨hreads, fun path src hscan => ?_⟩
  obtain ⟨ts, e, hts, -, he⟩ := Token.scan_ended src
  rw [hts, List.map_append, List.map_singleton] at hscan
  obtain ⟨hwords, -⟩ := List.append_inj' hscan rfl
  have hstart : (Cursor.start path src).Shows [] x.words := by
    rw [← hwords]
    exact Cursor.shows_start hts (fun t ht => hx.plain_words t.word (by rw [← hwords]; exact List.mem_map_of_mem ht)) he
  obtain ⟨y, c, hread, hy, hrest, hproblems⟩ := hreads [] _ _ hstart (Nat.lt_succ_self _)
  refine ⟨y, c, hread, hy, hrest, ?_⟩
  rw [parseExpression, show read path src Grammar.expr = (some y, c) from hread]
  exact congrArg (Prod.mk (some y)) hproblems

/-- A difference that is compared with a type, with a product as its right operand. -/
theorem expr_inverts_words_difference :
    ∃ y c', read "e" (Text.encode "a-(b-c)*d is T") Grammar.expr = (some y, c') ∧
      y.Alike (.isType default
        (.binary default .sub (.chain ⟨default, .name default "a", []⟩)
          (.binary default .mul
            (.paren default
              (.binary default .sub (.chain ⟨default, .name default "b", []⟩) (.chain ⟨default, .name default "c", []⟩)))
            (.chain ⟨default, .name default "d", []⟩)))
        (.named default ["T"])) ∧
      c'.rest = [] ∧ parseExpression "e" (Text.encode "a-(b-c)*d is T") = (some y, []) :=
  (expr_inverts_words (.isType
    (.binary .name (.binary (.paren (.binary .name .name (by decide) (by decide))) .name (by decide) (by decide))
      (by decide) (by decide))
    (by decide) (.named (by simp) (by simp)))).2 "e" (Text.encode "a-(b-c)*d is T") (by cbv)

end Tree

end Weft
