import Weft.Proofs.Token.Spelling
import Weft.Proofs.Tree.Termination

/-!
# Names in types

The names in a type that is read from a source text are names of that text: not empty, made of letters, digits and
underscores, and no reserved words.
-/

namespace Weft

/-! ## Names of source texts -/

/-- A token whose text, if it is a name, is one by its characters. -/
def Token.HasName (t : Token) : Prop := t.kind = .ident → Lexer.IsName t.text

namespace Lexer

theorem isName_lexeme {c : Char} {cs : List Char} {text : String} (h : (lexeme c cs).found = .token .ident text) :
    IsName text := by
  obtain ⟨hc, hword⟩ := lexeme_eq_word (.inl rfl) h
  simp only [word, Found.token.injEq, take_count] at hword
  obtain ⟨hkind, rfl⟩ := hword
  refine ⟨⟨c, cs.takeWhile continuesName, by simp, hc, fun x hx => List.mem_takeWhile_imp hx⟩, ?_⟩
  -- a reserved word does not have the kind of a name
  unfold Kind.isReserved
  cases hof : Kind.ofWord? (String.ofList (c :: cs.takeWhile continuesName)) with
  | none => rfl
  | some k =>
    rw [hof, Option.getD_some] at hkind
    obtain ⟨e, hfind, he⟩ := Option.map_eq_some_iff.mp hof
    have hreserved : ∀ e ∈ Kind.reserved, e.2 ≠ .ident := by decide
    exact absurd (he.trans hkind) (hreserved e (List.mem_of_find?_eq_some hfind))

theorem hasName_tokensFrom (p : Pos) (gs : List Text.Glyph) : ∀ t ∈ tokensFrom p gs, t.HasName := by
  induction gs using glyphs_induction generalizing p with
  | nil =>
    rw [tokensFrom_nil]
    intro t ht
    rw [List.mem_singleton.mp ht]
    exact fun h => by cases h
  | cons g gs ih =>
    by_cases hblank : isSeparator g.shown = true
    · rw [tokensFrom_blank hblank]
      exact ih 0 _
    · cases hl : lexeme g.shown (gs.map Text.Glyph.shown) with
      | mk found n =>
        cases found with
        | comment =>
          rw [tokensFrom_comment hblank hl]
          exact ih n _
        | token kind text =>
          rw [tokensFrom_token hblank hl, List.forall_mem_cons]
          refine ⟨?_, ih n _⟩
          rintro rfl
          exact isName_lexeme (congrArg Lexeme.found hl)

end Lexer

namespace Tree

open Parse Grammar

/-- Every name in a type has a first part, and all its parts have a property. -/
inductive TypeExpr.Names (P : String → Prop) : TypeExpr → Prop
  | named {span : Span} {path : List String} (hne : path ≠ []) (hpath : ∀ s ∈ path, P s) : Names P (.named span path)
  | array {span : Span} {elem : TypeExpr} (helem : Names P elem) : Names P (.array span elem)
  | map {span : Span} {key value : TypeExpr} (hkey : Names P key) (hvalue : Names P value) :
    Names P (.map span key value)
  | func {span : Span} {coro : Bool} {returns : List TypeExpr} {params : List (Bool × TypeExpr)}
    (hreturns : ∀ t ∈ returns, Names P t) (hparams : ∀ p ∈ params, Names P p.2) :
    Names P (.func span coro returns params)

theorem TypeExpr.Names.mono {P Q : String → Prop} (hPQ : ∀ s, P s → Q s) {t : TypeExpr} (h : t.Names P) : t.Names Q := by
  induction h with
  | named hne hpath => exact .named hne fun s hs => hPQ s (hpath s hs)
  | array helem ih => exact .array ih
  | map hkey hvalue ihkey ihvalue => exact .map ihkey ihvalue
  | func hreturns hparams ihreturns ihparams => exact .func ihreturns ihparams

/-! ## Readers and names -/

/-- What a reader gives has a property wherever the tokens to come have names of source texts. -/
def Finds {α : Type} (Q : α → Prop) (p : Parse α) : Prop :=
  ∀ c : Cursor, c.Ended → (∀ t ∈ c.rest, t.HasName) → Tries (fun _ => True) c p p fun x _ => Q x

section Finds

variable {α β : Type} {Q : α → Prop} {R : β → Prop} {p : Parse α} {f : α → Parse β}

theorem Finds.bind (hp : Finds Q p) (hf : ∀ x, Q x → Finds R (f x)) : Finds R (p >>= f) := by
  intro c hc hnames
  refine (hp c hc hnames).bind fun x c' hleads hx => hf x hx c' (hleads.ended hc) fun t ht => ?_
  obtain ⟨ts, hts, -⟩ := hleads.tokens
  exact hnames t (by rw [hts]; exact List.mem_append_right ts ht)

theorem finds_pure {x : α} (h : Q x) : Finds Q (pure x) := fun _ _ _ => (runs_pure h).toTries

theorem finds_fail {e : SyntaxError} : Finds Q (fail e) := fun _ _ _ => (runs_fail e).toTries

theorem finds_of_skims (h : ∀ n, Skims (fun _ => True) n p p) : Finds (fun _ => True) p :=
  fun c hc _ => (h (c.rest.length + 1) c hc (Nat.lt_succ_self _)).toTries

theorem finds_here : Finds (fun _ => True) here := finds_of_skims fun _ => skims_here

theorem finds_sees (k : Kind) : Finds (fun _ => True) (sees k) := finds_of_skims fun _ => skims_sees k

theorem finds_rounds : Finds (fun _ => True) rounds := fun _ _ _ =>
  (runs_rounds.imp fun _ _ _ _ => True.intro).toTries

theorem finds_spanFrom (start : Pos) : Finds (fun _ => True) (spanFrom start) := finds_of_skims fun _ => skims_spanFrom start

theorem finds_accept {k : Kind} (hk : k ≠ .eof) : Finds (fun _ => True) (accept k) :=
  finds_of_skims fun _ => skims_accept hk True.intro

theorem finds_expect {k : Kind} (hk : k ≠ .eof) : Finds (fun _ => True) (expect k) :=
  finds_of_skims fun _ => (takes_expect hk True.intro).skims

theorem finds_advance : Finds (fun _ => True) advance := by
  intro c _ _
  refine ⟨rfl, fun x c' hx => ?_⟩
  obtain rfl : c.advance = c' := congrArg Prod.snd hx
  exact ⟨Cursor.leads_advance fun _ => True.intro, True.intro⟩

theorem finds_current : Finds Token.HasName current := by
  intro c hc hnames
  refine (runs_current.imp ?_).toTries
  rintro _ c - ⟨rfl, rfl⟩
  cases hrest : c.rest with
  | nil =>
    have heof : c.current.kind = .eof := by
      rw [Cursor.current, hrest]
      exact hc.eof
    exact fun hk => by rw [heof] at hk; cases hk
  | cons t rest =>
    rw [Cursor.current, hrest]
    exact hnames t (by rw [hrest]; exact List.mem_cons_self)

theorem finds_items {separator : Kind} (hsep : separator ≠ .eof) (hp : Finds Q p) (k : Nat) :
    Finds (fun xs => ∀ x ∈ xs, Q x) (items separator p k) := by
  induction k with
  | zero => exact finds_pure (by simp)
  | succ k ih =>
    refine hp.bind fun x hx => (finds_accept hsep).bind fun b _ => ?_
    split
    · exact ih.bind fun xs hxs => finds_pure (List.forall_mem_cons.mpr ⟨hx, hxs⟩)
    · exact finds_pure (by simpa using hx)

theorem finds_itemsUntil {close : Kind} (hp : Finds Q p) (k : Nat) :
    Finds (fun xs => ∀ x ∈ xs, Q x) (itemsUntil close p k) := by
  induction k with
  | zero => exact finds_pure (by simp)
  | succ k ih =>
    refine (finds_sees close).bind fun b _ => ?_
    split
    · exact finds_pure (by simp)
    · refine hp.bind fun x hx => (finds_accept (by decide)).bind fun b _ => ?_
      split
      · exact ih.bind fun xs hxs => finds_pure (List.forall_mem_cons.mpr ⟨hx, hxs⟩)
      · exact finds_pure (by simpa using hx)

end Finds

/-! ## Names in types that are read -/

theorem finds_dottedRest (k : Nat) : Finds (fun ss => ∀ s ∈ ss, Lexer.IsName s) (dottedRest k) := by
  induction k with
  | zero => exact finds_pure (by simp)
  | succ k ih =>
    intro c hc hnames
    refine (runs_sees _).toTries.bind ?_
    rintro _ c' - ⟨rfl, rfl⟩
    refine (runs_seesNext _).toTries.bind ?_
    rintro _ c - ⟨rfl, rfl⟩
    split
    · next hpair =>
      obtain ⟨t, u, ts, hrest, -, hu⟩ := exists_rest_pair hc (by decide) (by decide) hpair
      refine (runs_advance hrest True.intro).toTries.bind ?_
      rintro - _ hleads rfl
      have hcurrent : c.advance.current = u := by simp [Cursor.advance, Cursor.current, hrest]
      have hname : Lexer.IsName c.advance.current.text := by
        rw [hcurrent]
        exact hnames u (by simp [hrest]) hu
      have hrestNames : ∀ t ∈ c.advance.rest, t.HasName := fun t ht => hnames t (by
        rw [hrest]
        simp only [Cursor.advance, hrest] at ht
        exact List.mem_cons_of_mem _ ht)
      refine (runs_current (c := c.advance)).toTries.bind ?_
      rintro _ _ - ⟨rfl, rfl⟩
      exact (finds_advance.bind fun _ _ => ih.bind fun ss hss =>
        finds_pure (List.forall_mem_cons.mpr ⟨hname, hss⟩)) _ (hleads.ended hc) hrestNames
    · exact (runs_pure (by simp)).toTries

/-- One more level of nesting reads types with names of source texts. -/
theorem finds_typeStep {g : Grammar} (h : Finds (TypeExpr.Names Lexer.IsName) g.type) :
    Finds (TypeExpr.Names Lexer.IsName) g.typeStep := by
  have hparam : Finds (fun p => p.2.Names Lexer.IsName) g.paramType :=
    (finds_accept (by decide)).bind fun _ _ => h.bind fun _ ht => finds_pure ht
  have hreturns : Finds (fun ts => ∀ t ∈ ts, t.Names Lexer.IsName) g.returnTypes := by
    refine (finds_sees _).bind fun _ _ => ?_
    split
    · exact finds_pure (by simp)
    · exact finds_rounds.bind fun k _ => finds_items (by decide) h k
  refine finds_here.bind fun start _ => finds_current.bind fun t ht => ?_
  have hfunc : Finds (TypeExpr.Names Lexer.IsName) (do
      let coro ← accept .kwCoro
      let _ ← expect .kwFunc
      let returns ← g.returnTypes
      let _ ← expect .lparen
      let params ← listUntil .rparen g.paramType
      let _ ← expect .rparen
      return TypeExpr.func (← spanFrom start) coro returns params) :=
    (finds_accept (by decide)).bind fun _ _ => (finds_expect (by decide)).bind fun _ _ => hreturns.bind fun _ hts =>
      (finds_expect (by decide)).bind fun _ _ => (finds_rounds.bind fun k _ => finds_itemsUntil hparam k).bind fun _ hps =>
      (finds_expect (by decide)).bind fun _ _ => (finds_spanFrom _).bind fun _ _ => finds_pure (.func hts hps)
  split
  · refine finds_advance.bind fun _ _ => (finds_accept (by decide)).bind fun _ _ => ?_
    split
    · exact h.bind fun _ helem => (finds_spanFrom _).bind fun _ _ => finds_pure (.array helem)
    · exact h.bind fun _ hkey => (finds_expect (by decide)).bind fun _ _ => h.bind fun _ hvalue =>
        (finds_spanFrom _).bind fun _ _ => finds_pure (.map hkey hvalue)
  · exact hfunc
  · exact hfunc
  · next hk =>
    exact finds_advance.bind fun _ _ => finds_rounds.bind fun k _ => (finds_dottedRest k).bind fun ss hss =>
      (finds_spanFrom _).bind fun _ _ => finds_pure (.named (by simp) (List.forall_mem_cons.mpr ⟨ht hk, hss⟩))
  · exact finds_fail

theorem finds_type (n : Nat) : Finds (TypeExpr.Names Lexer.IsName) (levels n).type := by
  induction n with
  | zero => exact fun _ _ _ => tries_failure
  | succ n ih => exact finds_typeStep ih

/-- A type that a text spells has names of source texts. -/
theorem names_parseType {src : Bytes} {t : TypeExpr} (h : parseType src = .ok t) : t.Names Lexer.IsName := by
  have hnames : ∀ t ∈ (Cursor.start "" src).rest, t.HasName := fun t ht =>
    Lexer.hasName_tokensFrom _ _ t (List.mem_filter.mp ht).1
  have hwhole : Finds (TypeExpr.Names Lexer.IsName) (wholeType (levels ((Cursor.start "" src).rest.length + 1))) := by
    refine (finds_type _).bind fun u hu => (finds_sees _).bind fun _ _ => ?_
    split
    · exact finds_pure hu
    · exact finds_current.bind fun _ _ => finds_fail
  have htries := hwhole _ (Cursor.ended_start "" src) hnames
  rcases hread : read "" src wholeType with ⟨_ | u, c⟩
  · rw [parseType_of_read hread] at h
    cases h
  · rw [parseType_of_read hread, Option.elim_some] at h
    split at h
    · cases h
      exact (htries.reads _ c hread).2
    · cases h

end Tree

end Weft
