import Mathlib
import Weft.Number.Literal
import Weft.Proofs.Token.Places

/-!
# Words and their spelling

What a token says apart from its place is a word. A text that spells some words is read as tokens with these words,
whatever text follows it, as long as that text does not lengthen its last word.
-/

namespace Weft

/-! ## Words -/

/-- What a token says: a name, the value of a literal if it has one, or its mark or reserved word. -/
inductive Word where
  | mark (kind : Kind)
  | name (text : String)
  | int (value : Option Int)
  | float (value : Option Number.Binary64)
  | string (text : String)
deriving DecidableEq, Repr

namespace Word

/-- The word of a token with a kind and a text. -/
def of (kind : Kind) (text : String) : Word :=
  match kind with
  | .ident => name text
  | .int => int (Number.integer? text)
  | .float => float (Number.float? text)
  | .string => string text
  | k => mark k

/-- The kind of the tokens that say a word. -/
def kind : Word → Kind
  | mark k => k
  | name _ => .ident
  | int _ => .int
  | float _ => .float
  | string _ => .string

@[simp]
theorem kind_of (k : Kind) (text : String) : (of k text).kind = k := by
  cases k <;> rfl

/-- A word that says neither that an error stands there nor that the text ends. -/
abbrev Plain (w : Word) : Prop := w.kind ≠ .eof ∧ w.kind ≠ .error

/-- The kind of the first of some words; what follows all words is the end. -/
def firstKind : List Word → Kind
  | [] => .eof
  | w :: _ => w.kind

end Word

/-- The word that a token says. -/
def Token.word (t : Token) : Word := .of t.kind t.text

@[simp]
theorem Token.kind_word (t : Token) : t.word.kind = t.kind := Word.kind_of t.kind t.text

namespace Lexer

open Text (Glyph)

/-! ## Spelling -/

/-- Characters spell words in front of some text: they are read as tokens that say these words, and reading goes on
behind them. -/
structure Spells (cs : List Char) (ws : List Word) (more : List Char) : Prop where
  zero : Char.ofNat 0 ∉ cs
  plain : ∀ w ∈ ws, w.Plain
  tokens : ∀ p gs, gs.map Glyph.shown = cs ++ more → ∃ ts p' gs',
    tokensFrom p gs = ts ++ tokensFrom p' gs' ∧ ts.map Token.word = ws ∧ gs'.map Glyph.shown = more

section Spells

variable {cs cs' more : List Char} {ws ws' : List Word}

theorem Spells.nil : Spells [] [] more :=
  ⟨by simp, by simp, fun p gs hgs => ⟨[], p, gs, rfl, rfl, hgs⟩⟩

theorem Spells.append (h : Spells cs ws (cs' ++ more)) (h' : Spells cs' ws' more) :
    Spells (cs ++ cs') (ws ++ ws') more where
  zero := by
    rw [List.mem_append, not_or]
    exact ⟨h.zero, h'.zero⟩
  plain w hw := (List.mem_append.mp hw).elim (h.plain w) (h'.plain w)
  tokens p gs hgs := by
    rw [List.append_assoc] at hgs
    obtain ⟨ts, p', gs', htokens, hwords, hmore⟩ := h.tokens p gs hgs
    obtain ⟨ts', p'', gs'', htokens', hwords', hmore'⟩ := h'.tokens p' gs' hmore
    exact ⟨ts ++ ts', p'', gs'', by rw [htokens, htokens', List.append_assoc],
      by rw [List.map_append, hwords, hwords'], hmore'⟩

/-- A blank spells nothing. -/
theorem spells_blank {c : Char} (hc : isSeparator c = true) : Spells [c] [] more where
  zero h := by
    rw [← List.mem_singleton.mp h] at hc
    exact absurd hc (by decide)
  plain := by simp
  tokens p gs hgs := by
    obtain ⟨g, gs, rfl, rfl, hmore⟩ := List.map_eq_cons_iff.mp hgs
    exact ⟨[], _, gs, tokensFrom_blank hc, rfl, hmore⟩

/-- The characters of a lexeme spell its word. -/
theorem spells_lexeme {c : Char} {kind : Kind} {text : String} (hzero : Char.ofNat 0 ∉ c :: cs)
    (hkind : kind ≠ .eof ∧ kind ≠ .error) (hblank : isSeparator c = false)
    (hl : lexeme c (cs ++ more) = ⟨.token kind text, cs.length⟩) : Spells (c :: cs) [.of kind text] more where
  zero := hzero
  plain w hw := by
    rw [List.mem_singleton.mp hw, Word.Plain, Word.kind_of]
    exact hkind
  tokens p gs hgs := by
    obtain ⟨g, gs, rfl, rfl, hmore⟩ := List.map_eq_cons_iff.mp hgs
    replace hmore : gs.map Glyph.shown = cs ++ more := hmore
    rw [← hmore] at hl
    refine ⟨[_], _, _, tokensFrom_token (by simp [hblank]) hl, rfl, ?_⟩
    rw [List.map_drop, hmore, List.drop_left]

theorem spells_mark {c : Char} {kind : Kind} (hl : lexeme c more = single kind c)
    (hzero : c ≠ Char.ofNat 0) (hkind : kind ≠ .eof ∧ kind ≠ .error) (hblank : isSeparator c = false)
    (hword : Word.of kind (String.singleton c) = .mark kind) : Spells [c] [.mark kind] more := by
  rw [← hword]
  exact spells_lexeme (by simpa using hzero.symm) hkind hblank hl

/-! ## Names and reserved words -/

/-- The characters of a name or of a reserved word. -/
def IsWord (s : String) : Prop :=
  ∃ c cs, s.toList = c :: cs ∧ startsName c = true ∧ ∀ x ∈ cs, continuesName x = true

/-- A name: letters, digits and underscores that do not start with a digit and are no reserved word. -/
def IsName (s : String) : Prop := IsWord s ∧ Kind.isReserved s = false

/-- No word goes on with a text. -/
def Ends (more : List Char) : Prop := ∀ c ∈ more.head?, continuesName c = false

theorem startsName_zero : startsName (Char.ofNat 0) = false := by decide +kernel

theorem continuesName_zero : continuesName (Char.ofNat 0) = false := by decide +kernel

theorem not_isDigit_of_startsName {c : Char} (hc : startsName c = true) : isDigit c = false := by
  by_contra hdigit
  rw [Bool.not_eq_false, isDigit, Bool.and_eq_true, decide_eq_true_iff, decide_eq_true_iff] at hdigit
  have hlo : 48 ≤ c.toNat := hdigit.1
  have hhi : c.toNat ≤ 57 := hdigit.2
  have hletter : Text.isLetter c = false := by
    have hlt : c.toNat < 128 := Nat.lt_of_le_of_lt hhi (by decide)
    rw [Text.isLetter, if_pos hlt]
    simp [Char.isAlpha, Char.isUpper, Char.isLower, UInt32.le_iff_toNat_le]
    omega
  simp [startsName, hletter] at hc
  subst hc
  exact absurd hhi (by decide)

/-- What starts like a name is read as a word. -/
theorem lexeme_of_startsName {c : Char} (hc : startsName c = true) (cs : List Char) : lexeme c cs = word c cs := by
  unfold lexeme
  split
  all_goals first
    | exact absurd hc (by decide)
    | skip
  rw [if_neg (by simp [not_isDigit_of_startsName hc]), if_pos hc]

/-- A reserved word has its kind from the table, and any other word is a name. -/
theorem kind_of_word {P : Kind → Prop} (hname : P .ident) (hreserved : ∀ e ∈ Kind.reserved, P e.2) (s : String) :
    P ((Kind.ofWord? s).getD .ident) := by
  unfold Kind.ofWord?
  cases hfind : Kind.reserved.find? (fun e => e.1 = s) with
  | none => exact hname
  | some e => exact hreserved e (List.mem_of_find?_eq_some hfind)

theorem not_isSeparator_of_startsName {c : Char} (hc : startsName c = true) : isSeparator c = false := by
  by_contra hblank
  rw [Bool.not_eq_false] at hblank
  have hshown : c = ' ' ∨ c = '\t' ∨ c = '\n' ∨ c = '\r' := by simpa [isSeparator, or_assoc] using hblank
  rcases hshown with rfl | rfl | rfl | rfl
  all_goals exact absurd hc (by decide)

/-- Letters, digits and underscores are taken up to where no word goes on. -/
theorem takeWhile_continuesName (hcs : ∀ x ∈ cs, continuesName x = true) (hmore : Ends more) :
    (cs ++ more).takeWhile continuesName = cs := by
  have hend : more.takeWhile continuesName = [] := by
    cases more with
    | nil => rfl
    | cons c more => exact List.takeWhile_cons_of_neg (by simp [hmore c rfl])
  rw [List.takeWhile_append_of_pos hcs, hend, List.append_nil]

/-- A name and a reserved word spell themselves where no word goes on. -/
theorem spells_isWord {s : String} (hs : IsWord s) (hmore : Ends more) :
    Spells s.toList [.of ((Kind.ofWord? s).getD .ident) s] more := by
  obtain ⟨c, cs, hcs, hc, hall⟩ := hs
  have htake := takeWhile_continuesName hall hmore
  have hcount : count continuesName (cs ++ more) = cs.length := by rw [count, htake]
  rw [hcs]
  refine spells_lexeme ?_ (kind_of_word (P := fun k => k ≠ .eof ∧ k ≠ .error) (by decide) (by decide) s) (not_isSeparator_of_startsName hc) ?_
  · rw [List.mem_cons, not_or]
    refine ⟨fun h => ?_, fun h => ?_⟩
    · rw [← h, startsName_zero] at hc
      cases hc
    · exact absurd (hall _ h) (by simp [continuesName_zero])
  · rw [lexeme_of_startsName hc, word, hcount, List.take_left, ← hcs, String.ofList_toList]

theorem spells_name {s : String} (hs : IsName s) (hmore : Ends more) : Spells s.toList [.name s] more := by
  have hnone : Kind.ofWord? s = none := by simpa [Kind.isReserved] using hs.2
  have h := spells_isWord hs.1 hmore
  rw [hnone] at h
  exact h

end Spells

/-- A text that spells words is read as tokens that say them, and the end. -/
theorem Spells.scan {s : String} {ws : List Word} (h : Spells s.toList ws []) :
    ∃ ts e, Token.scan (Text.encode s) = ts ++ [e] ∧ ts.map Token.word = ws ∧ e.kind = .eof := by
  have hreadable := readable_encode h.zero
  rw [String.ofList_toList] at hreadable
  have hshown : (s.toList.map Glyph.char).map Glyph.shown = s.toList ++ [] := by
    rw [List.map_map, List.append_nil]
    exact List.map_id s.toList
  obtain ⟨ts, p, gs, htokens, hwords, hgs⟩ := h.tokens .start _ hshown
  rw [List.map_eq_nil_iff] at hgs
  rw [hgs, tokensFrom_nil] at htokens
  exact ⟨ts, _, by rw [Token.scan, hreadable, htokens], hwords, rfl⟩

end Lexer

end Weft
