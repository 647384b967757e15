import Mathlib.Data.List.Infix
import Mathlib.Data.List.TakeWhile
import Weft.Token.Lexer

/-!
# What a lexeme takes

A lexeme takes characters from the front of a text: a comment takes them up to its end, the token of a name, a number, a
mark or an operator has them as its text. Such a token takes no invalid byte, since the character that an invalid byte is
shown as stands in no name, number, mark or operator.
-/

namespace Weft.Lexer

/-- The character that an invalid byte is shown as. -/
def replacement : Char := Char.ofNat 0xFFFD

/-- A list has `n` characters at least, and none of the first `n` stands for an invalid byte. -/
def Legible (n : Nat) (cs : List Char) : Prop := n ≤ cs.length ∧ replacement ∉ cs.take n

theorem Legible.add {m n : Nat} {cs : List Char} (hm : Legible m cs) (hn : Legible n (cs.drop m)) :
    Legible (m + n) cs := by
  refine ⟨?_, ?_⟩
  · have hlength := hn.1
    rw [List.length_drop] at hlength
    have := hm.1
    omega
  · rw [List.take_add, List.mem_append, not_or]
    exact ⟨hm.2, hn.2⟩

theorem Legible.cons {c : Char} {n : Nat} {cs : List Char} (hc : c ≠ replacement) (hn : Legible n cs) :
    Legible (n + 1) (c :: cs) := by
  refine ⟨Nat.succ_le_succ hn.1, ?_⟩
  rw [List.take_succ_cons, List.mem_cons, not_or]
  exact ⟨hc.symm, hn.2⟩

theorem legible_zero (cs : List Char) : Legible 0 cs := ⟨Nat.zero_le _, by simp⟩

theorem take_count (p : Char → Bool) (cs : List Char) : cs.take (count p cs) = cs.takeWhile p :=
  (List.prefix_iff_eq_take.mp (List.takeWhile_prefix p)).symm

theorem drop_count (p : Char → Bool) (cs : List Char) : cs.drop (count p cs) = cs.dropWhile p := by
  have h := congrArg (List.drop (count p cs)) (List.takeWhile_append_dropWhile (p := p) (l := cs))
  rw [count, List.drop_left] at h
  exact h.symm

theorem legible_count {p : Char → Bool} (hp : p replacement = false) (cs : List Char) : Legible (count p cs) cs := by
  refine ⟨(List.takeWhile_prefix p).length_le, fun h => ?_⟩
  rw [take_count] at h
  exact Bool.false_ne_true (hp.symm.trans (List.mem_takeWhile_imp h))

theorem isDigit_replacement : isDigit replacement = false := by decide

theorem isHexDigit_replacement : isHexDigit replacement = false := by decide

theorem startsName_replacement : startsName replacement = false := by decide +kernel

theorem continuesName_replacement : continuesName replacement = false := by decide +kernel

theorem ne_replacement {p : Char → Bool} (hp : p replacement = false) {c : Char} (hc : p c = true) :
    c ≠ replacement := by
  rintro rfl
  exact Bool.false_ne_true (hp.symm.trans hc)

/-! ## Numbers and words -/

theorem legible_fractionLength (cs : List Char) : Legible (fractionLength cs) cs := by
  unfold fractionLength
  split
  · next d ds =>
    split
    · next hd =>
      rw [Nat.add_comm]
      exact .cons (by decide) (.cons (ne_replacement isDigit_replacement hd) (legible_count isDigit_replacement ds))
    · exact legible_zero _
  · exact legible_zero _

theorem legible_exponentLength (cs : List Char) : Legible (exponentLength cs) cs := by
  have hsign : ∀ {c : Char}, c = '+' ∨ c = '-' → c ≠ replacement := by rintro c (rfl | rfl) <;> decide
  have hletter : ∀ {c : Char}, c = 'e' ∨ c = 'E' → c ≠ replacement := by rintro c (rfl | rfl) <;> decide
  unfold exponentLength
  split
  · next e cs =>
    split
    · next he =>
      split
      · next s ds =>
        split
        · next hs =>
          rw [Nat.add_comm]
          exact .cons (hletter he) (.cons (hsign hs) (legible_count isDigit_replacement ds))
        · rw [Nat.add_comm]
          exact .cons (hletter he) (legible_count isDigit_replacement _)
      · exact .cons (hletter he) (legible_zero _)
    · exact legible_zero _
  · exact legible_zero _

/-- A token whose text is the characters that it takes. -/
structure Lexeme.Spells (l : Lexeme) (c : Char) (cs : List Char) : Prop where
  legible : Legible (l.extra + 1) (c :: cs)
  found : ∃ kind, l.found = .token kind (String.ofList (c :: cs.take l.extra))

theorem spells_number {c : Char} {cs : List Char} (hc : isDigit c = true ∨ 0 < fractionLength (c :: cs)) :
    (number c cs).Spells c cs := by
  have hne : c ≠ replacement := by
    rcases hc with hc | hc
    · exact ne_replacement isDigit_replacement hc
    · rintro rfl
      simp [fractionLength, replacement] at hc
  unfold number
  dsimp only
  split
  · next n hhex =>
    refine ⟨?_, _, rfl⟩
    split at hhex
    · next x ds =>
      split at hhex
      · next hx =>
        obtain rfl := Option.some.inj hhex
        have hxne : x ≠ replacement := by rcases hx.2 with rfl | rfl <;> decide
        refine .cons hne ?_
        rw [Nat.add_comm]
        exact .cons hxne (legible_count isHexDigit_replacement ds)
      · cases hhex
    · cases hhex
  · have hlegible : Legible (count isDigit (c :: cs) + fractionLength ((c :: cs).drop (count isDigit (c :: cs))) +
        exponentLength ((c :: cs).drop (count isDigit (c :: cs) +
          fractionLength ((c :: cs).drop (count isDigit (c :: cs)))))) (c :: cs) :=
      ((legible_count isDigit_replacement _).add (legible_fractionLength _)).add (legible_exponentLength _)
    have hpos : 0 < count isDigit (c :: cs) + fractionLength ((c :: cs).drop (count isDigit (c :: cs))) := by
      by_cases hdigit : isDigit c = true
      · have hcount : count isDigit (c :: cs) = (cs.takeWhile isDigit).length + 1 := by
          rw [count, List.takeWhile_cons_of_pos hdigit, List.length_cons]
        omega
      · have hcount : count isDigit (c :: cs) = 0 := by simp [count, List.takeWhile_cons_of_neg hdigit]
        rw [hcount, List.drop_zero, Nat.zero_add]
        exact hc.resolve_left hdigit
    obtain ⟨n, hn⟩ := Nat.exists_eq_add_of_lt (Nat.lt_of_lt_of_le hpos (Nat.le_add_right _
      (exponentLength ((c :: cs).drop (count isDigit (c :: cs) +
          fractionLength ((c :: cs).drop (count isDigit (c :: cs))))))))
    rw [Nat.zero_add] at hn
    rw [hn] at hlegible ⊢
    exact ⟨hlegible, _, rfl⟩

theorem spells_word {c : Char} {cs : List Char} (hc : startsName c = true) : (word c cs).Spells c cs :=
  ⟨.cons (ne_replacement startsName_replacement hc) (legible_count continuesName_replacement cs), _, rfl⟩

theorem spells_single {c : Char} {cs : List Char} (kind : Kind) (hc : c ≠ replacement) :
    (single kind c).Spells c cs :=
  ⟨.cons hc (legible_zero cs), kind, rfl⟩

theorem spells_withEquals {c : Char} {cs : List Char} {single double : Kind} (hc : c ≠ replacement) :
    (withEquals c single double cs).Spells c cs := by
  unfold withEquals
  split
  · exact ⟨.cons hc (.cons (by decide) (legible_zero _)), _, rfl⟩
  · exact ⟨.cons hc (legible_zero _), _, rfl⟩

/-! ## Strings and comments -/

theorem extra_stringRest_le (extra : Nat) (text cs : List Char) :
    (stringRest extra text cs).extra ≤ extra + cs.length := by
  fun_induction stringRest extra text cs
  all_goals grind

theorem found_stringRest (extra : Nat) (text cs : List Char) :
    ∃ kind s, (stringRest extra text cs).found = .token kind s ∧ (kind = .string ∨ kind = .error) := by
  fun_induction stringRest extra text cs
  all_goals first
    | assumption
    | exact ⟨_, _, rfl, .inl rfl⟩
    | exact ⟨_, _, rfl, .inr rfl⟩

/-- A block comment goes up to the first place where it is closed. -/
theorem commentEnd?_eq_some {cs : List Char} {n : Nat} (h : commentEnd? cs = some n) :
    ∃ body more, cs = body ++ '*' :: '/' :: more ∧ n = body.length + 2 ∧ ¬ ['*', '/'] <:+: body := by
  induction cs generalizing n with
  | nil => cases h
  | cons c cs ih =>
    unfold commentEnd? at h
    split at h
    · next more hcs =>
      obtain rfl := Option.some.inj h
      exact ⟨[], more, hcs, rfl, by simp⟩
    · next c' cs' hopen hcs =>
      obtain ⟨rfl, rfl⟩ := List.cons.inj hcs
      obtain ⟨m, hm, rfl⟩ := Option.map_eq_some_iff.mp h
      obtain ⟨body, more, rfl, rfl, hbody⟩ := ih hm
      refine ⟨c :: body, more, rfl, by simp, fun hinfix => ?_⟩
      rcases List.infix_cons_iff.mp hinfix with ⟨tail, htail⟩ | hinfix
      · obtain ⟨rfl, rfl⟩ := List.cons.inj htail
        exact hopen _ rfl rfl
      · exact hbody hinfix
    · cases h

/-! ## All lexemes -/

/-- What is found in the characters that a lexeme takes, and before which characters: a line comment ends before a new
line or at the end of the text, a block comment where it is closed first. -/
inductive Takes : List Char → List Char → Found → Prop
  | line {body more : List Char} (hbody : '\n' ∉ body) (hmore : more = [] ∨ more.head? = some '\n') :
      Takes ('/' :: '/' :: body) more .comment
  | block {body more : List Char} (hbody : ¬ ['*', '/'] <:+: body) :
      Takes ('/' :: '*' :: (body ++ ['*', '/'])) more .comment
  | spelled {taken more : List Char} {kind : Kind} (htaken : replacement ∉ taken) :
      Takes taken more (.token kind (String.ofList taken))
  | valued {taken more : List Char} {kind : Kind} {text : String} (hkind : kind = .string ∨ kind = .error) :
      Takes taken more (.token kind text)

/-- The characters that a lexeme takes are there, and they are those of what it has found. -/
structure Lexeme.Fits (l : Lexeme) (c : Char) (cs : List Char) : Prop where
  extra : l.extra ≤ cs.length
  takes : Takes (c :: cs.take l.extra) (cs.drop l.extra) l.found

theorem Lexeme.Spells.fits {l : Lexeme} {c : Char} {cs : List Char} (h : l.Spells c cs) : l.Fits c cs := by
  obtain ⟨kind, hfound⟩ := h.found
  refine ⟨Nat.le_of_succ_le_succ h.legible.1, ?_⟩
  rw [hfound]
  exact .spelled (by simpa using h.legible.2)

theorem fits_error {c : Char} {cs : List Char} {n : Nat} {text : String} (hn : n ≤ cs.length) :
    (Lexeme.mk (.token .error text) n).Fits c cs :=
  ⟨hn, .valued (.inr rfl)⟩

theorem fits_line (rest : List Char) :
    (Lexeme.mk .comment (1 + count (fun c => decide (c ≠ '\n')) rest)).Fits '/' ('/' :: rest) := by
  have hcount : count (fun c => decide (c ≠ '\n')) rest ≤ rest.length := (List.takeWhile_prefix _).length_le
  refine ⟨by rw [Nat.add_comm]; exact Nat.succ_le_succ hcount, ?_⟩
  rw [Nat.add_comm, List.take_succ_cons, List.drop_succ_cons, take_count]
  refine .line (fun h => by simpa using List.mem_takeWhile_imp h) ?_
  rw [drop_count]
  have hhead := List.head?_dropWhile_not (fun c => decide (c ≠ '\n')) rest
  cases hdrop : rest.dropWhile (fun c => decide (c ≠ '\n')) with
  | nil => exact .inl rfl
  | cons c more =>
    rw [hdrop] at hhead
    exact .inr (by simpa using hhead)

theorem fits_block {body more : List Char} (hbody : ¬ ['*', '/'] <:+: body) :
    (Lexeme.mk .comment (1 + (body.length + 2))).Fits '/' ('*' :: (body ++ '*' :: '/' :: more)) := by
  have hcs : body ++ '*' :: '/' :: more = (body ++ ['*', '/']) ++ more := by simp
  have hlength : body.length + 2 = (body ++ ['*', '/']).length := by simp
  refine ⟨by simp; omega, ?_⟩
  rw [Nat.add_comm, List.take_succ_cons, List.drop_succ_cons, hcs, hlength, List.take_left, List.drop_left]
  exact .block hbody

theorem fits_lexeme (c : Char) (cs : List Char) : (lexeme c cs).Fits c cs := by
  unfold lexeme
  split
  all_goals try exact (spells_single _ (by decide)).fits
  all_goals try exact (spells_withEquals (by decide)).fits
  · exact fits_line _
  · next rest =>
    split
    · next n hn =>
      obtain ⟨body, more, rfl, rfl, hbody⟩ := commentEnd?_eq_some hn
      exact fits_block hbody
    · exact fits_error (by simp [Nat.add_comm])
  · next d ds =>
    split
    · next hd =>
      have hfraction : 0 < fractionLength ('.' :: d :: ds) := by
        rw [fractionLength, if_pos hd]
        omega
      exact (spells_number (.inr hfraction)).fits
    · exact (spells_single _ (by decide)).fits
  · exact Lexeme.Spells.fits ⟨.cons (by decide) (.cons (by decide) (legible_zero _)), _, rfl⟩
  · exact Lexeme.Spells.fits ⟨.cons (by decide) (.cons (by decide) (legible_zero _)), _, rfl⟩
  · obtain ⟨kind, s, hfound, hkind⟩ := found_stringRest 0 [] cs
    refine ⟨by simpa using extra_stringRest_le 0 [] cs, ?_⟩
    rw [hfound]
    exact .valued hkind
  · split
    · next hc => exact (spells_number (.inl hc)).fits
    · split
      · next hc => exact (spells_word hc).fits
      · exact fits_error (Nat.zero_le _)

/-! ## The tokens of glyphs -/

/-- Reading goes on behind a blank or behind the glyphs that a lexeme takes, and so behind any number of glyphs. -/
@[elab_as_elim]
theorem glyphs_induction {motive : List Text.Glyph → Prop} (nil : motive [])
    (cons : ∀ g gs, (∀ n, motive (gs.drop n)) → motive (g :: gs)) (gs : List Text.Glyph) : motive gs := by
  induction hlength : gs.length using Nat.strong_induction_on generalizing gs with
  | _ length ih =>
    cases gs with
    | nil => exact nil
    | cons g gs =>
      refine cons g gs fun n => ih (gs.drop n).length ?_ (gs.drop n) rfl
      rw [← hlength, List.length_drop, List.length_cons]
      omega

section Tokens

variable {p : Pos} {g : Text.Glyph} {gs : List Text.Glyph} {n : Nat}

theorem tokensFrom_nil : tokensFrom p [] = [⟨.eof, "", ⟨p, p⟩⟩] := by
  rw [tokensFrom, tokensAt]

theorem tokensFrom_blank (hg : isSeparator g.shown = true) : tokensFrom p (g :: gs) = tokensFrom (p.step g) gs := by
  rw [tokensFrom, tokensAt, if_pos hg]
  rfl

theorem tokensFrom_comment (hg : ¬ isSeparator g.shown = true)
    (hl : lexeme g.shown (gs.map Text.Glyph.shown) = ⟨.comment, n⟩) :
    tokensFrom p (g :: gs) = tokensFrom (p.after (g :: gs.take n)) (gs.drop n) := by
  rw [tokensFrom, tokensAt, if_neg hg]
  simp only [List.map_cons, List.drop_succ_cons, List.drop_zero, hl, ← List.map_drop]
  rfl

theorem tokensFrom_token {kind : Kind} {text : String} (hg : ¬ isSeparator g.shown = true)
    (hl : lexeme g.shown (gs.map Text.Glyph.shown) = ⟨.token kind text, n⟩) :
    tokensFrom p (g :: gs) =
      ⟨kind, text, ⟨p, p.after (g :: gs.take n)⟩⟩ :: tokensFrom (p.after (g :: gs.take n)) (gs.drop n) := by
  rw [tokensFrom, tokensAt, if_neg hg]
  simp only [List.map_cons, List.drop_succ_cons, List.drop_zero, hl, ← List.map_drop]
  rfl

end Tokens

end Weft.Lexer
