import Mathlib.Data.List.TakeWhile
import Weft.Proofs.Tree.Parsed
import Weft.Proofs.Tree.Progress

/-!
# The words of a source text

What the tokens of a source text are: names without points, and a last token that marks the end.
-/

/-! ## Names of source texts

A name in a source text consists of letters, underscores and digits, so it is not empty and has no point in it.
-/

namespace Weft

namespace Lexer

theorem startsName_point : startsName '.' = false := by decide

theorem continuesName_point : continuesName '.' = false := by decide

theorem dotless_word {c : Char} (hc : startsName c = true) (cs : List Char) :
    Dotless (String.ofList (c :: cs.take (count continuesName cs))) := by
  refine ⟨by simp [← String.toList_inj], ?_⟩
  have hcount : cs.take (count continuesName cs) = cs.takeWhile continuesName :=
    List.prefix_iff_eq_take.mp (List.takeWhile_prefix _) |>.symm
  rw [hcount, String.toList_ofList, List.mem_cons, not_or]
  refine ⟨?_, fun hpoint => ?_⟩
  · rintro rfl
    simp [startsName_point] at hc
  · simpa [continuesName_point] using List.mem_takeWhile_imp hpoint

theorem stringRest_kind {extra : Nat} {text cs : List Char} {kind : Kind} {s : String}
    (h : (stringRest extra text cs).found = .token kind s) : kind = .string ∨ kind = .error := by
  fun_induction stringRest extra text cs <;> simp_all

theorem number_kind {c : Char} {cs : List Char} {kind : Kind} {s : String}
    (h : (number c cs).found = .token kind s) : kind = .int ∨ kind = .float := by
  unfold number at h
  dsimp only at h
  generalize (match cs with | x :: ds => _ | [] => none : Option Nat) = hex at h
  split at h
  · simp only [Found.token.injEq] at h
    exact .inl h.1.symm
  · simp only [Found.token.injEq] at h
    rw [← h.1]
    split
    · exact .inl rfl
    · exact .inr rfl

theorem withEquals_kind {c : Char} {single double kind : Kind} {cs : List Char} {s : String}
    (h : (withEquals c single double cs).found = .token kind s) : kind = single ∨ kind = double := by
  unfold withEquals at h
  split at h <;> simp_all

/-- A name is read as a word, and nothing else could be a token that marks the end. -/
theorem lexeme_eq_word {c : Char} {cs : List Char} {kind : Kind} {text : String} (hkind : kind = .ident ∨ kind = .eof)
    (h : (lexeme c cs).found = .token kind text) : startsName c = true ∧ (word c cs).found = .token kind text := by
  have hnumber : ∀ {c cs}, (number c cs).found ≠ .token kind text := fun h => by
    rcases hkind with rfl | rfl <;> rcases number_kind h with h | h <;> cases h
  have hequals : ∀ {c a b cs}, (a ≠ .ident ∧ a ≠ .eof) → (b ≠ .ident ∧ b ≠ .eof) →
      (withEquals c a b cs).found ≠ .token kind text := fun ha hb h => by
    rcases withEquals_kind h with rfl | rfl
    · exact hkind.elim ha.1 ha.2
    · exact hkind.elim hb.1 hb.2
  have hstring : ∀ {n t cs}, (stringRest n t cs).found ≠ .token kind text := fun h => by
    rcases hkind with rfl | rfl <;> rcases stringRest_kind h with h | h <;> cases h
  have hsingle : ∀ {k : Kind} {s : String} {n : Nat}, (k ≠ .ident ∧ k ≠ .eof) →
      (Lexeme.mk (.token k s) n).found ≠ .token kind text := fun hk h => by
    simp only [Found.token.injEq] at h
    exact hkind.elim (h.1 ▸ hk.1) (h.1 ▸ hk.2)
  unfold lexeme at h
  split at h
  all_goals try cases h; done
  all_goals try exact absurd h (hsingle (by decide))
  all_goals try exact absurd h (hequals (by decide) (by decide))
  · split at h
    · cases h
    · exact absurd h (hsingle (by decide))
  · split at h
    · exact absurd h hnumber
    · exact absurd h (hsingle (by decide))
  · exact absurd h hstring
  · split at h
    · exact absurd h hnumber
    · split at h
      · next hc => exact ⟨hc, h⟩
      · exact absurd h (hsingle (by decide))

/-- A name that starts at a character has no point in it. -/
theorem dotless_lexeme {c : Char} {cs : List Char} {text : String} (h : (lexeme c cs).found = .token .ident text) :
    Dotless text := by
  obtain ⟨hc, hword⟩ := lexeme_eq_word (.inl rfl) h
  simp only [word, Found.token.injEq] at hword
  rw [← hword.2]
  exact dotless_word hc cs

theorem named_tokensAt (p : Pos) : (gs : List Text.Glyph) → (shown : List Char) →
    ∀ t ∈ tokensAt p gs shown, t.Named
  | [], shown => by
    rw [tokensAt]
    intro t ht
    obtain rfl := List.mem_singleton.mp ht
    exact fun h => by cases h
  | g :: gs, shown => by
    rw [tokensAt]
    split
    · exact named_tokensAt _ gs _
    · dsimp only
      split
      · exact named_tokensAt _ _ _
      · next kind text hfound =>
        intro t ht
        rcases List.mem_cons.mp ht with rfl | ht
        · rintro rfl
          exact dotless_lexeme hfound
        · exact named_tokensAt _ _ _ t ht
termination_by gs => gs.length
decreasing_by
  all_goals simp only [List.length_drop, List.length_cons]
  all_goals omega

theorem named_tokensFrom (p : Pos) (gs : List Text.Glyph) : ∀ t ∈ tokensFrom p gs, t.Named :=
  named_tokensAt p gs _

end Lexer

namespace Tree

theorem named_start {file : String} {src : Bytes} : (Cursor.start file src).Named := by
  refine ⟨fun t ht => ?_, ?_⟩
  · exact Lexer.named_tokensFrom _ _ t (List.mem_filter.mp ht |>.1)
  · simp only [Cursor.start]
    cases heof : (Token.scan src).find? (·.kind = .eof) with
    | none => exact fun h => by cases h
    | some t => exact Lexer.named_tokensFrom _ _ t (List.mem_of_find?_eq_some heof)

/-- The declarations of a file that is read have names without points, and functions and methods have bodies. -/
theorem parseFile_decls (path : String) (src : Bytes) :
    namedDecls (parseFile path src).1.decls ∧ bodiedDecls (parseFile path src).1.decls := by
  unfold parseFile
  split
  · next f c h => exact ((Grammar.sound_levels _).file path _ named_start).2 f (by rw [read] at h; rw [h])
  · exact ⟨True.intro, True.intro⟩

end Tree

end Weft

/-! ## The tokens of a source text

The last token of a source text marks its end and is the only one that does. A cursor starts with the others, from which
it leaves out the pieces of text that are no tokens after it has noted each of them.
-/

namespace Weft

namespace Lexer

theorem ofWord?_ne_eof {w : String} : (Kind.ofWord? w).getD .ident ≠ .eof := by
  cases hfind : Kind.reserved.find? (fun e => e.1 = w) with
  | none => simp [Kind.ofWord?, hfind]
  | some e =>
    have hall : ∀ e ∈ Kind.reserved, e.2 ≠ .eof := by decide
    simpa [Kind.ofWord?, hfind] using hall e (List.mem_of_find?_eq_some hfind)

theorem lexeme_ne_eof {c : Char} {cs : List Char} {text : String} : (lexeme c cs).found ≠ .token .eof text := by
  intro h
  have hword := (lexeme_eq_word (.inr rfl) h).2
  simp only [word, Found.token.injEq] at hword
  exact ofWord?_ne_eof hword.1

/-- The last token marks the end, and no token before it does. -/
theorem ended_tokensAt (p : Pos) : (gs : List Text.Glyph) → (shown : List Char) →
    ∃ ts e, tokensAt p gs shown = ts ++ [e] ∧ (∀ t ∈ ts, t.kind ≠ .eof) ∧ e.kind = .eof
  | [], shown => by
    rw [tokensAt]
    exact ⟨[], _, rfl, by simp, rfl⟩
  | g :: gs, shown => by
    rw [tokensAt]
    split
    · exact ended_tokensAt _ gs _
    · dsimp only
      split
      · exact ended_tokensAt _ _ _
      · next kind text hfound =>
        obtain ⟨ts, e, hts, hkinds, he⟩ := ended_tokensAt (p.after (g :: gs.take (lexeme g.shown (shown.drop 1)).extra))
          (gs.drop (lexeme g.shown (shown.drop 1)).extra) (shown.drop ((lexeme g.shown (shown.drop 1)).extra + 1))
        refine ⟨_ :: ts, e, by rw [hts]; rfl, ?_, he⟩
        intro t ht
        rcases List.mem_cons.mp ht with rfl | ht
        · rintro rfl
          exact lexeme_ne_eof hfound
        · exact hkinds t ht
termination_by gs => gs.length
decreasing_by
  all_goals simp only [List.length_drop, List.length_cons]
  all_goals omega

end Lexer

theorem Token.scan_ended (src : Bytes) :
    ∃ ts e, Token.scan src = ts ++ [e] ∧ (∀ t ∈ ts, t.kind ≠ .eof) ∧ e.kind = .eof :=
  Lexer.ended_tokensAt _ _ _

namespace Tree.Cursor

/-- A cursor that starts without problems has all tokens before it, and the token that marks the end behind them. -/
theorem scan_start {file : String} {src : Bytes} (h : (start file src).problems = []) :
    Token.scan src = (start file src).rest ++ [(start file src).eof] := by
  obtain ⟨ts, e, hts, hkinds, he⟩ := Token.scan_ended src
  have herrors : ∀ t ∈ ts, t.kind ≠ .error := by
    simp only [start, List.map_eq_nil_iff, List.filter_eq_nil_iff, hts] at h
    exact fun t ht => by simpa using h t (List.mem_append_left _ ht)
  have hwords : ts.filter (fun t => t.kind ≠ .error ∧ t.kind ≠ .eof) = ts :=
    List.filter_eq_self.mpr fun t ht => by simpa using ⟨herrors t ht, hkinds t ht⟩
  have hend : ts.find? (fun t => t.kind = .eof) = none :=
    List.find?_eq_none.mpr fun t ht => by simpa using hkinds t ht
  simp only [start, hts, List.filter_append, hwords, List.find?_append, hend]
  simp [he]

end Tree.Cursor

end Weft
