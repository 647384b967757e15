import Weft.Proofs.Text.Glyphs
import Weft.Proofs.Token.Lexemes

/-!
# Places of tokens

Where the tokens of a source text stand in its bytes. A place is behind the bytes before it; the tokens follow one another
with blanks and comments between them; a name, a number, a mark or an operator has the bytes that it stands on as its text.
The token that marks the end stands before the first zero byte, or at the end of a text that has none.
-/

namespace Weft

open Text (Glyph glyphBytes)

/-! ## Places -/

/-- The place behind the first bytes of a source text. -/
def Pos.behind (before : Bytes) : Pos :=
  ⟨before.length, before.count 10 + 1, (before.reverse.takeWhile (· ≠ 10)).length + 1⟩

theorem Pos.step_behind (before : Bytes) {g : Glyph} (hg : g.Proper) :
    (behind before).step g = behind (before ++ g.bytes) := by
  by_cases hnewline : (10 : UInt8) ∈ g.bytes
  · obtain ⟨rfl, hbytes⟩ := hg.eq_of_mem hnewline (by decide)
    rw [hbytes]
    have hshown : (Glyph.char (Char.ofNat (10 : UInt8).toNat)).shown = '\n' := rfl
    simp only [step, if_pos hshown, Glyph.width, hbytes, behind]
    simp
  · have hshown : g.shown ≠ '\n' := by
      intro h
      cases g with
      | char c =>
        obtain rfl : c = '\n' := h
        exact hnewline (by decide)
      | invalid b => cases h
    have hcount : (before ++ g.bytes).count 10 = before.count 10 := by
      rw [List.count_append, List.count_eq_zero_of_not_mem hnewline, Nat.add_zero]
    have htake : ((before ++ g.bytes).reverse.takeWhile (· ≠ 10)).length =
        g.width + (before.reverse.takeWhile (· ≠ 10)).length := by
      rw [List.reverse_append, List.takeWhile_append_of_pos, List.length_append, List.length_reverse, Glyph.width]
      intro b hb
      have hb : b ≠ 10 := fun h => hnewline (h ▸ List.mem_reverse.mp hb)
      simpa using hb
    simp only [step, if_neg hshown, behind, hcount, htake, List.length_append, Glyph.width]
    exact congrArg _ (by omega)

/-- Line and column are right behind any glyphs. -/
theorem Pos.after_behind (before : Bytes) {gs : List Glyph} (hgs : ∀ g ∈ gs, g.Proper) :
    (behind before).after gs = behind (before ++ glyphBytes gs) := by
  induction gs generalizing before with
  | nil => simp [after, glyphBytes]
  | cons g gs ih =>
    obtain ⟨hg, hgs⟩ := List.forall_mem_cons.mp hgs
    rw [after, List.foldl_cons, step_behind before hg, ← after, ih _ hgs, Text.glyphBytes_cons, List.append_assoc]

/-! ## Glyphs and what they show -/

namespace Text

theorem Glyph.eq_char {g : Glyph} {c : Char} (h : g.shown = c) (hc : c ≠ Lexer.replacement) : g = .char c := by
  cases g with
  | char c' => exact congrArg Glyph.char h
  | invalid b => exact absurd h.symm hc

/-- Glyphs among which no byte is invalid have the bytes of the text that they show. -/
theorem glyphBytes_of_legible {gs : List Glyph} (h : Lexer.replacement ∉ gs.map Glyph.shown) :
    glyphBytes gs = encode (String.ofList (gs.map Glyph.shown)) := by
  rw [encode_ofList, List.flatMap_map, glyphBytes]
  refine List.flatMap_congr fun g hg => ?_
  rw [Glyph.eq_char rfl fun hc => h (hc ▸ List.mem_map_of_mem hg)]
  rfl

theorem newline_notMem_glyphBytes {gs : List Glyph} (hgs : ∀ g ∈ gs, g.Proper) (h : '\n' ∉ gs.map Glyph.shown) :
    10 ∉ glyphBytes gs := by
  intro hmem
  obtain ⟨g, hg, hb⟩ := List.mem_flatMap.mp hmem
  obtain ⟨rfl, -⟩ := (hgs g hg).eq_of_mem hb (by decide)
  exact h (List.mem_map_of_mem (f := Glyph.shown) hg)

end Text

/-! ## Gaps -/

/-- The bytes of a gap between tokens, given the bytes behind it: blanks and comments. A line comment goes up to a new
line or the end of the text, which a zero byte marks as well; a block comment goes up to where it is closed first. -/
inductive Separates : Bytes → Bytes → Prop
  | nil {more : Bytes} : Separates [] more
  | blank {b : UInt8} {gap more : Bytes} (hb : b ∈ ([32, 9, 13, 10] : Bytes)) (h : Separates gap more) :
      Separates (b :: gap) more
  | line {body gap more : Bytes} (hbody : 10 ∉ body) (hend : (gap ++ more).head? ∈ [none, some 10, some 0])
      (h : Separates gap more) : Separates (47 :: 47 :: body ++ gap) more
  | block {body gap more : Bytes} (hbody : ¬ [42, 47] <:+: body) (h : Separates gap more) :
      Separates (47 :: 42 :: body ++ 42 :: 47 :: gap) more

/-- The tokens that bytes are cut into, given the bytes before them. -/
inductive Laid : Bytes → Bytes → List Token → Prop
  | stop {before gap more : Bytes} (hgap : Separates gap more) (hmore : more.head? ∈ [none, some 0]) :
      Laid before (gap ++ more) [⟨.eof, "", ⟨.behind (before ++ gap), .behind (before ++ gap)⟩⟩]
  | token {before gap taken more : Bytes} {kind : Kind} {text : String} {ts : List Token}
      (hgap : Separates gap (taken ++ more)) (htaken : taken ≠ [])
      (htext : kind ∉ [Kind.eof, .error, .string] → Text.encode text = taken)
      (h : Laid (before ++ gap ++ taken) more ts) :
      Laid before (gap ++ (taken ++ more))
        (⟨kind, text, ⟨.behind (before ++ gap), .behind (before ++ gap ++ taken)⟩⟩ :: ts)

/-- Bytes before a gap belong to it if they may stand there. -/
theorem Laid.extend {before piece rest : Bytes} {ts : List Token}
    (hpiece : ∀ gap more, gap ++ more = rest → Separates gap more → Separates (piece ++ gap) more)
    (h : Laid (before ++ piece) rest ts) : Laid before (piece ++ rest) ts := by
  cases h with
  | @stop _ gap more hgap hmore =>
    rw [← List.append_assoc piece, List.append_assoc before]
    exact .stop (hpiece gap more rfl hgap) hmore
  | @token _ gap taken more kind text ts hgap htaken htext h =>
    rw [← List.append_assoc piece, List.append_assoc before piece gap]
    refine .token (hpiece gap _ rfl hgap) htaken htext ?_
    rw [← List.append_assoc before]
    exact h

namespace Lexer

/-- A blank is a byte that may stand in a gap. -/
theorem separates_blank {g : Glyph} (hg : isSeparator g.shown = true) {gap more : Bytes} (h : Separates gap more) :
    Separates (g.bytes ++ gap) more := by
  have hshown : g.shown = ' ' ∨ g.shown = '\t' ∨ g.shown = '\n' ∨ g.shown = '\r' := by
    simpa [isSeparator, or_assoc] using hg
  rcases hshown with hshown | hshown | hshown | hshown
  all_goals
    rw [Text.Glyph.eq_char hshown (by decide)]
    exact .blank (by decide) h

/-- The bytes of a comment may stand in a gap. -/
theorem separates_comment {gs rest : List Glyph} {tail gap more : Bytes} (hgs : ∀ g ∈ gs, g.Proper)
    (htail : tail.head? ∈ [none, some 0]) (htakes : Takes (gs.map Glyph.shown) (rest.map Glyph.shown) .comment)
    (hrest : gap ++ more = glyphBytes rest ++ tail) (h : Separates gap more) :
    Separates (glyphBytes gs ++ gap) more := by
  generalize htaken : gs.map Glyph.shown = taken at htakes
  cases htakes with
  | @line body _ hbody hmore =>
    obtain ⟨g, gs, rfl, hg, hcs⟩ := List.map_eq_cons_iff.mp htaken
    obtain ⟨g', gs, rfl, hg', rfl⟩ := List.map_eq_cons_iff.mp hcs
    rw [Text.Glyph.eq_char hg (by decide), Text.Glyph.eq_char hg' (by decide), Text.glyphBytes_cons, Text.glyphBytes_cons]
    refine .line (Text.newline_notMem_glyphBytes (fun g hg => hgs g (by simp [hg])) hbody) ?_ h
    rw [hrest]
    rcases hmore with hnil | hhead
    · rw [List.map_eq_nil_iff.mp hnil]
      rcases List.mem_cons.mp htail with htail | htail
      · simp [glyphBytes, htail]
      · simp [glyphBytes, List.mem_singleton.mp htail]
    · obtain ⟨g, hhead, hshown⟩ := Option.map_eq_some_iff.mp (List.head?_map ▸ hhead)
      obtain ⟨rest, rfl⟩ := List.head?_eq_some_iff.mp hhead
      rw [Text.Glyph.eq_char hshown (by decide), Text.glyphBytes_cons]
      exact List.mem_cons_of_mem none List.mem_cons_self
  | @block body _ hbody =>
    obtain ⟨g, gs, rfl, hg, hcs⟩ := List.map_eq_cons_iff.mp htaken
    obtain ⟨g', gs, rfl, hg', hcs⟩ := List.map_eq_cons_iff.mp hcs
    obtain ⟨gs, last, rfl, rfl, hlast⟩ := List.map_eq_append_iff.mp hcs
    obtain ⟨star, last, rfl, hstar, hlast⟩ := List.map_eq_cons_iff.mp hlast
    obtain ⟨slash, last, rfl, hslash, hlast⟩ := List.map_eq_cons_iff.mp hlast
    obtain rfl := List.map_eq_nil_iff.mp hlast
    have hopen : ¬ [42, 47] <:+: glyphBytes gs := fun hinfix => hbody
      ((Text.infix_of_glyphBytes (fun g hg => hgs g (by simp [hg])) (by decide) (by decide) hinfix).map Glyph.shown)
    rw [Text.Glyph.eq_char hg (by decide), Text.Glyph.eq_char hg' (by decide), Text.Glyph.eq_char hstar (by decide),
      Text.Glyph.eq_char hslash (by decide), Text.glyphBytes_cons, Text.glyphBytes_cons, Text.glyphBytes_append]
    have hblock := Separates.block hopen h
    simp only [List.cons_append, List.append_assoc] at hblock ⊢
    exact hblock

/-- A token that is neither a string nor an error spells the bytes that it stands on. -/
theorem encode_of_takes {gs : List Glyph} {more : List Char} {kind : Kind} {text : String}
    (htakes : Takes (gs.map Glyph.shown) more (.token kind text)) (hkind : kind ∉ [Kind.eof, .error, .string]) :
    Text.encode text = glyphBytes gs := by
  generalize htaken : gs.map Glyph.shown = taken at htakes
  cases htakes with
  | spelled hlegible =>
    rw [← htaken] at hlegible ⊢
    exact (Text.glyphBytes_of_legible hlegible).symm
  | valued hvalued => rcases hvalued with rfl | rfl <;> simp at hkind

/-- The tokens of glyphs are laid out over their bytes. -/
theorem laid_tokensFrom {tail : Bytes} (htail : tail.head? ∈ [none, some 0]) {gs : List Glyph}
    (hgs : ∀ g ∈ gs, g.Proper) (before : Bytes) :
    Laid before (glyphBytes gs ++ tail) (tokensFrom (.behind before) gs) := by
  induction gs using glyphs_induction generalizing before with
  | nil =>
    rw [tokensFrom_nil]
    have hstop : Laid before ([] ++ tail) [⟨.eof, "", ⟨.behind (before ++ []), .behind (before ++ [])⟩⟩] := .stop .nil htail
    rw [List.append_nil] at hstop
    exact hstop
  | cons g gs ih =>
    obtain ⟨hg, hgs⟩ := List.forall_mem_cons.mp hgs
    by_cases hblank : isSeparator g.shown = true
    · rw [tokensFrom_blank hblank, Pos.step_behind before hg, Text.glyphBytes_cons, List.append_assoc]
      exact .extend (fun _ _ _ h => separates_blank hblank h) (ih 0 hgs _)
    · have hfits := fits_lexeme g.shown (gs.map Glyph.shown)
      cases hl : lexeme g.shown (gs.map Glyph.shown) with
      | mk found n =>
        rw [hl] at hfits
        have hsplit : glyphBytes (g :: gs) = glyphBytes (g :: gs.take n) ++ glyphBytes (gs.drop n) := by
          rw [← Text.glyphBytes_append, List.cons_append, List.take_append_drop]
        have htaken : ∀ g' ∈ g :: gs.take n, g'.Proper :=
          List.forall_mem_cons.mpr ⟨hg, fun g' hg' => hgs g' (List.mem_of_mem_take hg')⟩
        have hrest := ih n (fun g' hg' => hgs g' (List.mem_of_mem_drop hg'))
          (before ++ glyphBytes (g :: gs.take n))
        have htakes : Takes ((g :: gs.take n).map Glyph.shown) ((gs.drop n).map Glyph.shown) found := by
          rw [List.map_cons, List.map_take, List.map_drop]
          exact hfits.takes
        rw [hsplit, List.append_assoc]
        cases found with
        | comment =>
          rw [tokensFrom_comment hblank hl, Pos.after_behind before htaken]
          exact .extend (fun gap more hmore h => separates_comment htaken htail htakes hmore h) hrest
        | token kind text =>
          rw [tokensFrom_token hblank hl, Pos.after_behind before htaken]
          have hne : glyphBytes (g :: gs.take n) ≠ [] := fun h => List.cons_ne_nil _ _ (Text.eq_nil_of_glyphBytes h)
          have htoken := Laid.token .nil hne (encode_of_takes htakes) (by rw [List.append_nil]; exact hrest)
          rw [List.append_nil] at htoken
          exact htoken

end Lexer

theorem glyphBytes_readable (src : Bytes) : glyphBytes (readable src) = src.takeWhile (· ≠ 0) := by
  rw [readable, Text.glyphBytes_takeWhile (Text.glyphs_proper src), Text.glyphBytes_glyphs]

theorem proper_readable (src : Bytes) : ∀ g ∈ readable src, g.Proper := fun g hg =>
  Text.glyphs_proper src g ((List.takeWhile_prefix _).subset hg)

/-- A text without zero characters is read as a whole. -/
theorem readable_encode {cs : List Char} (hcs : Char.ofNat 0 ∉ cs) :
    readable (Text.encode (String.ofList cs)) = cs.map .char := by
  rw [readable, Text.encode_ofList, Text.glyphs_encode, List.takeWhile_eq_self_iff]
  intro g hg
  obtain ⟨c, hc, rfl⟩ := List.mem_map.mp hg
  have hne : c ≠ Char.ofNat 0 := fun h => hcs (h ▸ hc)
  simpa using hne

theorem laid_scan (src : Bytes) : Laid [] src (Token.scan src) := by
  have htail : (src.dropWhile (· ≠ 0)).head? ∈ [none, some 0] := by
    have hhead := List.head?_dropWhile_not (· ≠ 0) src
    cases hdrop : src.dropWhile (· ≠ 0) with
    | nil => exact List.mem_cons_self
    | cons b more =>
      rw [hdrop] at hhead
      obtain rfl : b = 0 := by simpa using hhead
      exact List.mem_cons_of_mem none List.mem_cons_self
  have hlaid := Lexer.laid_tokensFrom htail (proper_readable src) []
  rw [glyphBytes_readable, List.takeWhile_append_dropWhile] at hlaid
  exact hlaid

/-! ## Tokens in their source text -/

/-- The places of a token are those of its bytes in the source text, which are its text if it is a name, a number, a mark
or an operator. -/
structure Token.Placed (src : Bytes) (t : Token) : Prop where
  le : t.span.start.offset ≤ t.span.stop.offset
  stop_le : t.span.stop.offset ≤ src.length
  start : t.span.start = .behind (src.take t.span.start.offset)
  stop : t.span.stop = .behind (src.take t.span.stop.offset)
  text : t.kind ∉ [Kind.eof, .error, .string] →
    Text.encode t.text = src.extract t.span.start.offset t.span.stop.offset

/-- A token stands in front of another one: they do not overlap, and only blanks and comments stand between them. -/
structure Token.Precedes (src : Bytes) (t u : Token) : Prop where
  stop_le : t.span.stop.offset ≤ u.span.start.offset
  start_lt : t.span.start.offset < u.span.start.offset
  gap : Separates (src.extract t.span.stop.offset u.span.start.offset) (src.drop u.span.start.offset)

theorem extract_between (front middle back : Bytes) :
    (front ++ (middle ++ back)).extract front.length (front ++ middle).length = middle := by
  rw [List.extract, List.drop_left, List.length_append, Nat.add_sub_cancel_left, List.take_left]

theorem Separates.between (front : Bytes) {gap more : Bytes} (h : Separates gap more) :
    Separates ((front ++ (gap ++ more)).extract front.length (front ++ gap).length)
      ((front ++ (gap ++ more)).drop (front ++ gap).length) := by
  rw [extract_between, ← List.append_assoc, List.drop_left]
  exact h

theorem Token.placed {before taken more : Bytes} {kind : Kind} {text : String}
    (htext : kind ∉ [Kind.eof, .error, .string] → Text.encode text = taken) :
    Token.Placed (before ++ (taken ++ more)) ⟨kind, text, ⟨.behind before, .behind (before ++ taken)⟩⟩ where
  le := by simp [Pos.behind]
  stop_le := by simp [Pos.behind]
  start := congrArg Pos.behind List.take_left.symm
  stop := congrArg Pos.behind (by rw [← List.append_assoc]; exact List.take_left.symm)
  text h := (htext h).trans (extract_between before taken more).symm

theorem Laid.head {before rest : Bytes} {ts : List Token} (h : Laid before rest ts) :
    ∃ gap more t us, rest = gap ++ more ∧ ts = t :: us ∧ Separates gap more ∧ t.span.start = .behind (before ++ gap) := by
  cases h with
  | @stop _ gap more hgap => exact ⟨gap, more, _, _, rfl, rfl, hgap, rfl⟩
  | @token _ gap taken more kind text ts hgap => exact ⟨gap, taken ++ more, _, _, rfl, rfl, hgap, rfl⟩

theorem Laid.placed {before rest : Bytes} {ts : List Token} (h : Laid before rest ts) :
    ∀ t ∈ ts, t.Placed (before ++ rest) := by
  induction h with
  | @stop before gap more hgap hmore =>
    intro t ht
    obtain rfl := List.mem_singleton.mp ht
    have hplaced : Token.Placed (before ++ gap ++ ([] ++ more)) ⟨.eof, "", ⟨.behind (before ++ gap), _⟩⟩ :=
      Token.placed (by simp)
    simpa using hplaced
  | @token before gap taken more kind text ts hgap htaken htext h ih =>
    refine List.forall_mem_cons.mpr ⟨?_, fun t ht => ?_⟩
    · rw [← List.append_assoc]
      exact Token.placed htext
    · simpa using ih t ht

theorem Laid.chain {before rest : Bytes} {ts : List Token} (h : Laid before rest ts) :
    ts.IsChain (Token.Precedes (before ++ rest)) := by
  induction h with
  | stop => exact .singleton _
  | @token before gap taken more kind text ts hgap htaken htext h ih =>
    obtain ⟨next, more, t, us, rfl, rfl, hnext, hstart⟩ := h.head
    rw [List.append_assoc, List.append_assoc] at hstart
    have hpos := List.length_pos_iff.mpr htaken
    refine List.isChain_cons_cons.mpr ⟨⟨?_, ?_, ?_⟩, by simpa using ih⟩
    · simp [hstart, Pos.behind]
    · simp [hstart, Pos.behind]
      omega
    · have hsrc : before ++ (gap ++ (taken ++ (next ++ more))) = before ++ gap ++ taken ++ (next ++ more) := by simp
      have hoffset : t.span.start.offset = (before ++ gap ++ taken ++ next).length := by simp [hstart, Pos.behind]
      rw [hsrc, hoffset]
      exact hnext.between (before ++ gap ++ taken)

/-! ## Strings -/

namespace Lexer

/-- A character as it is written between quotes. -/
def escaped : Char → List Char
  | '\\' => ['\\', '\\']
  | '"' => ['\\', '"']
  | '\n' => ['\\', 'n']
  | '\t' => ['\\', 't']
  | '\r' => ['\\', 'r']
  | c => [c]

/-- A text between quotes. -/
def quoted (s : String) : String := String.ofList ('"' :: (s.toList.flatMap escaped ++ ['"']))

/-- A character is read back from the way it is written between quotes. -/
theorem stringRest_escaped (n : Nat) (text : List Char) (c : Char) (rest : List Char) :
    stringRest n text (escaped c ++ rest) = stringRest (n + (escaped c).length) (c :: text) rest := by
  unfold escaped
  split
  all_goals try rfl
  next hbackslash hquote hnewline htab hreturn =>
    rw [List.singleton_append, stringRest]
    · rfl
    · exact hquote
    · exact fun _ _ h => (hbackslash h).elim
    · exact fun h => (hbackslash h).elim
    · exact hnewline

theorem stringRest_quoted (n : Nat) (text cs : List Char) :
    stringRest n text (cs.flatMap escaped ++ ['"']) =
      ⟨.token .string (String.ofList (text.reverse ++ cs)), n + (cs.flatMap escaped).length + 1⟩ := by
  induction cs generalizing n text with
  | nil => simp [stringRest]
  | cons c cs ih =>
    rw [List.flatMap_cons, List.append_assoc, stringRest_escaped, ih, List.reverse_cons, List.append_assoc,
      List.singleton_append, List.length_append, Nat.add_assoc n]

theorem zero_notMem_escaped {c : Char} (hc : c ≠ Char.ofNat 0) : Char.ofNat 0 ∉ escaped c := by
  unfold escaped
  split
  all_goals try decide
  simpa using hc.symm

end Lexer

/-- A text between quotes is read as one token of that text. -/
theorem Token.scan_quoted {s : String} (hs : Char.ofNat 0 ∉ s.toList) :
    Token.scan (Text.encode (Lexer.quoted s)) =
      [⟨.string, s, ⟨.start, .behind (Text.encode (Lexer.quoted s))⟩⟩,
       ⟨.eof, "", ⟨.behind (Text.encode (Lexer.quoted s)), .behind (Text.encode (Lexer.quoted s))⟩⟩] := by
  have hzero : Char.ofNat 0 ∉ '"' :: (s.toList.flatMap Lexer.escaped ++ ['"']) := by
    simp only [List.mem_cons, List.mem_append, List.mem_flatMap, List.not_mem_nil, or_false]
    rintro (h | ⟨c, hc, hmem⟩ | h)
    · exact absurd h (by decide)
    · exact Lexer.zero_notMem_escaped (fun h => hs (h ▸ hc)) hmem
    · exact absurd h (by decide)
  have hbytes : Text.encode (Lexer.quoted s) =
      glyphBytes (('"' :: (s.toList.flatMap Lexer.escaped ++ ['"'])).map .char) := by
    rw [Lexer.quoted, Text.encode_ofList, glyphBytes, List.flatMap_map]
    rfl
  have hreadable := readable_encode hzero
  rw [← Lexer.quoted] at hreadable
  have hafter : Pos.start.after (('"' :: (s.toList.flatMap Lexer.escaped ++ ['"'])).map .char) =
      .behind (Text.encode (Lexer.quoted s)) := by
    rw [hbytes]
    refine Pos.after_behind [] fun g hg => ?_
    obtain ⟨c, -, rfl⟩ := List.mem_map.mp hg
    exact True.intro
  have hlexeme : Lexer.lexeme '"' (((s.toList.flatMap Lexer.escaped ++ ['"']).map Glyph.char).map Glyph.shown) =
      ⟨.token .string s, (s.toList.flatMap Lexer.escaped ++ ['"']).length⟩ := by
    have hshown : Glyph.shown ∘ Glyph.char = id := rfl
    rw [List.map_map, hshown, List.map_id, Lexer.lexeme]
    simpa using Lexer.stringRest_quoted 0 [] s.toList
  rw [List.map_cons] at hreadable hafter
  have htoken := Lexer.tokensFrom_token (p := .start) (g := .char '"') (by decide) hlexeme
  rw [List.take_of_length_le (by simp), List.drop_eq_nil_of_le (by simp), hafter, Lexer.tokensFrom_nil] at htoken
  rw [Token.scan, hreadable, htoken]

/-! ## The places of all tokens -/

/-- The tokens of a source text stand at their places, in their order, with blanks and comments between them and before
them, and every text without a zero character is the text of the token that it gives between quotes. -/
theorem Token.scan_places (src : Bytes) :
    (∀ t ∈ Token.scan src, t.Placed src) ∧ (Token.scan src).IsChain (Token.Precedes src) ∧
    (∀ t ∈ (Token.scan src).head?, Separates (src.take t.span.start.offset) (src.drop t.span.start.offset)) ∧
    ∀ s : String, Char.ofNat 0 ∉ s.toList →
      Token.scan (Text.encode (Lexer.quoted s)) =
        [⟨.string, s, ⟨.start, .behind (Text.encode (Lexer.quoted s))⟩⟩,
         ⟨.eof, "", ⟨.behind (Text.encode (Lexer.quoted s)), .behind (Text.encode (Lexer.quoted s))⟩⟩] := by
  refine ⟨(laid_scan src).placed, (laid_scan src).chain, fun t ht => ?_, fun s hs => Token.scan_quoted hs⟩
  obtain ⟨gap, more, u, us, hsrc, hscan, hgap, hstart⟩ := (laid_scan src).head
  obtain rfl : u = t := by simpa [hscan] using ht
  rw [hstart]
  subst hsrc
  simpa [Pos.behind] using hgap.between []

end Weft
