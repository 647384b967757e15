import Weft.Proofs.Tree.Success
import Weft.Proofs.Tree.TypeNames

/-!
# Texts of types

The text of a type spells its words, and reading these words gives the type again with other places. No bracket encloses
the return types of a function type, but its parameters follow them in parentheses, and so do those of a function type
among them before a comma: a comma after a type always belongs to the innermost list that is still open.
-/

namespace Weft.Tree

open Parse Grammar

/-! ## Words of types -/

/-- The words of a dotted name. -/
def dottedWords : List String → List Word
  | [] => []
  | [s] => [.name s]
  | s :: ss => .name s :: .mark .dot :: dottedWords ss

mutual

/-- The words of a type. -/
def TypeExpr.words : TypeExpr → List Word
  | .named _ path => dottedWords path
  | .array _ elem => Word.mark .lbracket :: Word.mark .rbracket :: elem.words
  | .map _ key value => Word.mark .lbracket :: (key.words ++ Word.mark .rbracket :: value.words)
  | .func _ coro returns params =>
    (if coro then [Word.mark .kwCoro] else []) ++ Word.mark .kwFunc :: (commaWords (typeWords returns) ++
      Word.mark .lparen :: (commaWords (paramWords params) ++ [Word.mark .rparen]))

/-- The words of the types of a list. -/
def typeWords : List TypeExpr → List (List Word)
  | [] => []
  | t :: ts => t.words :: typeWords ts

/-- The words of the parameters of a function type. -/
def paramWords : List (Bool × TypeExpr) → List (List Word)
  | [] => []
  | (ref, t) :: ps => ((if ref then [Word.mark .kwRef] else []) ++ t.words) :: paramWords ps

end

mutual

/-- A type without its places. -/
def TypeExpr.bare : TypeExpr → TypeExpr
  | .named _ path => .named default path
  | .array _ elem => .array default elem.bare
  | .map _ key value => .map default key.bare value.bare
  | .func _ coro returns params => .func default coro (bareTypes returns) (bareParams params)

/-- Types without their places. -/
def bareTypes : List TypeExpr → List TypeExpr
  | [] => []
  | t :: ts => t.bare :: bareTypes ts

/-- Parameters of a function type without their places. -/
def bareParams : List (Bool × TypeExpr) → List (Bool × TypeExpr)
  | [] => []
  | (ref, t) :: ps => (ref, t.bare) :: bareParams ps

end

/-- The words of a parameter of a function type. -/
def wordsOfParam (p : Bool × TypeExpr) : List Word := (if p.1 then [Word.mark .kwRef] else []) ++ p.2.words

/-- A parameter of a function type without its places. -/
def bareParam (p : Bool × TypeExpr) : Bool × TypeExpr := (p.1, p.2.bare)

theorem typeWords_eq_map (ts : List TypeExpr) : typeWords ts = ts.map TypeExpr.words := by
  induction ts with
  | nil => rfl
  | cons t ts ih => rw [typeWords, ih, List.map_cons]

/-- The text of a parameter of a function type. -/
def textOfParam (p : Bool × TypeExpr) : String := (if p.1 then "ref " else "") ++ p.2.text

theorem paramTexts_eq_map (ps : List (Bool × TypeExpr)) : paramTexts ps = ps.map textOfParam := by
  induction ps with
  | nil => rfl
  | cons p ps ih => rw [paramTexts, ih, List.map_cons, textOfParam]

theorem paramWords_eq_map (ps : List (Bool × TypeExpr)) : paramWords ps = ps.map wordsOfParam := by
  induction ps with
  | nil => rfl
  | cons p ps ih => rw [paramWords, ih, List.map_cons, wordsOfParam]

theorem bareTypes_eq_map (ts : List TypeExpr) : bareTypes ts = ts.map TypeExpr.bare := by
  induction ts with
  | nil => rfl
  | cons t ts ih => rw [bareTypes, ih, List.map_cons]

theorem bareParams_eq_map (ps : List (Bool × TypeExpr)) : bareParams ps = ps.map bareParam := by
  induction ps with
  | nil => rfl
  | cons p ps ih => rw [bareParams, ih, List.map_cons, bareParam]

theorem texts_eq_map (ts : List TypeExpr) : texts ts = ts.map TypeExpr.text := by
  induction ts with
  | nil => rfl
  | cons t ts ih => rw [texts, ih, List.map_cons]

theorem mem_dottedWords {path : List String} {w : Word} (hw : w ∈ dottedWords path) :
    w = .mark .dot ∨ ∃ s, w = .name s := by
  fun_induction dottedWords path with
  | case1 => cases hw
  | case2 s => exact .inr ⟨s, List.mem_singleton.mp hw⟩
  | case3 s ss hne ih =>
    obtain hw | hw | hw := by simpa using hw
    · exact .inr ⟨s, hw⟩
    · exact .inl hw
    · exact ih hw

/-- The words of a type say neither that an error stands there nor that the text ends. -/
theorem TypeExpr.Names.plain_words {P : String → Prop} {t : TypeExpr} (ht : t.Names P) : ∀ w ∈ t.words, w.Plain := by
  induction ht with
  | named hne hpath =>
    intro w hw
    rw [TypeExpr.words] at hw
    obtain rfl | ⟨s, rfl⟩ := mem_dottedWords hw
    · exact (by decide : Kind.dot ≠ .eof ∧ Kind.dot ≠ .error)
    · exact (by decide : Kind.ident ≠ .eof ∧ Kind.ident ≠ .error)
  | array helem ih =>
    rw [TypeExpr.words, List.forall_mem_cons, List.forall_mem_cons]
    exact ⟨by decide, by decide, ih⟩
  | map hkey hvalue ihkey ihvalue =>
    rw [TypeExpr.words, List.forall_mem_cons, List.forall_mem_append, List.forall_mem_cons]
    exact ⟨by decide, ihkey, by decide, ihvalue⟩
  | @func span coro returns params hreturns hparams ihreturns ihparams =>
    have hcommas : ∀ {lists : List (List Word)}, (∀ ws ∈ lists, ∀ w ∈ ws, w.Plain) → ∀ w ∈ commaWords lists, w.Plain := by
      intro lists hlists w hw
      obtain rfl | ⟨ws, hws, hmem⟩ := mem_commaWords hw
      · exact (by decide : Kind.comma ≠ .eof ∧ Kind.comma ≠ .error)
      · exact hlists ws hws w hmem
    rw [TypeExpr.words, typeWords_eq_map, paramWords_eq_map, List.forall_mem_append, List.forall_mem_cons,
      List.forall_mem_append, List.forall_mem_cons, List.forall_mem_append]
    refine ⟨by cases coro <;> decide, by decide, hcommas ?_, by decide, hcommas ?_, by decide⟩
    · intro ws hws
      obtain ⟨t, ht, rfl⟩ := List.mem_map.mp hws
      exact ihreturns t ht
    · intro ws hws
      obtain ⟨⟨ref, t⟩, hp, rfl⟩ := List.mem_map.mp hws
      have href : ∀ w ∈ (if ref then [.mark .kwRef] else [] : List Word), w.Plain := by cases ref <;> decide
      exact List.forall_mem_append.mpr ⟨href, ihparams _ hp⟩

/-! ## Reading types -/

/-- The words after the first of a dotted name are read up to where no point follows. -/
theorem gives_dottedRest {s : String} {path : List String} {ps : List Diagnostic} {k : Nat} {c : Cursor}
    {more : List Word} (hk : c.rest.length < k) (hc : c.Shows ps ((dottedWords (s :: path)).tail ++ more))
    (hmore : Word.firstKind more ≠ .dot) :
    Gives (dottedRest k) c fun ys c' => ys = path ∧ c'.Shows ps more := by
  induction path generalizing s k c with
  | nil =>
    cases k with
    | zero => exact absurd hk (Nat.not_lt_zero _)
    | succ k =>
      replace hc : c.Shows ps more := hc
      refine gives_sees (gives_seesNext ?_)
      rw [hc.kind, if_neg (by simpa using fun h => absurd h hmore)]
      exact gives_pure ⟨rfl, hc⟩
  | cons s' path ih =>
    cases k with
    | zero => exact absurd hk (Nat.not_lt_zero _)
    | succ k =>
      have hname : dottedWords (s' :: path) = Word.name s' :: (dottedWords (s' :: path)).tail := by cases path <;> rfl
      replace hc : c.Shows ps (Word.mark .dot :: Word.name s' :: ((dottedWords (s' :: path)).tail ++ more)) := by
        rw [dottedWords, List.tail_cons, hname] at hc
        · exact hc
        · simp
      have hlength := hc.length_cons
      have hlength' := hc.advance.length_cons
      refine gives_sees (gives_seesNext ?_)
      rw [hc.kind, hc.kind_following]
      refine gives_advance (gives_current (gives_advance ((ih (by omega) hc.advance.advance).bind ?_)))
      rintro ys c' ⟨hys, hc'⟩
      exact gives_pure ⟨by rw [hc.advance.text.2, hys], hc'⟩

/-- The first word of a type is that of a name, an array, a map or a function. -/
theorem firstKind_words {P : String → Prop} {t : TypeExpr} (ht : t.Names P) (more : List Word) :
    Word.firstKind (t.words ++ more) ∈ [Kind.lbracket, .kwCoro, .kwFunc, .ident] := by
  cases ht with
  | @named span path hne hpath =>
    obtain ⟨s, path, rfl⟩ := List.exists_cons_of_ne_nil hne
    cases path <;> simp [TypeExpr.words, dottedWords, Word.firstKind, Word.kind]
  | array => simp [TypeExpr.words, Word.firstKind, Word.kind]
  | map => simp [TypeExpr.words, Word.firstKind, Word.kind]
  | @func span coro returns params hreturns hparams =>
    cases coro <;> simp [TypeExpr.words, Word.firstKind, Word.kind]

theorem firstKind_wordsOfParam {P : String → Prop} {p : Bool × TypeExpr} (hp : p.2.Names P) (more : List Word) :
    Word.firstKind (wordsOfParam p ++ more) ≠ .rparen := by
  obtain ⟨ref, t⟩ := p
  cases ref with
  | true => exact (by decide : Kind.kwRef ≠ .rparen)
  | false =>
    intro hk
    have hfirst := firstKind_words hp more
    rw [show Word.firstKind (t.words ++ more) = .rparen from hk] at hfirst
    exact absurd hfirst (by decide)

/-- Types that come in front of no point are read from their words. -/
def ReadsTypes (n : Nat) (g : Grammar) : Prop :=
  ∀ (ps : List Diagnostic) (t : TypeExpr), t.Names (fun _ => True) →
    GivesAt (· ≠ .dot) n ps g.type t.words fun u => u.bare = t.bare

theorem ReadsTypes.paramType {n : Nat} {g : Grammar} (h : ReadsTypes n g) {ps : List Diagnostic} {p : Bool × TypeExpr}
    (hp : p.2.Names (fun _ => True)) : GivesAt (· ≠ .dot) n ps g.paramType (wordsOfParam p) fun q => bareParam q = bareParam p := by
  intro c more hn hc hmore
  obtain ⟨ref, t⟩ := p
  cases ref with
  | true =>
    replace hc : c.Shows ps (Word.mark .kwRef :: (t.words ++ more)) := hc
    have hlength := hc.length_cons
    refine gives_accept hc.kind ((h ps t hp _ more (by omega) hc.advance hmore).bind ?_)
    rintro u c' ⟨hu, hc'⟩
    exact gives_pure ⟨congrArg (Prod.mk true) hu, hc'⟩
  | false =>
    replace hc : c.Shows ps (t.words ++ more) := hc
    have hfirst := firstKind_words hp more
    refine gives_refuse (fun hk => ?_) ((h ps t hp _ more hn hc hmore).bind ?_)
    · rw [← hc.kind, hk] at hfirst
      exact absurd hfirst (by decide)
    · rintro u c' ⟨hu, hc'⟩
      exact gives_pure ⟨congrArg (Prod.mk false) hu, hc'⟩

theorem ReadsTypes.returnTypes {n : Nat} {g : Grammar} (h : ReadsTypes n g) {ps : List Diagnostic} {ts : List TypeExpr}
    (hts : ∀ t ∈ ts, t.Names (fun _ => True)) {c : Cursor} {more : List Word} (hn : c.rest.length < n)
    (hc : c.Shows ps (commaWords (ts.map TypeExpr.words) ++ more)) (hmore : Word.firstKind more = .lparen) :
    Gives g.returnTypes c fun us c' => us.map TypeExpr.bare = ts.map TypeExpr.bare ∧ c'.Shows ps more := by
  refine gives_sees ?_
  rw [hc.kind]
  cases ts with
  | nil =>
    rw [if_pos (by simpa [commaWords, List.intercalate] using hmore)]
    exact gives_pure ⟨rfl, hc⟩
  | cons t ts =>
    obtain ⟨vs, hvs⟩ := exists_intercalate_cons [Word.mark .comma] t.words (ts.map TypeExpr.words)
    have hfirst := firstKind_words (hts t (by simp)) (vs ++ more)
    rw [← List.append_assoc, ← hvs, ← commaWords, ← List.map_cons] at hfirst
    rw [if_neg fun h => by rw [of_decide_eq_true h] at hfirst; exact absurd hfirst (by decide)]
    exact gives_rounds (gives_items (by decide) (by simp) (fun t ht => h ps t (hts t ht)) hn (Nat.lt_succ_self _) hc
      (by simp [hmore]) (by simp [hmore]))

/-- One more level of nesting reads types of one more token. -/
theorem ReadsTypes.step {n : Nat} {g : Grammar} (h : ReadsTypes n g) : ReadsTypes (n + 1) g.step := by
  intro ps t ht c more hn hc hmore
  change Gives g.typeStep c _
  refine gives_here (gives_current ?_)
  cases ht with
  | @named span path hne hpath =>
    obtain ⟨s, path, rfl⟩ := List.exists_cons_of_ne_nil hne
    have hwords : dottedWords (s :: path) = .name s :: (dottedWords (s :: path)).tail := by cases path <;> rfl
    rw [TypeExpr.words, hwords] at hc
    rw [hc.text.1]
    refine gives_advance (gives_rounds ((gives_dottedRest (Nat.lt_succ_self _) hc.advance hmore).bind ?_))
    rintro ys c' ⟨rfl, hc'⟩
    refine gives_spanFrom (gives_pure ⟨?_, hc'⟩)
    simp only [TypeExpr.bare, hc.text.2]
  | @array span elem helem =>
    rw [TypeExpr.words] at hc
    have hlength := hc.length_cons
    have hlength' := hc.advance.length_cons
    rw [hc.kind]
    refine gives_advance (gives_accept hc.advance.kind ((h ps elem helem _ more (by omega) hc.advance.advance hmore).bind ?_))
    rintro u c' ⟨hu, hc'⟩
    refine gives_spanFrom (gives_pure ⟨?_, hc'⟩)
    simp only [TypeExpr.bare, hu]
  | @map span key value hkey hvalue =>
    rw [TypeExpr.words, List.cons_append, List.append_assoc] at hc
    have hlength := hc.length_cons
    have hfirst := firstKind_words hkey (Word.mark .rbracket :: value.words ++ more)
    rw [hc.kind]
    refine gives_advance (gives_refuse (fun hk => ?_) ((h ps key hkey _ _ (by omega) hc.advance
      (by decide : Kind.rbracket ≠ .dot)).bind ?_))
    · rw [← hc.advance.kind, hk] at hfirst
      exact absurd hfirst (by decide)
    · rintro u c₁ ⟨hu, hc₁⟩
      have hle := hc.advance.length_le hc₁
      have hlength₁ := hc₁.length_cons
      refine gives_expect hc₁.kind ((h ps value hvalue _ more (by omega) hc₁.advance hmore).bind ?_)
      rintro v c₂ ⟨hv, hc₂⟩
      refine gives_spanFrom (gives_pure ⟨?_, hc₂⟩)
      simp only [TypeExpr.bare, hu, hv]
  | @func span coro returns params hreturns hparams =>
    -- the words behind `coro`, which two kinds of token lead to
    have hbody : ∀ (b : Bool) (start : Pos) (c : Cursor), c.rest.length < n + 1 →
        c.Shows ps (Word.mark .kwFunc :: (commaWords (typeWords returns) ++
          Word.mark .lparen :: (commaWords (paramWords params) ++ Word.mark .rparen :: more))) →
        Gives (do
          let _ ← expect .kwFunc
          let returns ← g.returnTypes
          let _ ← expect .lparen
          let params ← listUntil .rparen g.paramType
          let _ ← expect .rparen
          return TypeExpr.func (← spanFrom start) b returns params) c fun u c' =>
            u.bare = (TypeExpr.func span b returns params).bare ∧ c'.Shows ps more := by
      intro b start c hn hc
      have hlength := hc.length_cons
      rw [typeWords_eq_map, paramWords_eq_map] at hc
      refine gives_expect hc.kind ((h.returnTypes hreturns (by omega) hc.advance rfl).bind ?_)
      rintro us c₁ ⟨hus, hc₁⟩
      have hle := hc.advance.length_le hc₁
      have hlength₁ := hc₁.length_cons
      refine gives_expect hc₁.kind (Gives.bind (gives_rounds (gives_itemsUntil (by decide) (by decide) (by decide)
        (fun p hp => h.paramType (hparams p hp)) (fun p hp => firstKind_wordsOfParam (hparams p hp)) (by omega) (Nat.lt_succ_self _) hc₁.advance rfl)) ?_)
      rintro vs c₂ ⟨hvs, hc₂⟩
      refine gives_expect hc₂.kind (gives_spanFrom (gives_pure ⟨?_, hc₂.advance⟩))
      simp only [TypeExpr.bare, bareTypes_eq_map, bareParams_eq_map, hus, hvs]
    cases coro with
    | true =>
      replace hc : c.Shows ps (Word.mark .kwCoro :: Word.mark .kwFunc :: (commaWords (typeWords returns) ++
          Word.mark .lparen :: (commaWords (paramWords params) ++ Word.mark .rparen :: more))) := by
        simpa [TypeExpr.words] using hc
      have hlength := hc.length_cons
      rw [hc.kind]
      exact gives_accept hc.kind (hbody true _ _ (by omega) hc.advance)
    | false =>
      replace hc : c.Shows ps (Word.mark .kwFunc :: (commaWords (typeWords returns) ++
          Word.mark .lparen :: (commaWords (paramWords params) ++ Word.mark .rparen :: more))) := by
        simpa [TypeExpr.words] using hc
      rw [hc.kind]
      exact gives_refuse (by rw [hc.kind]; exact (by decide : Kind.kwFunc ≠ .kwCoro)) (hbody false _ _ hn hc)

theorem readsTypes_levels (n : Nat) : ReadsTypes n (levels n) := by
  induction n with
  | zero => exact fun _ _ _ _ _ hn => absurd hn (Nat.not_lt_zero _)
  | succ n ih => exact ih.step

/-! ## Spelling types -/

section Spelling

open Lexer

variable {more : List Char}

theorem ends_cons {c : Char} (hc : continuesName c = false) : Ends (c :: more) := by
  intro x hx
  obtain rfl := Option.some.inj hx
  exact hc

theorem spells_comma : Spells [','] [.mark .comma] more :=
  spells_mark rfl (by decide) (by decide) (by decide) rfl

theorem spells_lparen : Spells ['('] [.mark .lparen] more :=
  spells_mark rfl (by decide) (by decide) (by decide) rfl

theorem spells_rparen : Spells [')'] [.mark .rparen] more :=
  spells_mark rfl (by decide) (by decide) (by decide) rfl

theorem spells_lbracket : Spells ['['] [.mark .lbracket] more :=
  spells_mark rfl (by decide) (by decide) (by decide) rfl

theorem spells_rbracket : Spells [']'] [.mark .rbracket] more :=
  spells_mark rfl (by decide) (by decide) (by decide) rfl

/-- A reserved word and a blank spell the word in front of any text. -/
theorem spells_reserved (s : String) {k : Kind} {cs : List Char} (hs : IsWord s)
    (hk : Word.of ((Kind.ofWord? s).getD .ident) s = Word.mark k) (hcs : cs = s.toList ++ [' ']) :
    Spells cs [Word.mark k] more := by
  have h : Spells s.toList _ (' ' :: more) := spells_isWord hs (ends_cons (by decide +kernel))
  rw [hk] at h
  rw [hcs]
  exact h.append (spells_blank (by decide))

theorem spells_coro : Spells "coro ".toList [.mark .kwCoro] more :=
  spells_reserved "coro" ⟨'c', ['o', 'r', 'o'], rfl, by decide +kernel, List.all_eq_true.mp (by decide +kernel)⟩ rfl rfl

theorem spells_func : Spells "func ".toList [.mark .kwFunc] more :=
  spells_reserved "func" ⟨'f', ['u', 'n', 'c'], rfl, by decide +kernel, List.all_eq_true.mp (by decide +kernel)⟩ rfl rfl

theorem spells_ref : Spells "ref ".toList [.mark .kwRef] more :=
  spells_reserved "ref" ⟨'r', ['e', 'f'], rfl, by decide +kernel, List.all_eq_true.mp (by decide +kernel)⟩ rfl rfl

/-- A point spells itself in front of a name. -/
theorem spells_dot {s : String} (hs : IsWord s) {cs : List Char} : Spells ['.'] [Word.mark .dot] (s.toList ++ cs) := by
  obtain ⟨c, rest, hcs, hc, -⟩ := hs
  rw [hcs]
  refine spells_mark ?_ (by decide) (by decide) (by decide) rfl
  show (if isDigit c then number '.' (c :: (rest ++ cs)) else single .dot '.') = single .dot '.'
  rw [if_neg (by simp [not_isDigit_of_startsName hc])]

theorem spells_dotted {path : List String} (hne : path ≠ []) (hpath : ∀ s ∈ path, IsName s) (hmore : Ends more) :
    Spells (['.'].intercalate (path.map String.toList)) (dottedWords path) more := by
  induction path with
  | nil => exact absurd rfl hne
  | cons s path ih =>
    cases path with
    | nil => simpa [List.intercalate, dottedWords] using spells_name (hpath s (by simp)) hmore
    | cons s' path =>
      have hrest := ih (by simp) fun s hs => hpath s (List.mem_cons_of_mem _ hs)
      obtain ⟨cs, hcs⟩ := exists_intercalate_cons ['.'] s'.toList (path.map String.toList)
      have hdot : Spells ['.'] [Word.mark .dot] (['.'].intercalate (List.map String.toList (s' :: path)) ++ more) := by
        rw [List.map_cons, hcs, List.append_assoc]
        exact spells_dot (hpath s' (by simp)).1
      have hname : Spells s.toList [Word.name s] (['.'] ++ ['.'].intercalate (List.map String.toList (s' :: path)) ++ more) :=
        spells_name (hpath s (by simp)) (ends_cons continuesName_point)
      rw [List.map_cons, List.map_cons, List.intercalate_cons_cons, List.append_assoc]
      exact hname.append (hdot.append hrest)

/-- Texts with commas between them spell the lists of their words with commas between them. -/
theorem spells_commas {α : Type} {text : α → List Char} {words : α → List Word} {xs : List α}
    (hxs : ∀ x ∈ xs, ∀ more, Ends more → Spells (text x) (words x) more) (hmore : Ends more) :
    Spells ([','].intercalate (xs.map text)) (commaWords (xs.map words)) more := by
  induction xs with
  | nil => exact .nil
  | cons x xs ih =>
    cases xs with
    | nil => simpa [List.intercalate, commaWords] using hxs x (by simp) more hmore
    | cons x' xs =>
      have hrest := spells_comma.append (ih fun x hx => hxs x (List.mem_cons_of_mem _ hx))
      have hfirst := hxs x (by simp) ([','] ++ [','].intercalate (List.map text (x' :: xs)) ++ more)
        (ends_cons (by decide +kernel))
      rw [List.map_cons, List.map_cons, List.map_cons, List.map_cons, commaWords_cons_cons, List.intercalate_cons_cons,
        List.append_assoc]
      exact hfirst.append hrest

/-- The text of a type spells its words where no word goes on. -/
theorem spells_text {t : TypeExpr} (ht : t.Names IsName) (hmore : Ends more) : Spells t.text.toList t.words more := by
  induction ht generalizing more with
  | named hne hpath =>
    rw [TypeExpr.text, TypeExpr.words, String.toList_intercalate]
    exact spells_dotted hne hpath hmore
  | array helem ih =>
    rw [TypeExpr.text, TypeExpr.words, String.toList_append]
    exact spells_lbracket.append (spells_rbracket.append (ih hmore))
  | map hkey hvalue ihkey ihvalue =>
    have h := spells_lbracket.append ((ihkey (ends_cons (by decide +kernel))).append
      (spells_rbracket.append (ihvalue hmore)))
    simpa [TypeExpr.text, TypeExpr.words] using h
  | @func span coro returns params hreturns hparams ihreturns ihparams =>
    have hcoro : ∀ more, Spells (if coro then "coro ".toList else []) (if coro then [.mark .kwCoro] else []) more := by
      intro more
      cases coro with
      | true => exact spells_coro
      | false => exact .nil
    have hparam : ∀ p ∈ params, ∀ more, Ends more → Spells (textOfParam p).toList (wordsOfParam p) more := by
      rintro ⟨ref, t⟩ hp more hmore
      cases ref with
      | true =>
        have h := spells_ref.append (ihparams _ hp hmore)
        rw [← String.toList_append] at h
        exact h
      | false =>
        have htext : textOfParam (false, t) = t.text := by simp [textOfParam]
        rw [htext]
        exact ihparams _ hp hmore
    have hparens := spells_lparen.append ((spells_commas hparam (ends_cons (by decide +kernel))).append
      (spells_rparen : Spells _ _ more))
    have hreturns := (spells_commas (fun t ht more hmore => ihreturns t ht hmore) (ends_cons (by decide +kernel))).append
      hparens
    have h := (hcoro _).append (spells_func.append hreturns)
    have htext : (TypeExpr.func span coro returns params).text.toList = (if coro then "coro ".toList else []) ++
        ("func ".toList ++ ([','].intercalate (returns.map fun t => t.text.toList) ++
          (['('] ++ ([','].intercalate (params.map fun p => (textOfParam p).toList) ++ [')'])))) := by
      simp only [TypeExpr.text, texts_eq_map, paramTexts_eq_map, String.toList_append, String.toList_intercalate,
        List.map_map, List.append_assoc]
      cases coro <;> rfl
    have hwords : (TypeExpr.func span coro returns params).words = (if coro then [Word.mark .kwCoro] else []) ++
        ([Word.mark .kwFunc] ++ (commaWords (returns.map TypeExpr.words) ++
          ([Word.mark .lparen] ++ (commaWords (params.map wordsOfParam) ++ [Word.mark .rparen])))) := by
      simp only [TypeExpr.words, typeWords_eq_map, paramWords_eq_map, List.singleton_append]
    rw [htext, hwords]
    exact h

end Spelling

/-! ## Reading texts of types -/

theorem shows_start_of_spells {file s : String} {ws : List Word} (h : Lexer.Spells s.toList ws []) :
    (Cursor.start file (Text.encode s)).Shows [] ws := by
  obtain ⟨ts, e, hscan, hwords, he⟩ := h.scan
  rw [← hwords]
  exact Cursor.shows_start hscan (fun t ht => h.plain t.word (by rw [← hwords]; exact List.mem_map_of_mem ht)) he

/-- The text of a type is read as this type. -/
theorem parseType_text {t : TypeExpr} (ht : t.Names Lexer.IsName) :
    ∃ u, parseType (Text.encode t.text) = .ok u ∧ u.bare = t.bare := by
  have hspells : Lexer.Spells t.text.toList t.words [] := spells_text ht fun c hc => by cases hc
  have hshows : (Cursor.start "" (Text.encode t.text)).Shows [] t.words := shows_start_of_spells hspells
  have hgives : Gives (wholeType (levels ((Cursor.start "" (Text.encode t.text)).rest.length + 1)))
      (Cursor.start "" (Text.encode t.text)) fun u c' => u.bare = t.bare ∧ c'.Shows [] [] := by
    refine (readsTypes_levels _ [] t (ht.mono fun _ _ => True.intro) _ [] (Nat.lt_succ_self _) ?_
      (by decide : Kind.eof ≠ .dot)).bind ?_
    · rwa [List.append_nil]
    · rintro u c ⟨hu, hc⟩
      refine gives_sees ?_
      rw [hc.kind]
      exact gives_pure ⟨hu, hc⟩
  obtain ⟨u, c, hread, hu, hc⟩ := hgives
  refine ⟨u, ?_, hu⟩
  rw [parseType_of_read hread, Option.elim_some, hc.problems]
  rfl

/-- Writing a type and reading it gives the type again, with the places of the text: for every type whose names are names
of source texts, so that types with one text are the same but for their places, and for every type that is read from a
source text. -/
theorem parseType_inverts_text :
    (∀ t : TypeExpr, t.Names Lexer.IsName → ∃ u, parseType (Text.encode t.text) = .ok u ∧ u.bare = t.bare) ∧
    (∀ t u : TypeExpr, t.Names Lexer.IsName → u.Names Lexer.IsName → t.text = u.text → t.bare = u.bare) ∧
    (∀ (src : Bytes) (t : TypeExpr), parseType src = .ok t →
      ∃ u, parseType (Text.encode t.text) = .ok u ∧ u.bare = t.bare) := by
  refine ⟨fun t => parseType_text, fun t u ht hu htext => ?_, fun src t h => parseType_text (names_parseType h)⟩
  obtain ⟨t', ht', hbare⟩ := parseType_text ht
  obtain ⟨u', hu', hbare'⟩ := parseType_text hu
  rw [htext, hu'] at ht'
  cases ht'
  exact hbare.symm.trans hbare'

end Weft.Tree
