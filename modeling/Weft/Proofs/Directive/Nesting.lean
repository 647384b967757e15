import Mathlib.Data.List.Forall2
import Weft.Directive
import Weft.Proofs.Text.Glyphs

/-!
# Nested conditions

The lines of a text nest when every `#if` has its `#endif` behind it and at most one `#else` between them, on every level.
Then each line stands in the branches of the conditions around it, outermost first, and it is kept just when all of them
are selected. A text fails in no other way than by lines that do not nest.
-/

namespace Weft.Directive

/-! ## Lines of a text -/

section Lines

theorem splitLines_ne_nil (s : Bytes) : splitLines s ≠ [] := by
  cases s with
  | nil => simp [splitLines]
  | cons b s =>
    rw [splitLines]
    split
    · simp
    · split <;> simp

theorem splitLines_cons_of_ne {b : UInt8} {s line : Bytes} {more : List Bytes} (hb : b ≠ 10) (h : splitLines s = line :: more) :
    splitLines (b :: s) = (b :: line) :: more := by
  rw [splitLines, if_neg hb, h]

/-- No line has a newline in it, and the bytes of a line are bytes of the text. -/
theorem of_mem_splitLines {s l : Bytes} (hl : l ∈ splitLines s) : 10 ∉ l ∧ l ⊆ s := by
  induction s generalizing l with
  | nil => simp_all [splitLines]
  | cons b s ih =>
    by_cases hb : b = 10
    · rw [splitLines, if_pos hb, List.mem_cons] at hl
      rcases hl with rfl | hl
      · simp
      · exact ⟨(ih hl).1, List.subset_cons_of_subset _ (ih hl).2⟩
    · obtain ⟨line, more, hs⟩ := List.exists_cons_of_ne_nil (splitLines_ne_nil s)
      rw [splitLines_cons_of_ne hb hs, List.mem_cons] at hl
      rw [hs] at ih
      rcases hl with rfl | hl
      · have hline := ih List.mem_cons_self
        exact ⟨by simpa using ⟨Ne.symm hb, hline.1⟩, List.cons_subset_cons _ hline.2⟩
      · have hmore := ih (List.mem_cons_of_mem _ hl)
        exact ⟨hmore.1, List.subset_cons_of_subset _ hmore.2⟩

theorem joinLines_cons (l : Bytes) {ls : List Bytes} (h : ls ≠ []) : joinLines (l :: ls) = l ++ 10 :: joinLines ls := by
  cases ls with
  | nil => exact absurd rfl h
  | cons m ls => rfl

theorem joinLines_cons_cons (b : UInt8) (l : Bytes) (ls : List Bytes) : joinLines ((b :: l) :: ls) = b :: joinLines (l :: ls) := by
  cases ls <;> rfl

theorem joinLines_splitLines (s : Bytes) : joinLines (splitLines s) = s := by
  induction s with
  | nil => rfl
  | cons b s ih =>
    by_cases hb : b = 10
    · rw [splitLines, if_pos hb, joinLines_cons _ (splitLines_ne_nil s), ih, hb, List.nil_append]
    · obtain ⟨line, more, hs⟩ := List.exists_cons_of_ne_nil (splitLines_ne_nil s)
      rw [splitLines_cons_of_ne hb hs, joinLines_cons_cons, ← hs, ih]

theorem splitLines_append_newline {l : Bytes} (h : 10 ∉ l) (s : Bytes) : splitLines (l ++ 10 :: s) = l :: splitLines s := by
  induction l with
  | nil => simp [splitLines]
  | cons b l ih =>
    rw [List.mem_cons, not_or] at h
    rw [List.cons_append, splitLines_cons_of_ne (Ne.symm h.1) (ih h.2)]

theorem splitLines_of_notMem {l : Bytes} (h : 10 ∉ l) : splitLines l = [l] := by
  induction l with
  | nil => rfl
  | cons b l ih =>
    rw [List.mem_cons, not_or] at h
    exact splitLines_cons_of_ne (Ne.symm h.1) (ih h.2)

theorem splitLines_joinLines {ls : List Bytes} (hne : ls ≠ []) (h : ∀ l ∈ ls, 10 ∉ l) : splitLines (joinLines ls) = ls := by
  induction ls with
  | nil => exact absurd rfl hne
  | cons l ls ih =>
    rw [List.forall_mem_cons] at h
    by_cases hls : ls = []
    · rw [hls]
      exact splitLines_of_notMem h.1
    · rw [joinLines_cons l hls, splitLines_append_newline h.1, ih hls h.2]

end Lines

/-! ## Directives -/

theorem mem_of_mem_trim {l : Bytes} {b : UInt8} (h : b ∈ Text.trim l) : b ∈ l := by
  rw [Text.trim, Text.glyphBytes, List.mem_flatMap] at h
  obtain ⟨g, hg, hb⟩ := h
  have hmem : g ∈ Text.glyphs l :=
    List.dropWhile_subset _ (List.mem_reverse.mp (List.dropWhile_subset _ (List.mem_reverse.mp hg)))
  rw [← Text.glyphBytes_glyphs l, Text.glyphBytes]
  exact List.mem_flatMap.mpr ⟨g, hmem, hb⟩

theorem plain_of_notMem {l : Bytes} (h : 0x23 ∉ l) : Line.ofBytes l = .plain := by
  have htrim : 0x23 ∉ Text.trim l := fun hmem => h (mem_of_mem_trim hmem)
  have hopening : ¬(Text.encode "#if ").isPrefixOf (Text.trim l) = true := fun hinitial =>
    htrim ((List.isPrefixOf_iff_prefix.mp hinitial).subset (by decide +kernel))
  have hother : ∀ t : String, 0x23 ∈ Text.encode t → Text.trim l ≠ Text.encode t := fun t ht he => htrim (he ▸ ht)
  rw [Line.ofBytes]
  simp only [if_neg hopening, if_neg (hother "#else" (by decide +kernel)), if_neg (hother "#endif" (by decide +kernel))]

theorem plain_nil : Line.ofBytes [] = .plain := plain_of_notMem List.not_mem_nil

/-! ## Conditions that nest -/

/-- A branch of a condition: the name that is asked for, whether it has to be undefined, and whether the branch stands
behind the `#else`. -/
structure Branch where
  name : Bytes
  negated : Bool
  inverted : Bool

/-- Whether the names that are defined select a branch. -/
def Branch.selected (defined : Bytes → Bool) (b : Branch) : Bool := (defined b.name != b.negated) != b.inverted

/-- What a line is: a directive, or text inside the branches of some conditions, outermost first. -/
inductive Role where
  | directive
  | text (inside : List Branch)

namespace Role

/-- What a line is in a branch of one condition more. -/
def within (b : Branch) : Role → Role
  | directive => directive
  | text inside => text (b :: inside)

/-- What is left of a line. Text is kept if the text around it is and all its branches are selected. -/
def shown (defined : Bytes → Bool) (around : Bool) : Role → Bytes → Bytes
  | directive, _ => []
  | text inside, l => if around && inside.all (Branch.selected defined) then l else []

theorem shown_within (defined : Bytes → Bool) (around : Bool) (b : Branch) (r : Role) (l : Bytes) :
    (r.within b).shown defined around l = r.shown defined (around && b.selected defined) l := by
  cases r with
  | directive => rfl
  | text inside =>
    simp only [within, shown, List.all_cons, Bool.and_assoc]
    rfl

theorem zipWith_within (defined : Bytes → Bool) (around : Bool) (b : Branch) (rs : List Role) (ls : List Bytes) :
    List.zipWith (shown defined around) (rs.map (within b)) ls =
      List.zipWith (shown defined (around && b.selected defined)) rs ls := by
  rw [List.zipWith_map_left]
  congr
  funext r l
  exact shown_within defined around b r l

end Role

/-- Lines whose directives nest, with what each line is. -/
inductive Nested : List Bytes → List Role → Prop
  | nil : Nested [] []
  | plain {l : Bytes} {ls : List Bytes} {rs : List Role} (hline : Line.ofBytes l = .plain) (hrest : Nested ls rs) :
      Nested (l :: ls) (.text [] :: rs)
  | condition {o e name : Bytes} {negated : Bool} {body ls : List Bytes} {rs rest : List Role}
      (hopen : Line.ofBytes o = .opening name negated) (hbody : Nested body rs) (hclose : Line.ofBytes e = .closing)
      (hrest : Nested ls rest) :
      Nested (o :: body ++ e :: ls) (Role.directive :: rs.map (Role.within ⟨name, negated, false⟩) ++ Role.directive :: rest)
  | choice {o a e name : Bytes} {negated : Bool} {body other ls : List Bytes} {rs rs' rest : List Role}
      (hopen : Line.ofBytes o = .opening name negated) (hbody : Nested body rs) (helse : Line.ofBytes a = .alternative)
      (hother : Nested other rs') (hclose : Line.ofBytes e = .closing) (hrest : Nested ls rest) :
      Nested (o :: body ++ a :: other ++ e :: ls)
        (Role.directive :: rs.map (Role.within ⟨name, negated, false⟩) ++
          Role.directive :: rs'.map (Role.within ⟨name, negated, true⟩) ++ Role.directive :: rest)

/-- Lines whose directives nest. -/
def Balanced (ls : List Bytes) : Prop := ∃ rs, Nested ls rs

/-- A line that reads as a directive is one, and all other lines are text. -/
def Role.Fits : Role → Bytes → Prop
  | directive, l => Line.ofBytes l ≠ .plain
  | text _, l => Line.ofBytes l = .plain

theorem Role.fits_within {b : Branch} {rs : List Role} {ls : List Bytes} (h : List.Forall₂ Role.Fits rs ls) :
    List.Forall₂ Role.Fits (rs.map (.within b)) ls := by
  refine List.forall₂_map_left_iff.mpr (h.imp fun r _ hfits => ?_)
  cases r <;> exact hfits

theorem Nested.fits {ls : List Bytes} {rs : List Role} (h : Nested ls rs) : List.Forall₂ Role.Fits rs ls := by
  have hdirective : ∀ {l : Bytes} {x : Line}, Line.ofBytes l = x → x ≠ .plain → Role.directive.Fits l :=
    fun h hx he => hx (h.symm.trans he)
  induction h with
  | nil => exact .nil
  | plain hline _ ih => exact .cons hline ih
  | condition hopen _ hclose _ ihbody ih =>
    exact List.rel_append (.cons (hdirective hopen (by simp)) (Role.fits_within ihbody)) (.cons (hdirective hclose (by simp)) ih)
  | choice hopen _ helse _ hclose _ ihbody ihother ih =>
    refine List.rel_append (List.rel_append ?_ ?_) (.cons (hdirective hclose (by simp)) ih)
    · exact .cons (hdirective hopen (by simp)) (Role.fits_within ihbody)
    · exact .cons (hdirective helse (by simp)) (Role.fits_within ihother)

theorem Nested.length_eq {ls : List Bytes} {rs : List Role} (h : Nested ls rs) : rs.length = ls.length := h.fits.length_eq

theorem Nested.append {ls ls' : List Bytes} {rs rs' : List Role} (h : Nested ls rs) (h' : Nested ls' rs') :
    Nested (ls ++ ls') (rs ++ rs') := by
  induction h with
  | nil => exact h'
  | plain hline _ ih => exact .plain hline ih
  | condition hopen hbody hclose _ _ ih => simpa using Nested.condition hopen hbody hclose ih
  | choice hopen hbody helse hother hclose _ _ _ ih => simpa using Nested.choice hopen hbody helse hother hclose ih

theorem zipWith_shown_plain (defined : Bytes → Bool) (ls : List Bytes) :
    List.zipWith (Role.shown defined true) (ls.map fun _ => .text []) ls = ls := by
  induction ls with
  | nil => rfl
  | cons l ls ih => rw [List.map_cons, List.zipWith_cons_cons, ih, Role.shown, List.all_nil, Bool.and_true, if_pos rfl]

theorem nested_plain {ls : List Bytes} (h : ∀ l ∈ ls, Line.ofBytes l = .plain) : Nested ls (ls.map fun _ => .text []) := by
  induction ls with
  | nil => exact .nil
  | cons l ls ih =>
    rw [List.forall_mem_cons] at h
    exact .plain h.1 (ih h.2)

/-! ## One line after the other -/

section Lines

variable {defined : Bytes → Bool} {n : Nat} {fs : List Frame} {l : Bytes} {ls : List Bytes}

theorem kept_cons (f : Frame) (fs : List Frame) : kept (f :: fs) = f.active := rfl

theorem lines_opening {name : Bytes} {negated : Bool} (h : Line.ofBytes l = .opening name negated) :
    lines defined n fs (l :: ls) =
      ([] :: ·) <$> lines defined (n + 1) (⟨kept fs && (defined name != negated), kept fs, false⟩ :: fs) ls := by
  rw [lines.eq_def]
  simp only [h]
  rfl

theorem lines_alternative {f : Frame} (h : Line.ofBytes l = .alternative) (hf : f.inverted = false) :
    lines defined n (f :: fs) (l :: ls) = ([] :: ·) <$> lines defined (n + 1) (⟨f.outer && !f.active, f.outer, true⟩ :: fs) ls := by
  rw [lines.eq_def]
  simp only [h]
  simp only [hf]
  rfl

theorem lines_secondElse {f : Frame} (h : Line.ofBytes l = .alternative) (hf : f.inverted = true) :
    lines defined n (f :: fs) (l :: ls) = .error (.secondElse n) := by
  rw [lines.eq_def]
  simp only [h]
  simp only [hf, if_true]

theorem lines_strayElse (h : Line.ofBytes l = .alternative) : lines defined n [] (l :: ls) = .error (.strayElse n) := by
  rw [lines.eq_def]
  simp only [h]

theorem lines_closing {f : Frame} (h : Line.ofBytes l = .closing) :
    lines defined n (f :: fs) (l :: ls) = ([] :: ·) <$> lines defined (n + 1) fs ls := by
  rw [lines.eq_def]
  simp only [h]
  rfl

theorem lines_strayEnd (h : Line.ofBytes l = .closing) : lines defined n [] (l :: ls) = .error (.strayEnd n) := by
  rw [lines.eq_def]
  simp only [h]

end Lines

variable {defined : Bytes → Bool} {src : Bytes} {ls : List Bytes} {rs : List Role}

variable (defined) in
/-- Lines that nest are read whatever stands before and behind them, and leave the open conditions as they were. -/
theorem lines_nested (h : Nested ls rs) (n : Nat) (fs : List Frame) (rest : List Bytes) :
    lines defined n fs (ls ++ rest) =
      (List.zipWith (Role.shown defined (kept fs)) rs ls ++ ·) <$> lines defined (n + ls.length) fs rest := by
  induction h generalizing n fs rest with
  | nil => simp
  | plain hline _ ih =>
    rw [List.cons_append, lines_plain hline, ih, Functor.map_map, List.length_cons, Nat.add_assoc, Nat.add_comm 1]
    simp [Role.shown]
  | @condition o e name negated body ls rs rest' hopen hbody hclose _ ihbody ih =>
    have hlen : n + 1 + body.length + 1 + ls.length = n + (o :: body ++ e :: ls).length := by
      simp only [List.length_append, List.length_cons]
      omega
    have hread : lines defined n fs (o :: body ++ e :: ls ++ rest) = lines defined n fs (o :: (body ++ e :: (ls ++ rest))) := by
      simp
    rw [hread, lines_opening hopen, ihbody, lines_closing hclose, ih, hlen, Functor.map_map, Functor.map_map, Functor.map_map,
      List.zipWith_append (by simp [hbody.length_eq])]
    simp [Role.zipWith_within, Role.shown, Branch.selected, kept_cons]
  | @choice o a e name negated body other ls rs rs' rest' hopen hbody helse hother hclose _ ihbody ihother ih =>
    have hlen : n + 1 + body.length + 1 + other.length + 1 + ls.length = n + (o :: body ++ a :: other ++ e :: ls).length := by
      simp only [List.length_append, List.length_cons]
      omega
    have hread : lines defined n fs (o :: body ++ a :: other ++ e :: ls ++ rest) =
        lines defined n fs (o :: (body ++ a :: (other ++ e :: (ls ++ rest)))) := by
      simp
    -- behind the `#else` the condition is inverted, and the text around it decides as before
    have hinverted : ∀ k c : Bool, (k && !(k && c)) = (k && !c) := by decide
    rw [hread, lines_opening hopen, ihbody, lines_alternative helse rfl, ihother, lines_closing hclose, ih, hlen,
      Functor.map_map, Functor.map_map, Functor.map_map, Functor.map_map, Functor.map_map,
      List.zipWith_append (by simp [hbody.length_eq, hother.length_eq]), List.zipWith_append (by simp [hbody.length_eq])]
    simp only [kept_cons, hinverted]
    simp [Role.zipWith_within, Role.shown, Branch.selected]

/-! ## Lines that do not nest -/

/-- A condition that is not closed as it should be: one with a second `#else`, or one that is open at the end. -/
inductive Dangling : List Bytes → Prop
  | secondElse {o a a' name : Bytes} {negated : Bool} {body other : List Bytes} (before behind : List Bytes)
      (hopen : Line.ofBytes o = .opening name negated) (hbody : Balanced body) (helse : Line.ofBytes a = .alternative)
      (hother : Balanced other) (hagain : Line.ofBytes a' = .alternative) :
      Dangling (before ++ o :: body ++ a :: other ++ a' :: behind)
  | open_ {o name : Bytes} {negated : Bool} {body : List Bytes} (before : List Bytes)
      (hopen : Line.ofBytes o = .opening name negated) (hbody : Balanced body) : Dangling (before ++ o :: body)
  | openElse {o a name : Bytes} {negated : Bool} {body other : List Bytes} (before : List Bytes)
      (hopen : Line.ofBytes o = .opening name negated) (hbody : Balanced body) (helse : Line.ofBytes a = .alternative)
      (hother : Balanced other) : Dangling (before ++ o :: body ++ a :: other)

/-- An `#else` or an `#endif` where all conditions before it are closed. -/
inductive Stray : List Bytes → Prop
  | intro {before : List Bytes} {l : Bytes} (behind : List Bytes) (hbefore : Balanced before)
      (hline : Line.ofBytes l = .alternative ∨ Line.ofBytes l = .closing) : Stray (before ++ l :: behind)

theorem Dangling.prepend {ls : List Bytes} (h : Dangling ls) (before : List Bytes) : Dangling (before ++ ls) := by
  cases h with
  | secondElse before' behind hopen hbody helse hother hagain =>
    simpa using Dangling.secondElse (before ++ before') behind hopen hbody helse hother hagain
  | open_ before' hopen hbody => simpa using Dangling.open_ (before ++ before') hopen hbody
  | openElse before' hopen hbody helse hother => simpa using Dangling.openElse (before ++ before') hopen hbody helse hother

theorem Balanced.nil : Balanced [] := ⟨_, .nil⟩

theorem Balanced.append {ls ls' : List Bytes} (h : Balanced ls) (h' : Balanced ls') : Balanced (ls ++ ls') := by
  obtain ⟨rs, h⟩ := h
  obtain ⟨rs', h'⟩ := h'
  exact ⟨_, h.append h'⟩

theorem Balanced.plain {l : Bytes} (h : Line.ofBytes l = .plain) : Balanced [l] := ⟨_, .plain h .nil⟩

theorem Balanced.condition {o e name : Bytes} {negated : Bool} {body : List Bytes} (hopen : Line.ofBytes o = .opening name negated)
    (hbody : Balanced body) (hclose : Line.ofBytes e = .closing) : Balanced (o :: body ++ [e]) := by
  obtain ⟨rs, hbody⟩ := hbody
  exact ⟨_, .condition hopen hbody hclose .nil⟩

theorem Balanced.choice {o a e name : Bytes} {negated : Bool} {body other : List Bytes}
    (hopen : Line.ofBytes o = .opening name negated) (hbody : Balanced body) (helse : Line.ofBytes a = .alternative)
    (hother : Balanced other) (hclose : Line.ofBytes e = .closing) : Balanced (o :: body ++ a :: other ++ [e]) := by
  obtain ⟨rs, hbody⟩ := hbody
  obtain ⟨rs', hother⟩ := hother
  exact ⟨_, .choice hopen hbody helse hother hclose .nil⟩

theorem Stray.prepend {ls before : List Bytes} (h : Stray ls) (hbefore : Balanced before) : Stray (before ++ ls) := by
  obtain ⟨behind, hnested, hline⟩ := h
  simpa using Stray.intro behind (hbefore.append hnested) hline

/-- Lines nest, or they stop nesting at a directive without a condition, or a condition in them is not closed. -/
theorem balanced_or (ls : List Bytes) : Balanced ls ∨ Stray ls ∨ Dangling ls := by
  induction hlen : ls.length using Nat.strong_induction_on generalizing ls with
  | _ n ih =>
    cases ls with
    | nil => exact .inl .nil
    | cons l ls =>
      rw [List.length_cons] at hlen
      -- what follows lines that nest decides about all of them
      have hgo : ∀ front rest : List Bytes, l :: ls = front ++ rest → rest.length < n → Balanced front →
          Balanced (l :: ls) ∨ Stray (l :: ls) ∨ Dangling (l :: ls) := by
        intro front rest heq hrest hfront
        rw [heq]
        rcases ih _ hrest rest rfl with h | h | h
        · exact .inl (hfront.append h)
        · exact .inr (.inl (h.prepend hfront))
        · exact .inr (.inr (h.prepend _))
      cases hl : Line.ofBytes l with
      | plain => exact hgo [l] ls rfl (by omega) (.plain hl)
      | alternative => exact .inr (.inl (.intro ls .nil (.inl hl)))
      | closing => exact .inr (.inl (.intro ls .nil (.inr hl)))
      | opening name negated =>
        rcases ih _ (by omega) ls rfl with h | ⟨@⟨body, a, behind, hbody, ha⟩⟩ | h
        · exact .inr (.inr (.open_ [] hl h))
        · rcases ha with ha | ha
          · rcases ih _ (by simp at hlen; omega) behind rfl with h | ⟨@⟨other, e, behind', hother, he⟩⟩ | h
            · exact .inr (.inr (.openElse [] hl hbody ha h))
            · rcases he with he | he
              · exact .inr (.inr (by simpa using Dangling.secondElse [] behind' hl hbody ha hother he))
              · exact hgo _ behind' (by simp) (by simp at hlen; omega) (.choice hl hbody ha hother he)
            · exact .inr (.inr (by simpa using h.prepend (l :: body ++ [a])))
          · exact hgo _ behind (by simp) (by simp at hlen; omega) (.condition hl hbody ha)
        · exact .inr (.inr (h.prepend [l]))

theorem map_eq_ok {α β : Type} {f : α → β} {r : Except Error α} {b : β} (h : f <$> r = .ok b) : ∃ a, r = .ok a := by
  cases r with
  | ok a => exact ⟨a, rfl⟩
  | error e => cases h

/-- When a text is kept, the lines behind any of its lines are read under some conditions. -/
theorem lines_ok_of_append {before : List Bytes} {n : Nat} {fs : List Frame} {out : List Bytes}
    (h : lines defined n fs (before ++ ls) = .ok out) : ∃ n' fs' out', lines defined n' fs' ls = .ok out' := by
  induction before generalizing n fs out with
  | nil => exact ⟨n, fs, out, h⟩
  | cons l before ih =>
    rw [List.cons_append] at h
    cases hl : Line.ofBytes l with
    | plain =>
      rw [lines_plain hl] at h
      exact ih (map_eq_ok h).choose_spec
    | opening name negated =>
      rw [lines_opening hl] at h
      exact ih (map_eq_ok h).choose_spec
    | alternative =>
      cases fs with
      | nil =>
        rw [lines_strayElse hl] at h
        cases h
      | cons f fs =>
        cases hf : f.inverted with
        | true =>
          rw [lines_secondElse hl hf] at h
          cases h
        | false =>
          rw [lines_alternative hl hf] at h
          exact ih (map_eq_ok h).choose_spec
    | closing =>
      cases fs with
      | nil =>
        rw [lines_strayEnd hl] at h
        cases h
      | cons f fs =>
        rw [lines_closing hl] at h
        exact ih (map_eq_ok h).choose_spec

theorem lines_end (n : Nat) (fs : List Frame) : lines defined n fs [] = if fs.isEmpty then .ok [] else .error .unclosed := by
  rw [lines]

theorem lines_of_nested (h : Nested ls rs) (n : Nat) :
    lines defined n [] ls = .ok (List.zipWith (Role.shown defined true) rs ls) := by
  have hread := lines_nested defined h n [] []
  rw [List.append_nil, lines_end] at hread
  rw [hread]
  simp [kept]

variable (defined) in
theorem Stray.fails (h : Stray ls) : ∃ e, lines defined 1 [] ls = .error e := by
  obtain ⟨behind, ⟨rs, hbefore⟩, hl⟩ := h
  rw [lines_nested defined hbefore]
  rcases hl with hl | hl
  · rw [lines_strayElse hl]
    exact ⟨_, rfl⟩
  · rw [lines_strayEnd hl]
    exact ⟨_, rfl⟩

variable (defined) in
theorem Dangling.fails (h : Dangling ls) : ∃ e, lines defined 1 [] ls = .error e := by
  -- whatever stands before the condition, the lines from its `#if` on cannot be kept
  suffices hfails : ∃ before rest, ls = before ++ rest ∧ ∀ n fs, ∃ e, lines defined n fs rest = .error e by
    obtain ⟨before, rest, rfl, hrest⟩ := hfails
    cases hread : lines defined 1 [] (before ++ rest) with
    | error e => exact ⟨e, rfl⟩
    | ok out =>
      obtain ⟨n, fs, out', hok⟩ := lines_ok_of_append hread
      obtain ⟨e, he⟩ := hrest n fs
      rw [he] at hok
      cases hok
  cases h with
  | @secondElse o a a' name negated body other before behind hopen hbody helse hother hagain =>
    obtain ⟨rs, hbody⟩ := hbody
    obtain ⟨rs', hother⟩ := hother
    refine ⟨before, o :: (body ++ a :: (other ++ a' :: behind)), by simp, fun n fs => ?_⟩
    rw [lines_opening hopen, lines_nested defined hbody, lines_alternative helse rfl, lines_nested defined hother, lines_secondElse hagain rfl]
    exact ⟨_, rfl⟩
  | @open_ o name negated body before hopen hbody =>
    obtain ⟨rs, hbody⟩ := hbody
    refine ⟨before, o :: (body ++ []), by simp, fun n fs => ?_⟩
    rw [lines_opening hopen, lines_nested defined hbody, lines_end]
    exact ⟨_, rfl⟩
  | @openElse o a name negated body other before hopen hbody helse hother =>
    obtain ⟨rs, hbody⟩ := hbody
    obtain ⟨rs', hother⟩ := hother
    refine ⟨before, o :: (body ++ a :: (other ++ [])), by simp, fun n fs => ?_⟩
    rw [lines_opening hopen, lines_nested defined hbody, lines_alternative helse rfl, lines_nested defined hother, lines_end]
    exact ⟨_, rfl⟩

/-- Lines that nest have no directive without a condition and no condition that is not closed. -/
theorem balanced_iff : Balanced ls ↔ ¬(Stray ls ∨ Dangling ls) := by
  constructor
  · rintro ⟨rs, h⟩ hbad
    obtain ⟨e, he⟩ := hbad.elim (Stray.fails fun _ => true) (Dangling.fails _)
    rw [lines_of_nested h] at he
    cases he
  · exact (balanced_or ls).resolve_right

/-- What an error says of the lines from number `n` on: the line that it names has the directive that it is about. -/
inductive Error.Blames (n : Nat) (ls : List Bytes) : Error → Prop
  | strayElse {i : Nat} {l : Bytes} (hl : ls[i]? = some l) (h : Line.ofBytes l = .alternative) : Blames n ls (.strayElse (n + i))
  | secondElse {i : Nat} {l : Bytes} (hl : ls[i]? = some l) (h : Line.ofBytes l = .alternative) : Blames n ls (.secondElse (n + i))
  | strayEnd {i : Nat} {l : Bytes} (hl : ls[i]? = some l) (h : Line.ofBytes l = .closing) : Blames n ls (.strayEnd (n + i))
  | unclosed : Blames n ls .unclosed

theorem Error.Blames.cons {n : Nat} {e : Error} (h : e.Blames (n + 1) ls) (l : Bytes) : e.Blames n (l :: ls) := by
  have hline : ∀ i, n + 1 + i = n + (i + 1) := by omega
  cases h with
  | strayElse hl h =>
    rw [hline]
    exact .strayElse hl h
  | secondElse hl h =>
    rw [hline]
    exact .secondElse hl h
  | strayEnd hl h =>
    rw [hline]
    exact .strayEnd hl h
  | unclosed => exact .unclosed

theorem map_eq_error {ε α β : Type} {f : α → β} {r : Except ε α} {e : ε} (h : f <$> r = .error e) : r = .error e := by
  cases r with
  | ok a => cases h
  | error e' => exact congrArg Except.error (Except.error.inj h)

theorem lines_error_blames {n : Nat} {fs : List Frame} {e : Error} (h : lines defined n fs ls = .error e) : e.Blames n ls := by
  induction ls generalizing n fs with
  | nil =>
    rw [lines_end] at h
    split at h <;> cases h
    exact .unclosed
  | cons l ls ih =>
    cases hl : Line.ofBytes l with
    | plain =>
      rw [lines_plain hl] at h
      exact (ih (map_eq_error h)).cons l
    | opening name negated =>
      rw [lines_opening hl] at h
      exact (ih (map_eq_error h)).cons l
    | alternative =>
      cases fs with
      | nil =>
        rw [lines_strayElse hl] at h
        cases h
        exact .strayElse (i := 0) rfl hl
      | cons f fs =>
        cases hf : f.inverted with
        | true =>
          rw [lines_secondElse hl hf] at h
          cases h
          exact .secondElse (i := 0) rfl hl
        | false =>
          rw [lines_alternative hl hf] at h
          exact (ih (map_eq_error h)).cons l
    | closing =>
      cases fs with
      | nil =>
        rw [lines_strayEnd hl] at h
        cases h
        exact .strayEnd (i := 0) rfl hl
      | cons f fs =>
        rw [lines_closing hl] at h
        exact (ih (map_eq_error h)).cons l

/-! ## Texts -/

/-- A text without number signs is treated as all others are. -/
theorem apply_eq (defined : Bytes → Bool) (src : Bytes) :
    apply defined src = joinLines <$> lines defined 1 [] (splitLines src) := by
  rw [apply]
  split
  · rfl
  · next hsharp =>
    have hplain : ∀ l ∈ splitLines src, Line.ofBytes l = .plain := fun l hl =>
      plain_of_notMem fun hmem => hsharp (List.contains_iff_mem.mpr ((of_mem_splitLines hl).2 hmem))
    rw [lines_of_nested (nested_plain hplain), zipWith_shown_plain]
    exact congrArg Except.ok (joinLines_splitLines src).symm

theorem shown_mem {l : Bytes} (h : List.Forall₂ Role.Fits rs ls)
    (hl : l ∈ List.zipWith (Role.shown defined true) rs ls) : l = [] ∨ l ∈ ls ∧ Line.ofBytes l = .plain := by
  induction h with
  | nil => simp at hl
  | @cons r l' rs ls hfits _ ih =>
    rw [List.zipWith_cons_cons, List.mem_cons] at hl
    rcases hl with rfl | hl
    · cases r with
      | directive => exact .inl rfl
      | text inside =>
        rw [Role.shown]
        split
        · exact .inr ⟨List.mem_cons_self, hfits⟩
        · exact .inl rfl
    · exact (ih hl).imp_right fun hin => ⟨List.mem_cons_of_mem _ hin.1, hin.2⟩

variable (defined) in
/-- What is left of a text whose lines nest: as many lines, each as its role says. -/
theorem apply_of_nested (h : Nested (splitLines src) rs) :
    ∃ out, apply defined src = .ok out ∧ splitLines out = List.zipWith (Role.shown defined true) rs (splitLines src) := by
  refine ⟨_, by rw [apply_eq, lines_of_nested h]; rfl, splitLines_joinLines (fun hnil => ?_) fun l hl => ?_⟩
  · have hlen := congrArg List.length hnil
    rw [List.length_zipWith, h.length_eq, Nat.min_self, List.length_nil] at hlen
    exact splitLines_ne_nil src (List.eq_nil_of_length_eq_zero hlen)
  · rcases shown_mem h.fits hl with rfl | ⟨hin, -⟩
    · exact List.not_mem_nil
    · exact (of_mem_splitLines hin).1

theorem apply_of_plain (h : ∀ l ∈ splitLines src, Line.ofBytes l = .plain) : apply defined src = .ok src := by
  obtain ⟨out, hout, hlines⟩ := apply_of_nested defined (nested_plain h)
  rw [zipWith_shown_plain] at hlines
  rw [hout, ← joinLines_splitLines out, hlines, joinLines_splitLines]

/-- **Conditions nest.** Applying the conditions of a text fails just when its directives do not nest: when an `#else` or an
`#endif` stands where no condition is open, when a condition has a second `#else`, or when it is open at the end; an error
names the line of such a directive. Otherwise there are as many lines as before, the directives are empty, and a line
of text is kept if all branches around it are selected and empty if not. A text without number signs is no exception, and
applying conditions once more, whatever names are defined then, changes nothing. -/
theorem apply_nests (defined : Bytes → Bool) (src : Bytes) :
    ((∃ e, apply defined src = .error e) ↔ ¬Balanced (splitLines src)) ∧
      (¬Balanced (splitLines src) ↔ Stray (splitLines src) ∨ Dangling (splitLines src)) ∧
      (∀ e, apply defined src = .error e → e.Blames 1 (splitLines src)) ∧
      (∀ out, apply defined src = .ok out →
        (splitLines out).length = (splitLines src).length ∧
          (∃ rs, Nested (splitLines src) rs ∧ List.Forall₂ Role.Fits rs (splitLines src) ∧
            splitLines out = List.zipWith (Role.shown defined true) rs (splitLines src)) ∧
          ∀ defined', apply defined' out = .ok out) ∧
      apply defined src = joinLines <$> lines defined 1 [] (splitLines src) := by
  have hfails : (∃ e, apply defined src = .error e) ↔ ¬Balanced (splitLines src) := by
    constructor
    · rintro ⟨e, he⟩ ⟨rs, h⟩
      obtain ⟨out, hout, -⟩ := apply_of_nested defined h
      rw [hout] at he
      cases he
    · intro h
      obtain ⟨e, he⟩ := ((balanced_or _).resolve_left h).elim (Stray.fails defined) (Dangling.fails defined)
      exact ⟨e, by rw [apply_eq, he]; rfl⟩
  refine ⟨hfails, by rw [balanced_iff, not_not], fun e he => ?_, fun out hout => ?_, apply_eq defined src⟩
  · rw [apply_eq] at he
    exact lines_error_blames (map_eq_error he)
  · obtain ⟨rs, h⟩ : Balanced (splitLines src) := by
      by_contra hnot
      obtain ⟨e, he⟩ := hfails.mpr hnot
      rw [hout] at he
      cases he
    obtain ⟨out', hout', hlines⟩ := apply_of_nested defined h
    rw [hout] at hout'
    cases hout'
    refine ⟨by simp [hlines, h.length_eq], ⟨rs, h, h.fits, hlines⟩, fun defined' => apply_of_plain fun l hl => ?_⟩
    rw [hlines] at hl
    rcases shown_mem h.fits hl with rfl | ⟨-, hplain⟩
    · exact plain_nil
    · exact hplain

end Weft.Directive
