import Weft.Proofs.Token.Spelling
import Weft.Proofs.Tree.Termination

/-!
# Readers that succeed

What a reader gives at a place where known words are to come. Words are read from left to right; a list of items with
commas between them is read where each item is read in front of a comma and in front of what follows the list.
-/

namespace Weft.Tree

open Parse

/-! ## Words to come -/

/-- A place where some problems have been found and some words are to come. -/
structure Cursor.Shows (c : Cursor) (ps : List Diagnostic) (ws : List Word) : Prop where
  rest : c.rest.map Token.word = ws
  eof : c.eof.kind = .eof
  problems : c.problems = ps

namespace Cursor.Shows

variable {c : Cursor} {ps : List Diagnostic} {w v : Word} {ws : List Word}

theorem kind (h : c.Shows ps ws) : c.current.kind = Word.firstKind ws := by
  rw [← h.rest, Cursor.current]
  cases c.rest with
  | nil => exact h.eof
  | cons t rest => exact (Token.kind_word t).symm

theorem kind_following (h : c.Shows ps (w :: ws)) : c.following.kind = Word.firstKind ws := by
  obtain ⟨t, rest, hrest, -, rfl⟩ := List.map_eq_cons_iff.mp h.rest
  rw [Cursor.following, hrest, List.tail_cons]
  cases rest with
  | nil => exact h.eof
  | cons t rest => exact (Token.kind_word t).symm

theorem word (h : c.Shows ps (w :: ws)) : c.current.word = w := by
  obtain ⟨t, rest, hrest, rfl, -⟩ := List.map_eq_cons_iff.mp h.rest
  rw [Cursor.current, hrest, List.headD_cons]

theorem advance (h : c.Shows ps (w :: ws)) : c.advance.Shows ps ws := by
  obtain ⟨t, rest, hrest, -, rfl⟩ := List.map_eq_cons_iff.mp h.rest
  unfold Cursor.advance
  rw [hrest]
  exact ⟨rfl, h.eof, h.problems⟩

theorem length (h : c.Shows ps ws) : c.rest.length = ws.length := by
  rw [← h.rest, List.length_map]

theorem length_cons (h : c.Shows ps (w :: ws)) : c.rest.length = c.advance.rest.length + 1 := by
  rw [h.length, h.advance.length, List.length_cons]

theorem length_le {c' : Cursor} {vs : List Word} (h : c.Shows ps (vs ++ ws)) (h' : c'.Shows ps ws) :
    c'.rest.length ≤ c.rest.length := by
  rw [h.length, h'.length, List.length_append]
  exact Nat.le_add_left _ _

/-- A name at a place is the text of its token. -/
theorem text {s : String} (h : c.Shows ps (.name s :: ws)) : c.current.kind = .ident ∧ c.current.text = s := by
  have hkind := h.kind
  have hword := h.word
  rw [Word.firstKind, Word.kind] at hkind
  rw [Token.word, hkind] at hword
  exact ⟨hkind, Word.name.inj hword⟩

end Cursor.Shows

/-- A text whose tokens are known words shows them at its start. -/
theorem Cursor.shows_start {file : String} {src : Bytes} {ts : List Token} {e : Token}
    (hscan : Token.scan src = ts ++ [e]) (hts : ∀ t ∈ ts, t.word.Plain) (he : e.kind = .eof) :
    (Cursor.start file src).Shows [] (ts.map Token.word) := by
  have herrors : ts.filter (fun t => t.kind = .error) = [] :=
    List.filter_eq_nil_iff.mpr fun t ht => by simpa using (hts t ht).2
  have hwords : ts.filter (fun t => t.kind ≠ .error ∧ t.kind ≠ .eof) = ts :=
    List.filter_eq_self.mpr fun t ht => by simpa using And.intro (hts t ht).2 (hts t ht).1
  refine ⟨?_, (Cursor.ended_start file src).eof, ?_⟩
  · simp only [Cursor.start, hscan, List.filter_append, hwords]
    simp [he]
  · simp only [Cursor.start, hscan, List.filter_append, herrors]
    simp [he]

/-! ## What a reader gives -/

/-- A reader gives something at a place. -/
def Gives {α : Type} (p : Parse α) (c : Cursor) (Q : α → Cursor → Prop) : Prop :=
  ∃ x c', p c = (some x, c') ∧ Q x c'

section Gives

variable {α β : Type} {p : Parse α} {f : α → Parse β} {c : Cursor} {Q Q' : α → Cursor → Prop} {R : β → Cursor → Prop}

theorem Gives.imp (h : Gives p c Q) (hq : ∀ x c', Q x c' → Q' x c') : Gives p c Q' := by
  obtain ⟨x, c', hp, hx⟩ := h
  exact ⟨x, c', hp, hq x c' hx⟩

theorem Gives.bind (hp : Gives p c Q) (hf : ∀ x c', Q x c' → Gives (f x) c' R) : Gives (p >>= f) c R := by
  obtain ⟨x, c', hpc, hx⟩ := hp
  obtain ⟨y, c'', hfc, hy⟩ := hf x c' hx
  exact ⟨y, c'', (bind_apply hpc).trans hfc, hy⟩

theorem gives_pure {x : α} (h : Q x c) : Gives (pure x) c Q := ⟨x, c, rfl, h⟩

theorem Gives.of_eq {q : Parse α} (h : Gives q c Q) (heq : p c = q c) : Gives p c Q := by
  obtain ⟨x, c', hq, hx⟩ := h
  exact ⟨x, c', heq.trans hq, hx⟩

theorem gives_off {x : α} (h : Gives (f x) c R) (hp : p c = (some x, c)) : Gives (p >>= f) c R :=
  Gives.of_eq h (bind_apply hp)

theorem here_apply (c : Cursor) : here c = (some c.current.span.start, c) := rfl

theorem gives_here {f : Pos → Parse β} (h : Gives (f c.current.span.start) c R) : Gives (here >>= f) c R :=
  gives_off h rfl

theorem gives_current {f : Token → Parse β} (h : Gives (f c.current) c R) : Gives (current >>= f) c R :=
  gives_off h rfl

theorem gives_rounds {f : Nat → Parse β} (h : Gives (f (c.rest.length + 1)) c R) : Gives (rounds >>= f) c R :=
  gives_off h rfl

theorem gives_spanFrom {start : Pos} {f : Span → Parse β} (h : Gives (f ⟨start, c.last.getD start⟩) c R) :
    Gives (spanFrom start >>= f) c R :=
  gives_off h rfl

theorem gives_sees {k : Kind} {f : Bool → Parse β} (h : Gives (f (decide (c.current.kind = k))) c R) :
    Gives (sees k >>= f) c R :=
  gives_off h rfl

theorem gives_seesNext {k : Kind} {f : Bool → Parse β} (h : Gives (f (decide (c.following.kind = k))) c R) :
    Gives (seesNext k >>= f) c R :=
  gives_off h rfl

theorem gives_advance {f : Unit → Parse β} (h : Gives (f ()) c.advance R) : Gives (advance >>= f) c R :=
  Gives.of_eq (q := fun _ => f () c.advance) h (bind_apply rfl)

theorem sees_apply (k : Kind) (c : Cursor) : sees k c = (some (decide (c.current.kind = k)), c) := rfl

theorem gives_accept {k : Kind} {f : Bool → Parse β} (hk : c.current.kind = k) (h : Gives (f true) c.advance R) :
    Gives (accept k >>= f) c R := by
  refine Gives.of_eq (q := fun _ => f true c.advance) h ?_
  have haccept : accept k c = (some true, c.advance) := by
    rw [accept, bind_apply (sees_apply k c), Option.elim_some, decide_eq_true hk]
    rfl
  exact bind_apply haccept

theorem gives_refuse {k : Kind} {f : Bool → Parse β} (hk : c.current.kind ≠ k) (h : Gives (f false) c R) :
    Gives (accept k >>= f) c R := by
  refine gives_off h ?_
  rw [accept, bind_apply (sees_apply k c), Option.elim_some, decide_eq_false hk]
  rfl

theorem expect_apply {k : Kind} (hk : c.current.kind = k) : expect k c = (some c.current, c.advance) := by
  rw [expect, bind_apply (current_apply c), Option.elim_some, if_pos hk]
  rfl

theorem expect_ne {k : Kind} (hk : c.current.kind ≠ k) : (expect k c).1 = none := by
  rw [expect, bind_apply (current_apply c), Option.elim_some, if_neg hk]
  rfl

theorem bind_none (h : (p c).1 = none) : ((p >>= f) c).1 = none := by
  rw [bind_apply (show p c = (none, (p c).2) from Prod.ext h rfl), Option.elim_none]

theorem attempt_none (h : (p c).1 = none) : attempt p c = (some none, c) := by
  unfold attempt
  rw [show p c = (none, (p c).2) from Prod.ext h rfl]

theorem gives_expect {k : Kind} {f : Token → Parse β} (hk : c.current.kind = k)
    (h : Gives (f c.current) c.advance R) : Gives (expect k >>= f) c R := by
  exact Gives.of_eq (q := fun _ => f c.current c.advance) h (bind_apply (expect_apply hk))

end Gives

/-! ## Lists -/

/-- Lists of words with a comma between each two of them. -/
def commaWords (lists : List (List Word)) : List Word := [Word.mark .comma].intercalate lists

theorem commaWords_cons_cons (ws vs : List Word) (lists : List (List Word)) :
    commaWords (ws :: vs :: lists) = ws ++ Word.mark .comma :: commaWords (vs :: lists) := by
  simp [commaWords, List.intercalate]

/-- The first list comes first, whatever stands between it and the next one. -/
theorem exists_intercalate_cons {α : Type} (sep xs : List α) (lists : List (List α)) :
    ∃ ys, sep.intercalate (xs :: lists) = xs ++ ys := by
  cases lists with
  | nil => exact ⟨[], by simp⟩
  | cons xs' lists => exact ⟨_, by rw [List.intercalate_cons_cons, List.append_assoc]⟩

theorem commaWords_singleton (ws : List Word) : commaWords [ws] = ws := by
  simp [commaWords, List.intercalate]

theorem mem_commaWords {lists : List (List Word)} {w : Word} (hw : w ∈ commaWords lists) :
    w = .mark .comma ∨ ∃ ws ∈ lists, w ∈ ws := by
  induction lists with
  | nil => cases hw
  | cons ws lists ih =>
    cases lists with
    | nil =>
      rw [commaWords_singleton] at hw
      exact .inr ⟨ws, by simp, hw⟩
    | cons vs lists =>
      rw [commaWords_cons_cons, List.mem_append, List.mem_cons] at hw
      obtain hw | hw | hw := hw
      · exact .inr ⟨ws, by simp, hw⟩
      · exact .inl hw
      · obtain hcomma | ⟨us, hus, hmem⟩ := ih hw
        · exact .inl hcomma
        · exact .inr ⟨us, List.mem_cons_of_mem _ hus, hmem⟩

section Lists

variable {α β γ : Type} {p : Parse α} {words : β → List Word} {f : α → γ} {f' : β → γ} {ps : List Diagnostic}
  {ok : Kind → Prop} {n : Nat}

/-- Wherever fewer than a number of tokens are to come, a reader reads some words in front of a word of some kinds. -/
def GivesAt (ok : Kind → Prop) (n : Nat) (ps : List Diagnostic) (p : Parse α) (ws : List Word) (Q : α → Prop) : Prop :=
  ∀ (c : Cursor) (more : List Word), c.rest.length < n → c.Shows ps (ws ++ more) → ok (Word.firstKind more) →
    Gives p c fun x c' => Q x ∧ c'.Shows ps more

/-- Items are read where each of them is read in front of a comma and of what follows the last one. -/
theorem gives_items (hcomma : ok .comma) {xs : List β} (hne : xs ≠ [])
    (hp : ∀ x ∈ xs, GivesAt ok n ps p (words x) fun y => f y = f' x) {k : Nat} {c : Cursor} {more : List Word}
    (hn : c.rest.length < n) (hk : c.rest.length < k) (hc : c.Shows ps (commaWords (xs.map words) ++ more))
    (hmore : ok (Word.firstKind more)) (hend : Word.firstKind more ≠ .comma) :
    Gives (items .comma p k) c fun ys c' => ys.map f = xs.map f' ∧ c'.Shows ps more := by
  induction xs generalizing k c with
  | nil => exact absurd rfl hne
  | cons x xs ih =>
    cases k with
    | zero => exact absurd hk (Nat.not_lt_zero _)
    | succ k =>
      cases xs with
      | nil =>
        rw [List.map_singleton, commaWords_singleton] at hc
        refine (hp x (by simp) c more hn hc hmore).bind ?_
        rintro y c₁ ⟨hy, hc₁⟩
        refine gives_refuse (by rw [hc₁.kind]; exact hend) (gives_pure ⟨?_, hc₁⟩)
        rw [List.map_singleton, List.map_singleton, hy]
      | cons x' xs =>
        rw [List.map_cons, List.map_cons, commaWords_cons_cons, List.append_assoc] at hc
        refine (hp x (by simp) c _ hn hc hcomma).bind ?_
        rintro y c₁ ⟨hy, hc₁⟩
        have hle := hc.length_le hc₁
        have hlength := hc₁.length_cons
        refine gives_accept hc₁.kind ((ih (by simp) (fun x hx => hp x (List.mem_cons_of_mem _ hx)) (by omega) (by omega)
          hc₁.advance).bind ?_)
        rintro ys c₂ ⟨hys, hc₂⟩
        exact gives_pure ⟨by rw [List.map_cons, List.map_cons, hy, hys], hc₂⟩

/-- Items that end before a closing mark are read up to it. -/
theorem gives_itemsUntil {close : Kind} (hcomma : ok .comma) (hclose : ok close) (hne : close ≠ .comma) {xs : List β}
    (hp : ∀ x ∈ xs, GivesAt ok n ps p (words x) fun y => f y = f' x)
    (hopen : ∀ x ∈ xs, ∀ more, Word.firstKind (words x ++ more) ≠ close) {k : Nat} {c : Cursor} {more : List Word}
    (hn : c.rest.length < n) (hk : c.rest.length < k) (hc : c.Shows ps (commaWords (xs.map words) ++ more))
    (hmore : Word.firstKind more = close) :
    Gives (itemsUntil close p k) c fun ys c' => ys.map f = xs.map f' ∧ c'.Shows ps more := by
  induction xs generalizing k c with
  | nil =>
    cases k with
    | zero => exact absurd hk (Nat.not_lt_zero _)
    | succ k =>
      refine gives_sees ?_
      rw [hc.kind, if_pos (by simpa [commaWords, List.intercalate] using hmore)]
      exact gives_pure ⟨rfl, hc⟩
  | cons x xs ih =>
    cases k with
    | zero => exact absurd hk (Nat.not_lt_zero _)
    | succ k =>
      refine gives_sees ?_
      cases xs with
      | nil =>
        rw [List.map_singleton, commaWords_singleton] at hc
        rw [hc.kind, if_neg (by simpa using hopen x (by simp) more)]
        refine (hp x (by simp) c more hn hc (by rw [hmore]; exact hclose)).bind ?_
        rintro y c₁ ⟨hy, hc₁⟩
        refine gives_refuse (by rw [hc₁.kind, hmore]; exact hne) (gives_pure ⟨?_, hc₁⟩)
        rw [List.map_singleton, List.map_singleton, hy]
      | cons x' xs =>
        rw [List.map_cons, List.map_cons, commaWords_cons_cons, List.append_assoc] at hc
        rw [hc.kind, if_neg (by simpa using hopen x (by simp) _)]
        refine (hp x (by simp) c _ hn hc hcomma).bind ?_
        rintro y c₁ ⟨hy, hc₁⟩
        have hle := hc.length_le hc₁
        have hlength := hc₁.length_cons
        refine gives_accept hc₁.kind ((ih (fun x hx => hp x (List.mem_cons_of_mem _ hx))
          (fun x hx => hopen x (List.mem_cons_of_mem _ hx)) (by omega) (by omega) hc₁.advance).bind ?_)
        rintro ys c₂ ⟨hys, hc₂⟩
        exact gives_pure ⟨by rw [List.map_cons, List.map_cons, hy, hys], hc₂⟩

end Lists

end Weft.Tree
