import Mathlib.Tactic.Common
import Weft.Proofs.Symbol.Names
import Weft.Tree.Parser

/-!
# What readers keep

A reader only moves over tokens, so what holds of every name among the tokens to come holds of them after it, and of
every name that it reads.
-/

namespace Weft

/-- A token whose text, if it is a name, has no point. -/
def Token.Named (t : Token) : Prop := t.kind = .ident → Dotless t.text

namespace Tree

/-- A place in a token list whose names have no points. -/
structure Cursor.Named (c : Cursor) : Prop where
  rest : ∀ t ∈ c.rest, t.Named
  eof : c.eof.Named

namespace Cursor.Named

variable {c : Cursor}

theorem current (h : c.Named) : c.current.Named := by
  unfold Cursor.current
  cases hrest : c.rest with
  | nil => exact h.eof
  | cons t rest => exact h.rest t (by simp [hrest])

theorem advance (h : c.Named) : c.advance.Named := by
  unfold Cursor.advance
  split
  · exact h
  · next t rest hrest => exact ⟨fun x hx => h.rest x (by simp [hrest, hx]), h.eof⟩

theorem note (h : c.Named) (span : Span) (e : SyntaxError) : (c.note span e).Named := ⟨h.rest, h.eof⟩

theorem skip (h : c.Named) (start : Nat) : (c.skip start).Named := by
  fun_induction Cursor.skip start c with
  | case1 => exact h
  | case2 => exact h.advance
  | case3 => exact h.advance
  | case4 => exact h
  | case5 c t rest hrest hk hk' ih => exact ih h.advance

end Cursor.Named

/-- What a reader gives has a property, and the names to come keep theirs. -/
def Reads {α : Type} (Q : α → Prop) (p : Parse α) : Prop :=
  ∀ c : Cursor, c.Named → (p c).2.Named ∧ ∀ x, (p c).1 = some x → Q x

/-- The names to come keep their property. -/
abbrev Keeps {α : Type} (p : Parse α) : Prop := Reads (fun _ => True) p

section Readers

variable {α β : Type} {Q : α → Prop} {R : β → Prop} {p : Parse α}

theorem Reads.imp {Q' : α → Prop} (h : Reads Q p) (hq : ∀ x, Q x → Q' x) : Reads Q' p :=
  fun c hc => ⟨(h c hc).1, fun x hx => hq x ((h c hc).2 x hx)⟩

theorem Reads.keeps (h : Reads Q p) : Keeps p := h.imp fun _ _ => True.intro

theorem reads_pure {a : α} (h : Q a) : Reads Q (pure a : Parse α) :=
  fun c hc => ⟨hc, fun x hx => by cases hx; exact h⟩

theorem keeps_pure {a : α} : Keeps (pure a : Parse α) := reads_pure True.intro

/-- What a reader does after another one. -/
theorem bind_apply {f : α → Parse β} {c c' : Cursor} {r : Option α} (h : p c = (r, c')) :
    (p >>= f) c = r.elim (none, c') fun a => f a c' := by
  change OptionT.bind p f c = _
  unfold OptionT.bind OptionT.mk
  simp only [bind, StateT.bind, h]
  cases r <;> rfl

theorem Reads.bind {f : α → Parse β} (hp : Reads Q p) (hf : ∀ a, Q a → Reads R (f a)) : Reads R (p >>= f) := by
  intro c hc
  obtain ⟨hnamed, hq⟩ := hp c hc
  rcases hpc : p c with ⟨_ | a, c'⟩
  · rw [hpc] at hnamed
    rw [bind_apply hpc]
    exact ⟨hnamed, by simp⟩
  · rw [hpc] at hnamed hq
    rw [bind_apply hpc]
    exact hf a (hq a rfl) c' hnamed

theorem Reads.map {f : α → β} (hp : Reads Q p) (hf : ∀ a, Q a → R (f a)) : Reads R (f <$> p) := by
  rw [← bind_pure_comp]
  exact hp.bind fun a ha => reads_pure (hf a ha)

theorem Reads.map_keeps {f : α → β} (hp : Reads Q p) : Keeps (f <$> p) := hp.map fun _ _ => True.intro

/-- Reading off the cursor moves nothing. -/
theorem reads_get {f : Cursor → α} (h : ∀ c : Cursor, c.Named → Q (f c)) :
    Reads Q (do return f (← get) : Parse α) :=
  fun c hc => ⟨hc, fun x hx => by cases hx; exact h c hc⟩

theorem reads_failure : Reads Q (failure : Parse α) := fun c hc => ⟨hc, fun x hx => by cases hx⟩

theorem reads_current : Reads Token.Named Parse.current := reads_get fun _ hc => hc.current

theorem keeps_sees (k : Kind) : Keeps (Parse.sees k) := reads_current.bind fun _ _ => keeps_pure

theorem keeps_seesNext (k : Kind) : Keeps (Parse.seesNext k) := reads_get fun _ _ => True.intro

theorem keeps_advance : Keeps Parse.advance := fun _ hc => ⟨hc.advance, fun _ _ => True.intro⟩

theorem keeps_accept (k : Kind) : Keeps (Parse.accept k) := by
  refine (keeps_sees k).bind fun ok _ => ?_
  split
  · exact keeps_advance.bind fun _ _ => keeps_pure
  · exact keeps_pure

theorem reads_fail (e : SyntaxError) : Reads Q (Parse.fail e : Parse α) := by
  have hnote : Keeps (modify fun c => c.note c.current.span e : Parse PUnit) :=
    fun c hc => ⟨hc.note _ _, fun _ _ => True.intro⟩
  exact hnote.bind fun _ _ => reads_failure

/-- Nothing is read after giving up. -/
theorem reads_fail_bind {e : SyntaxError} {f : α → Parse β} : Reads R (Parse.fail e >>= f) :=
  (reads_fail (Q := fun _ => False) e).bind fun _ h => h.elim

theorem reads_expect (k : Kind) : Reads (fun t => t.Named ∧ t.kind = k) (Parse.expect k) := by
  refine reads_current.bind fun t ht => ?_
  split
  · next hk => exact keeps_advance.bind fun _ _ => reads_pure ⟨ht, hk⟩
  · exact reads_fail _

theorem keeps_expect (k : Kind) : Keeps (Parse.expect k) := (reads_expect k).keeps

theorem reads_expectName : Reads Dotless Parse.expectName :=
  (reads_expect .ident).bind fun _ ht => reads_pure (ht.1 ht.2)

theorem keeps_here : Keeps Parse.here := reads_current.bind fun _ _ => keeps_pure

theorem keeps_spanFrom (start : Pos) : Keeps (Parse.spanFrom start) := reads_get fun _ _ => True.intro

theorem keeps_rounds : Keeps Parse.rounds := reads_get fun _ _ => True.intro

theorem reads_guarded (hp : Reads Q p) : Reads (fun r => ∀ x, r = some x → Q x) (Parse.guarded p) := by
  intro c hc
  obtain ⟨hnamed, hq⟩ := hp c hc
  unfold Parse.guarded
  rcases hpc : p c with ⟨_ | a, c'⟩
  · rw [hpc] at hnamed
    exact ⟨hnamed.skip _, by simp⟩
  · rw [hpc] at hnamed hq
    refine ⟨hnamed, ?_⟩
    rintro r hr x rfl
    obtain rfl : a = x := by simpa using hr
    exact hq a rfl

theorem reads_attempt (hp : Reads Q p) : Reads (fun r => ∀ x, r = some x → Q x) (Parse.attempt p) := by
  intro c hc
  obtain ⟨hnamed, hq⟩ := hp c hc
  unfold Parse.attempt
  rcases hpc : p c with ⟨_ | a, c'⟩
  · exact ⟨hc, by simp⟩
  · rw [hpc] at hnamed hq
    refine ⟨hnamed, ?_⟩
    rintro r hr x rfl
    obtain rfl : a = x := by simpa using hr
    exact hq a rfl

theorem keeps_lookahead : Keeps (Parse.lookahead p) := fun _ hc => ⟨hc, fun _ _ => True.intro⟩

/-! ## Lists -/

theorem reads_repeatUntil {stop : List Kind} {p : Parse (Option α)} (hp : Reads (fun r => ∀ x, r = some x → Q x) p)
    (n : Nat) : Reads (fun xs => ∀ x ∈ xs, Q x) (Parse.repeatUntil stop p n) := by
  induction n with
  | zero => exact reads_pure (by simp)
  | succ n ih =>
    refine reads_current.bind fun t _ => ?_
    split
    · exact reads_pure (by simp)
    · refine hp.bind fun r hr => ?_
      split
      · next x => exact ih.bind fun xs hxs => reads_pure (List.forall_mem_cons.mpr ⟨hr x rfl, hxs⟩)
      · exact ih

theorem reads_itemsUntil {close : Kind} (hp : Reads Q p) (n : Nat) :
    Reads (fun xs => ∀ x ∈ xs, Q x) (Parse.itemsUntil close p n) := by
  induction n with
  | zero => exact reads_pure (by simp)
  | succ n ih =>
    refine (keeps_sees close).bind fun ok _ => ?_
    split
    · exact reads_pure (by simp)
    · refine hp.bind fun x hx => (keeps_accept .comma).bind fun ok _ => ?_
      split
      · exact ih.bind fun xs hxs => reads_pure (List.forall_mem_cons.mpr ⟨hx, hxs⟩)
      · exact reads_pure (by simpa using hx)

theorem reads_items {separator : Kind} (hp : Reads Q p) (n : Nat) :
    Reads (fun xs => ∀ x ∈ xs, Q x) (Parse.items separator p n) := by
  induction n with
  | zero => exact reads_pure (by simp)
  | succ n ih =>
    refine hp.bind fun x hx => (keeps_accept separator).bind fun ok _ => ?_
    split
    · exact ih.bind fun xs hxs => reads_pure (List.forall_mem_cons.mpr ⟨hx, hxs⟩)
    · exact reads_pure (by simpa using hx)

theorem reads_blockItems (hp : Reads Q p) : Reads (fun xs => ∀ x ∈ xs, Q x) (Parse.blockItems p) :=
  keeps_rounds.bind fun n _ => reads_repeatUntil (reads_guarded hp) n

theorem reads_listUntil {close : Kind} (hp : Reads Q p) : Reads (fun xs => ∀ x ∈ xs, Q x) (Parse.listUntil close p) :=
  keeps_rounds.bind fun n _ => reads_itemsUntil hp n

theorem reads_commaList (hp : Reads Q p) : Reads (fun xs => ∀ x ∈ xs, Q x) (Parse.commaList p) :=
  keeps_rounds.bind fun n _ => reads_items hp n

theorem keeps_blockItems (hp : Keeps p) : Keeps (Parse.blockItems p) := (reads_blockItems hp).keeps

theorem keeps_listUntil {close : Kind} (hp : Keeps p) : Keeps (Parse.listUntil close p) := (reads_listUntil hp).keeps

theorem keeps_commaList (hp : Keeps p) : Keeps (Parse.commaList p) := (reads_commaList hp).keeps

end Readers

end Tree

end Weft
