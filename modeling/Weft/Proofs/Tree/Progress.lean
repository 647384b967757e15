import Weft.Proofs.Tree.Reading

/-!
# How readers move

A reader moves over tokens from left to right, and it gives up only after it has noted a problem. What reads a phrase
reads at least one token, so the tokens to come bound the nesting of phrases and the rounds of loops: two readers that
are built for different numbers of levels and rounds do the same wherever both numbers exceed that of the tokens.
-/

namespace Weft.Tree

/-! ## Places in a text -/

/-- A place in a token list at whose end, and only there, stands a token that marks the end. -/
structure Cursor.Ended (c : Cursor) : Prop where
  rest : ∀ t ∈ c.rest, t.kind ≠ .eof
  eof : c.eof.kind = .eof

/-- Some tokens, which may be none, lie between two places of a text. Problems are only added on the way, and while none
is added all these tokens are of some kinds. -/
structure Cursor.Leads (ok : Kind → Prop) (c c' : Cursor) : Prop where
  eof : c'.eof = c.eof
  problems : c.problems <+: c'.problems
  tokens : ∃ ts, c.rest = ts ++ c'.rest ∧ c'.index = c.index + ts.length ∧
    (c'.problems = c.problems → ∀ t ∈ ts, ok t.kind)

namespace Cursor

variable {ok ok' : Kind → Prop} {c c' c'' : Cursor}

theorem Ended.exists_rest (h : c.Ended) (hk : c.current.kind ≠ .eof) : ∃ ts, c.rest = c.current :: ts := by
  cases hrest : c.rest with
  | nil => exact absurd (by simpa [current, hrest] using h.eof) hk
  | cons t ts => exact ⟨ts, by simp [current, hrest]⟩

theorem Ended.current_ne (h : c.Ended) (hrest : c.rest ≠ []) : c.current.kind ≠ .eof := by
  obtain ⟨t, ts, hts⟩ := List.exists_cons_of_ne_nil hrest
  rw [current, hts]
  exact h.rest t (by simp [hts])

/-- The first token to come is followed by another one if the second place shows no end. -/
theorem Ended.exists_rest_two (h : c.Ended) (hk : c.current.kind ≠ .eof) (hk' : c.following.kind ≠ .eof) :
    ∃ ts, c.rest = c.current :: c.following :: ts := by
  obtain ⟨ts, hts⟩ := h.exists_rest hk
  cases ts with
  | nil => exact absurd (by simpa [following, hts] using h.eof) hk'
  | cons t ts => exact ⟨ts, by rw [hts]; simp [following, hts]⟩

theorem ended_start (file : String) (src : Bytes) : (start file src).Ended where
  rest := by simp [start]
  eof := by
    change ((Token.scan src).find? (·.kind = .eof) |>.getD default).kind = .eof
    cases hfind : (Token.scan src).find? (·.kind = .eof) with
    | none => rfl
    | some t => simpa using List.find?_some hfind

namespace Leads

theorem refl (c : Cursor) : c.Leads ok c := ⟨rfl, List.prefix_rfl, [], rfl, rfl, by simp⟩

theorem mono (h : c.Leads ok c') (hok : ∀ k, ok k → ok' k) : c.Leads ok' c' := by
  obtain ⟨ts, hts, hindex, hkinds⟩ := h.tokens
  exact ⟨h.eof, h.problems, ts, hts, hindex, fun hp t ht => hok _ (hkinds hp t ht)⟩

theorem length_le (h : c.Leads ok c') : c'.rest.length ≤ c.rest.length := by
  obtain ⟨ts, hts, -⟩ := h.tokens
  rw [hts, List.length_append]
  omega

theorem index_add (h : c.Leads ok c') : c'.index + c'.rest.length = c.index + c.rest.length := by
  obtain ⟨ts, hts, hindex, -⟩ := h.tokens
  rw [hts, hindex, List.length_append]
  omega

theorem index_le (h : c.Leads ok c') : c.index ≤ c'.index := by
  obtain ⟨ts, -, hindex, -⟩ := h.tokens
  omega

theorem ended (h : c.Leads ok c') (hc : c.Ended) : c'.Ended := by
  obtain ⟨ts, hts, -⟩ := h.tokens
  exact ⟨fun t ht => hc.rest t (by simp [hts, ht]), by rw [h.eof]; exact hc.eof⟩

theorem problems_eq (h : c.Leads ok c') (h' : c'.Leads ok' c'') (hp : c''.problems = c.problems) :
    c'.problems = c.problems :=
  (h.problems.eq_of_length_le (hp ▸ h'.problems).length_le).symm

theorem problems_nil (h : c.Leads ok c') (hp : c'.problems = []) : c.problems = [] :=
  List.prefix_nil.mp (hp ▸ h.problems)

theorem trans (h : c.Leads ok c') (h' : c'.Leads ok c'') : c.Leads ok c'' := by
  obtain ⟨ts, hts, hindex, hkinds⟩ := h.tokens
  obtain ⟨us, hus, hindex', hkinds'⟩ := h'.tokens
  refine ⟨h'.eof.trans h.eof, h.problems.trans h'.problems, ts ++ us, ?_, ?_, ?_⟩
  · rw [hts, hus, List.append_assoc]
  · rw [hindex', hindex, List.length_append, Nat.add_assoc]
  · intro hp t ht
    have hleft := h.problems_eq h' hp
    rcases List.mem_append.mp ht with ht | ht
    · exact hkinds hleft t ht
    · exact hkinds' (hp.trans hleft.symm) t ht

theorem noted (h : c.Leads ok c') (hp : c'.problems ≠ c.problems) (h' : c'.Leads ok' c'') : c.Leads ok c'' := by
  have hall := (h.mono fun _ _ => True.intro).trans (h'.mono fun _ _ => True.intro)
  obtain ⟨ts, hts, hindex, -⟩ := hall.tokens
  exact ⟨hall.eof, hall.problems, ts, hts, hindex, fun hp' => absurd (h.problems_eq h' hp') hp⟩

end Leads

theorem length_advance {t : Token} {ts : List Token} (hrest : c.rest = t :: ts) :
    c.advance.rest.length < c.rest.length := by
  simp [advance, hrest]

theorem leads_advance (h : c.rest ≠ [] → ok c.current.kind) : c.Leads ok c.advance := by
  unfold advance
  split
  · exact .refl c
  · next t ts hrest =>
    refine ⟨rfl, List.prefix_rfl, [t], hrest, rfl, fun _ x hx => ?_⟩
    obtain rfl := List.mem_singleton.mp hx
    simpa [current, hrest] using h (by simp [hrest])

theorem leads_note (span : Span) (e : SyntaxError) : c.Leads ok (c.note span e) :=
  ⟨rfl, List.prefix_append _ _, [], rfl, rfl, by simp⟩

theorem problems_note_ne (span : Span) (e : SyntaxError) : (c.note span e).problems ≠ c.problems := by
  simp [note]

theorem leads_skip (start : Nat) : c.Leads (fun _ => True) (c.skip start) := by
  fun_induction skip start c with
  | case1 c => exact .refl c
  | case2 c => exact leads_advance fun _ => True.intro
  | case3 c => exact leads_advance fun _ => True.intro
  | case4 c => exact .refl c
  | case5 c t ts hrest hsemi hbrace ih => exact (leads_advance fun _ => True.intro).trans ih

/-- Skipping from where reading started passes a token. -/
theorem length_skip {start : Nat} (hrest : c.rest ≠ []) (hstart : c.index = start) :
    (c.skip start).rest.length < c.rest.length := by
  obtain ⟨t, ts, hts⟩ := List.exists_cons_of_ne_nil hrest
  have hlt := length_advance hts
  unfold skip
  split
  · next hnil => exact absurd hnil hrest
  · split
    · exact hlt
    · split
      · exact hlt
      · exact Nat.lt_of_le_of_lt (leads_skip start).length_le hlt

end Cursor

/-! ## Readers side by side -/

/-- Two readers do the same at a place. When they read something they move on from there, and what they read and where
they stop are related. -/
structure Tries {α : Type} (ok : Kind → Prop) (c : Cursor) (p q : Parse α) (Q : α → Cursor → Prop) : Prop where
  same : p c = q c
  reads : ∀ x c', p c = (some x, c') → c.Leads ok c' ∧ Q x c'

/-- When they give up, moreover, they move on from there too, and they note a problem. -/
structure Runs {α : Type} (ok : Kind → Prop) (c : Cursor) (p q : Parse α) (Q : α → Cursor → Prop) : Prop
    extends Tries ok c p q Q where
  notes : ∀ c', p c = (none, c') → c.Leads ok c' ∧ c'.problems ≠ c.problems

section Readers

variable {α β : Type} {ok ok' : Kind → Prop} {c : Cursor} {p q : Parse α} {f g : α → Parse β} {Q Q' : α → Cursor → Prop}
  {R : β → Cursor → Prop}

theorem Runs.imp (h : Runs ok c p q Q) (hq : ∀ x c', c.Leads ok c' → Q x c' → Q' x c') : Runs ok c p q Q' where
  same := h.same
  reads x c' hx := ⟨(h.reads x c' hx).1, hq x c' (h.reads x c' hx).1 (h.reads x c' hx).2⟩
  notes := h.notes

theorem Runs.mono (h : Runs ok c p q Q) (hok : ∀ k, ok k → ok' k) : Runs ok' c p q Q where
  same := h.same
  reads x c' hx := ⟨(h.reads x c' hx).1.mono hok, (h.reads x c' hx).2⟩
  notes c' hc := ⟨(h.notes c' hc).1.mono hok, (h.notes c' hc).2⟩

theorem Runs.and (h : Runs ok c p q Q) (h' : Runs ok c p q Q') : Runs ok c p q fun x c' => Q x c' ∧ Q' x c' where
  same := h.same
  reads x c' hx := ⟨(h.reads x c' hx).1, (h.reads x c' hx).2, (h'.reads x c' hx).2⟩
  notes := h.notes

theorem Runs.leads (h : Runs ok c p q Q) : c.Leads ok (p c).2 := by
  rcases hpc : p c with ⟨_ | x, c'⟩
  · exact (h.notes c' hpc).1
  · exact (h.reads x c' hpc).1

theorem Tries.bind (hp : Tries ok c p q Q)
    (hf : ∀ x c', c.Leads ok c' → Q x c' → Tries ok c' (f x) (g x) R) : Tries ok c (p >>= f) (q >>= g) R := by
  rcases hpc : p c with ⟨_ | x, c'⟩
  · have hqc := hp.same.symm.trans hpc
    refine ⟨by rw [bind_apply hpc, bind_apply hqc]; rfl, fun y c'' hy => ?_⟩
    rw [bind_apply hpc] at hy
    cases hy
  · have hqc := hp.same.symm.trans hpc
    obtain ⟨hleads, hq⟩ := hp.reads x c' hpc
    have hrun := hf x c' hleads hq
    refine ⟨by rw [bind_apply hpc, bind_apply hqc]; exact hrun.same, fun y c'' hy => ?_⟩
    rw [bind_apply hpc] at hy
    obtain ⟨hleads', hr⟩ := hrun.reads y c'' hy
    exact ⟨hleads.trans hleads', hr⟩

theorem Runs.bind (hp : Runs ok c p q Q)
    (hf : ∀ x c', c.Leads ok c' → Q x c' → Runs ok c' (f x) (g x) R) : Runs ok c (p >>= f) (q >>= g) R where
  toTries := hp.toTries.bind fun x c' hleads hq => (hf x c' hleads hq).toTries
  notes c'' h := by
    rcases hpc : p c with ⟨_ | x, c'⟩
    · rw [bind_apply hpc] at h
      obtain rfl : c' = c'' := congrArg Prod.snd h
      exact hp.notes c' hpc
    · rw [bind_apply hpc] at h
      obtain ⟨hleads, hq⟩ := hp.reads x c' hpc
      obtain ⟨hleads', hne⟩ := (hf x c' hleads hq).notes c'' h
      refine ⟨hleads.trans hleads', fun heq => hne ?_⟩
      exact heq.trans (hleads.problems_eq hleads' heq).symm

theorem runs_pure {x : α} (h : Q x c) : Runs ok c (pure x) (pure x) Q where
  same := rfl
  reads y c' hy := by
    cases hy
    exact ⟨.refl c, h⟩
  notes c' hc := by cases hc

/-- Reading off the cursor moves nothing. -/
theorem runs_off {r : Parse α} {x : α} (hr : r c = (some x, c)) (h : Q x c) : Runs ok c r r Q where
  same := rfl
  reads y c' hy := by
    cases hr.symm.trans hy
    exact ⟨.refl c, h⟩
  notes c' hc := by cases hr.symm.trans hc

theorem runs_current : Runs ok c Parse.current Parse.current fun t c' => t = c.current ∧ c' = c :=
  runs_off rfl ⟨rfl, rfl⟩

theorem runs_here : Runs ok c Parse.here Parse.here fun _ c' => c' = c := runs_off rfl rfl

theorem runs_sees (k : Kind) :
    Runs ok c (Parse.sees k) (Parse.sees k) fun b c' => b = decide (c.current.kind = k) ∧ c' = c :=
  runs_off rfl ⟨rfl, rfl⟩

theorem runs_seesNext (k : Kind) :
    Runs ok c (Parse.seesNext k) (Parse.seesNext k) fun b c' => b = decide (c.following.kind = k) ∧ c' = c :=
  runs_off rfl ⟨rfl, rfl⟩

theorem runs_rounds : Runs ok c Parse.rounds Parse.rounds fun k c' => k = c.rest.length + 1 ∧ c' = c :=
  runs_off rfl ⟨rfl, rfl⟩

theorem runs_fail (e : SyntaxError) : Runs ok c (Parse.fail e : Parse α) (Parse.fail e) Q where
  same := rfl
  reads x c' hx := by cases hx
  notes c' hc := by
    obtain rfl : c.note c.current.span e = c' := congrArg Prod.snd hc
    exact ⟨Cursor.leads_note _ _, Cursor.problems_note_ne _ _⟩

theorem tries_failure : Tries ok c (failure : Parse α) failure Q := ⟨rfl, fun x c' hx => by cases hx⟩

/-- Moving over a token of a kind that may be read. -/
theorem runs_advance {t : Token} {ts : List Token} (hrest : c.rest = t :: ts) (hok : ok t.kind) :
    Runs ok c Parse.advance Parse.advance fun _ c' => c' = c.advance := by
  have hleads : c.Leads ok c.advance := Cursor.leads_advance fun _ => by simpa [Cursor.current, hrest] using hok
  refine ⟨⟨rfl, fun x c' hx => ?_⟩, fun c' hc => by cases hc⟩
  obtain rfl : c.advance = c' := congrArg Prod.snd hx
  exact ⟨hleads, rfl⟩

/-- A reader that may give up is kept from noting anything and moving. -/
theorem runs_attempt (hp : Tries ok c p q Q) :
    Runs ok c (Parse.attempt p) (Parse.attempt q) fun r c' => ∀ x, r = some x → Q x c' := by
  have hsame : Parse.attempt p c = Parse.attempt q c := by simp only [Parse.attempt, hp.same]
  refine ⟨⟨hsame, fun r c' hr => ?_⟩, fun c' hc => ?_⟩
  · rcases hpc : p c with ⟨_ | x, c''⟩ <;> simp only [Parse.attempt, hpc] at hr <;> cases hr
    · exact ⟨.refl c, by simp⟩
    · obtain ⟨hleads, hq⟩ := hp.reads x c' hpc
      exact ⟨hleads, by rintro _ ⟨⟩; exact hq⟩
  · rcases hpc : p c with ⟨_ | x, c''⟩ <;> simp only [Parse.attempt, hpc] at hc <;> cases hc

theorem runs_lookahead (hp : Tries ok c p q Q) :
    Runs ok c (Parse.lookahead p) (Parse.lookahead q) fun _ c' => c' = c := by
  refine ⟨⟨by simp only [Parse.lookahead, hp.same], fun r c' hr => ?_⟩, fun c' hc => by cases hc⟩
  obtain rfl : c = c' := congrArg Prod.snd hr
  exact ⟨.refl c, rfl⟩

/-- A reader that reads at least one token passes one also when it is guarded and gives up, and then it has noted a
problem. -/
theorem runs_guarded (hc : c.rest ≠ []) (hp : Runs ok c p q Q) (hlt : ∀ x c', Q x c' → c'.rest.length < c.rest.length) :
    Runs ok c (Parse.guarded p) (Parse.guarded q) fun r c' =>
      c'.rest.length < c.rest.length ∧ r.elim (c'.problems ≠ c.problems) (Q · c') := by
  have hsame : Parse.guarded p c = Parse.guarded q c := by simp only [Parse.guarded, hp.same]
  refine ⟨⟨hsame, fun r c' hr => ?_⟩, fun c' hc => ?_⟩
  · rcases hpc : p c with ⟨_ | x, c''⟩ <;> simp only [Parse.guarded, hpc] at hr <;> cases hr
    · obtain ⟨hleads, hne⟩ := hp.notes c'' hpc
      have hskip := c''.leads_skip c.index
      refine ⟨hleads.noted hne hskip, ?_, fun heq => hne (hleads.problems_eq hskip heq)⟩
      by_cases hmoved : c''.rest.length < c.rest.length
      · exact Nat.lt_of_le_of_lt hskip.length_le hmoved
      · -- nothing was read, so skipping starts where reading did
        have hindex := hleads.index_add
        have hlength := hleads.length_le
        have hrest : c''.rest ≠ [] := by
          intro hnil
          have := List.length_pos_of_ne_nil hc
          rw [hnil, List.length_nil] at hmoved
          omega
        exact Nat.lt_of_lt_of_le (Cursor.length_skip hrest (by omega)) hlength
    · obtain ⟨hleads, hq⟩ := hp.reads x c' hpc
      exact ⟨hleads, hlt x c' hq, hq⟩
  · rcases hpc : p c with ⟨_ | x, c''⟩ <;> simp only [Parse.guarded, hpc] at hc <;> cases hc

end Readers

/-! ## Readers of short texts -/

/-- Wherever fewer than a number of tokens are to come, two readers do the same and move on. -/
def Skims {α : Type} (ok : Kind → Prop) (n : Nat) (p q : Parse α) : Prop :=
  ∀ c : Cursor, c.Ended → c.rest.length < n → Runs ok c p q fun _ _ => True

/-- Wherever fewer than a number of tokens are to come, two readers do the same and read at least one token. -/
def Takes {α : Type} (ok : Kind → Prop) (n : Nat) (p q : Parse α) : Prop :=
  ∀ c : Cursor, c.Ended → c.rest.length < n → Runs ok c p q fun _ c' => c'.rest.length < c.rest.length

/-- Wherever a known token is at the cursor and fewer than a number of tokens are to come, two readers do the same and
move on. -/
def SkimsAt {α : Type} (ok : Kind → Prop) (t : Token) (n : Nat) (p q : Parse α) : Prop :=
  ∀ c : Cursor, c.Ended → c.rest.length < n → c.current = t → Runs ok c p q fun _ _ => True

/-- The same of readers that read the known token at least. -/
def TakesAt {α : Type} (ok : Kind → Prop) (t : Token) (n : Nat) (p q : Parse α) : Prop :=
  ∀ c : Cursor, c.Ended → c.rest.length < n → c.current = t →
    Runs ok c p q fun _ c' => c'.rest.length < c.rest.length

/-- Two loops do the same if their numbers of rounds exceed that of the tokens to come. -/
def LoopsSkim {α : Type} (ok : Kind → Prop) (n : Nat) (p q : Nat → Parse α) : Prop :=
  ∀ (c : Cursor) (k l : Nat), c.Ended → c.rest.length < n → c.rest.length < k → c.rest.length < l →
    Runs ok c (p k) (q l) fun _ _ => True

/-- The same of loops that read at least one token. -/
def LoopsTake {α : Type} (ok : Kind → Prop) (n : Nat) (p q : Nat → Parse α) : Prop :=
  ∀ (c : Cursor) (k l : Nat), c.Ended → c.rest.length < n → c.rest.length < k → c.rest.length < l →
    Runs ok c (p k) (q l) fun _ c' => c'.rest.length < c.rest.length

section Short

variable {α β : Type} {ok : Kind → Prop} {n : Nat} {p q : Parse α} {f g : α → Parse β}

theorem Takes.skims (h : Takes ok n p q) : Skims ok n p q :=
  fun c hc hlen => (h c hc hlen).imp fun _ _ _ _ => True.intro

theorem Skims.mono {m : Nat} (h : Skims ok n p q) (hm : m ≤ n) : Skims ok m p q :=
  fun c hc hlen => h c hc (Nat.lt_of_lt_of_le hlen hm)

theorem Takes.mono {m : Nat} (h : Takes ok n p q) (hm : m ≤ n) : Takes ok m p q :=
  fun c hc hlen => h c hc (Nat.lt_of_lt_of_le hlen hm)

theorem Skims.bind (hp : Skims ok n p q) (hf : ∀ x, Skims ok n (f x) (g x)) : Skims ok n (p >>= f) (q >>= g) :=
  fun c hc hlen => (hp c hc hlen).bind fun x c' hleads _ =>
    hf x c' (hleads.ended hc) (Nat.lt_of_le_of_lt hleads.length_le hlen)

theorem Skims.takes (hp : Skims ok n p q) (hf : ∀ x, Takes ok n (f x) (g x)) : Takes ok n (p >>= f) (q >>= g) := by
  intro c hc hlen
  refine (hp c hc hlen).bind fun x c' hleads _ => ?_
  have hrun := hf x c' (hleads.ended hc) (Nat.lt_of_le_of_lt hleads.length_le hlen)
  exact hrun.imp fun _ _ _ hlt => Nat.lt_of_lt_of_le hlt hleads.length_le

theorem Skims.weaken (h : Skims ok n p q) : Skims (fun _ => True) n p q :=
  fun c hc hlen => (h c hc hlen).mono fun _ _ => True.intro

theorem Takes.weaken (h : Takes ok n p q) : Takes (fun _ => True) n p q :=
  fun c hc hlen => (h c hc hlen).mono fun _ _ => True.intro

/-- After a reader that reads a token, one token fewer is to come. -/
theorem Takes.bind (hp : Takes ok (n + 1) p q) (hf : ∀ x, Skims ok n (f x) (g x)) :
    Takes ok (n + 1) (p >>= f) (q >>= g) := by
  intro c hc hlen
  refine (hp c hc hlen).bind fun x c' hleads hlt => ?_
  have hrun := hf x c' (hleads.ended hc) (by omega)
  exact hrun.imp fun _ _ hleads' _ => Nat.lt_of_le_of_lt hleads'.length_le hlt

theorem Takes.then (hp : Takes ok n p q) (hf : ∀ x, Skims ok n (f x) (g x)) : Takes ok n (p >>= f) (q >>= g) := by
  cases n with
  | zero => exact fun c _ hlen => absurd hlen (Nat.not_lt_zero _)
  | succ n => exact hp.bind fun x => (hf x).mono (Nat.le_succ n)

theorem skims_pure {x : α} : Skims ok n (pure x) (pure x) := fun _ _ _ => runs_pure True.intro

theorem Skims.map {h : α → β} (hp : Skims ok n p q) : Skims ok n (h <$> p) (h <$> q) := by
  rw [← bind_pure_comp, ← bind_pure_comp]
  exact hp.bind fun _ => skims_pure

theorem Takes.map {h : α → β} (hp : Takes ok n p q) : Takes ok n (h <$> p) (h <$> q) := by
  rw [← bind_pure_comp, ← bind_pure_comp]
  exact hp.then fun _ => skims_pure

theorem skims_get : Skims ok n (get : Parse Cursor) get := fun _ _ _ => runs_off rfl True.intro

theorem skims_here : Skims ok n Parse.here Parse.here := fun _ _ _ => runs_off rfl True.intro

theorem skims_current : Skims ok n Parse.current Parse.current := fun _ _ _ => runs_off rfl True.intro

theorem skims_sees (k : Kind) : Skims ok n (Parse.sees k) (Parse.sees k) := fun _ _ _ => runs_off rfl True.intro

theorem skims_spanFrom (start : Pos) : Skims ok n (Parse.spanFrom start) (Parse.spanFrom start) :=
  fun _ _ _ => runs_off rfl True.intro

theorem takes_fail (e : SyntaxError) : Takes ok n (Parse.fail e : Parse α) (Parse.fail e) := fun _ _ _ => runs_fail e

theorem takes_fail_bind (e : SyntaxError) : Takes ok n ((Parse.fail e : Parse α) >>= f) (Parse.fail e >>= g) :=
  fun _ _ _ => (runs_fail (Q := fun _ _ => False) e).bind fun _ _ _ h => h.elim

/-- What is read may depend on the token at the place. -/
theorem takes_current {f g : Token → Parse β} (h : ∀ t, TakesAt ok t n (f t) (g t)) :
    Takes ok n (Parse.current >>= f) (Parse.current >>= g) := by
  intro c hc hlen
  refine runs_current.bind ?_
  rintro t c' - ⟨rfl, rfl⟩
  exact h _ _ hc hlen rfl

/-- The same of readers that may read nothing. -/
theorem skims_current_of {f g : Token → Parse β} (h : ∀ t, SkimsAt ok t n (f t) (g t)) :
    Skims ok n (Parse.current >>= f) (Parse.current >>= g) := by
  intro c hc hlen
  refine runs_current.bind ?_
  rintro t c' - ⟨rfl, rfl⟩
  exact h _ _ hc hlen rfl

theorem Skims.at (h : Skims ok n p q) (t : Token) : SkimsAt ok t n p q := fun c hc hlen _ => h c hc hlen

theorem TakesAt.skims {t : Token} (h : TakesAt ok t n p q) : SkimsAt ok t n p q :=
  fun c hc hlen ht => (h c hc hlen ht).imp fun _ _ _ _ => True.intro

theorem Takes.at (h : Takes ok n p q) (t : Token) : TakesAt ok t n p q := fun c hc hlen _ => h c hc hlen

/-- Moving over a known token. -/
theorem takesAt_advance {t : Token} {f g : Unit → Parse β} (hk : t.kind ≠ .eof) (hok : ok t.kind)
    (h : Skims ok n (f ()) (g ())) : TakesAt ok t (n + 1) (Parse.advance >>= f) (Parse.advance >>= g) := by
  rintro c hc hlen rfl
  obtain ⟨ts, hrest⟩ := hc.exists_rest hk
  refine (runs_advance hrest hok).bind fun x c' hleads hc' => ?_
  subst hc'
  have hlt := Cursor.length_advance hrest
  exact (h _ (hleads.ended hc) (by omega)).imp fun _ _ hleads' _ => Nat.lt_of_le_of_lt hleads'.length_le hlt

/-- The one token that is asked for is passed. -/
theorem runs_expect {c : Cursor} (hc : c.Ended) {k : Kind} (hk : k ≠ .eof) (hok : ok k) :
    Runs ok c (Parse.expect k) (Parse.expect k) fun t c' => c.rest = t :: c'.rest ∧ t.kind = k := by
  refine runs_current.bind ?_
  rintro t c' - ⟨rfl, rfl⟩
  split
  · next ht =>
    obtain ⟨ts, hrest⟩ := hc.exists_rest (by rw [ht]; exact hk)
    refine (runs_advance hrest (by rw [ht]; exact hok)).bind fun x c₁ _ hc₁ => runs_pure ⟨?_, ht⟩
    simp [hc₁, Cursor.advance, hrest]
  · exact runs_fail _

theorem takes_expect {k : Kind} (hk : k ≠ .eof) (hok : ok k) : Takes ok n (Parse.expect k) (Parse.expect k) :=
  fun _ hc _ => (runs_expect hc hk hok).imp fun _ _ _ h => by rw [h.1]; exact Nat.lt_succ_self _

theorem takes_expectName (hok : ok .ident) : Takes ok n Parse.expectName Parse.expectName :=
  (takes_expect (by decide) hok).then fun _ => skims_pure

/-- A token that is there is read, and a branch is taken by it. -/
theorem runs_accept {c : Cursor} (hc : c.Ended) {k : Kind} (hk : k ≠ .eof) (hok : ok k) :
    Runs ok c (Parse.accept k) (Parse.accept k) fun b c' => b = true → c'.rest.length < c.rest.length := by
  refine (runs_sees k).bind ?_
  rintro b c' - ⟨rfl, rfl⟩
  split
  · next hdec =>
    have hkind := of_decide_eq_true hdec
    obtain ⟨ts, hrest⟩ := hc.exists_rest (by rw [hkind]; exact hk)
    refine (runs_advance hrest (by rw [hkind]; exact hok)).bind fun x c' _ hc' => runs_pure fun _ => ?_
    subst hc'
    exact Cursor.length_advance hrest
  · exact runs_pure (by simp)

theorem skims_accept {k : Kind} (hk : k ≠ .eof) (hok : ok k) : Skims ok n (Parse.accept k) (Parse.accept k) :=
  fun _ hc _ => (runs_accept hc hk hok).imp fun _ _ _ _ => True.intro

theorem skims_lookahead (hp : Skims ok n p q) : Skims ok n (Parse.lookahead p) (Parse.lookahead q) :=
  fun c hc hlen => (runs_lookahead (hp c hc hlen).toTries).imp fun _ _ _ _ => True.intro

/-! ## Loops -/

theorem skims_rounds {p q : Nat → Parse α} (h : LoopsSkim ok n p q) :
    Skims ok n (Parse.rounds >>= p) (Parse.rounds >>= q) := by
  intro c hc hlen
  refine runs_rounds.bind ?_
  rintro k c' - ⟨rfl, rfl⟩
  exact h c' _ _ hc hlen (Nat.lt_succ_self _) (Nat.lt_succ_self _)

theorem takes_rounds {p q : Nat → Parse α} (h : LoopsTake ok n p q) :
    Takes ok n (Parse.rounds >>= p) (Parse.rounds >>= q) := by
  intro c hc hlen
  refine runs_rounds.bind ?_
  rintro k c' - ⟨rfl, rfl⟩
  exact h c' _ _ hc hlen (Nat.lt_succ_self _) (Nat.lt_succ_self _)

theorem LoopsTake.skims {p q : Nat → Parse α} (h : LoopsTake ok n p q) : LoopsSkim ok n p q :=
  fun c k l hc hn hk hl => (h c k l hc hn hk hl).imp fun _ _ _ _ => True.intro

theorem LoopsSkim.bind {p q : Nat → Parse α} (hp : LoopsSkim ok n p q) (hf : ∀ x, Skims ok n (f x) (g x)) :
    LoopsSkim ok n (fun k => p k >>= f) fun k => q k >>= g :=
  fun c k l hc hn hk hl => (hp c k l hc hn hk hl).bind fun x c' hleads _ =>
    hf x c' (hleads.ended hc) (Nat.lt_of_le_of_lt hleads.length_le hn)

theorem LoopsSkim.takes {p q : Nat → Parse α} (hp : LoopsSkim ok n p q) (hf : ∀ x, Takes ok n (f x) (g x)) :
    LoopsTake ok n (fun k => p k >>= f) fun k => q k >>= g := by
  intro c k l hc hn hk hl
  refine (hp c k l hc hn hk hl).bind fun x c' hleads _ => ?_
  have hle := hleads.length_le
  exact (hf x c' (hleads.ended hc) (by omega)).imp fun _ _ _ hlt => Nat.lt_of_lt_of_le hlt hle

/-- Rounds that read a token each end at a token that stops them. What holds of the items there is what each round
keeps. -/
theorem runs_repeatUntil {stop : List Kind} {p q : Parse (Option α)} {S : Cursor → Option α → Cursor → Prop}
    {T : Cursor → List α → Cursor → Prop} (hstop : Kind.eof ∈ stop)
    (hp : ∀ c : Cursor, c.Ended → c.rest.length < n → c.rest ≠ [] →
      Runs ok c p q fun r c' => c'.rest.length < c.rest.length ∧ S c r c')
    (hend : ∀ c, c.current.kind ∈ stop → T c [] c)
    (hnext : ∀ c r c' xs c'', c.Leads ok c' → S c r c' → c'.Leads ok c'' → T c' xs c'' → T c (r.toList ++ xs) c'')
    {c : Cursor} {k l : Nat} (hc : c.Ended) (hn : c.rest.length < n) (hk : c.rest.length < k) (hl : c.rest.length < l) :
    Runs ok c (Parse.repeatUntil stop p k) (Parse.repeatUntil stop q l) (T c) := by
  induction k generalizing c l with
  | zero => exact absurd hk (Nat.not_lt_zero _)
  | succ k ih =>
    obtain _ | l := l
    · exact absurd hl (Nat.not_lt_zero _)
    refine runs_current.bind ?_
    rintro t c' - ⟨rfl, rfl⟩
    split
    · next hmem => exact runs_pure (hend c' hmem)
    · next hmem =>
      have hrest : c'.rest ≠ [] := by
        intro hnil
        refine hmem ?_
        have heof : c'.current.kind = .eof := by simpa [Cursor.current, hnil] using hc.eof
        rw [heof]
        exact hstop
      refine (hp c' hc hn hrest).bind fun r c₁ hleads hround => ?_
      have hrun := ih (hleads.ended hc) (hround.1.trans hn) (l := l) (by omega) (by omega)
      split
      · exact hrun.bind fun xs c₂ hleads' hxs => runs_pure (hnext c' _ c₁ xs c₂ hleads hround.2 hleads' hxs)
      · exact hrun.imp fun xs c₂ hleads' hxs => hnext c' none c₁ xs c₂ hleads hround.2 hleads' hxs

/-- A loop over items that read a token each ends at a token that stops it. -/
theorem runs_recovering {stop : List Kind} (hstop : Kind.eof ∈ stop) (hp : Takes ok n p q) {c : Cursor} {k l : Nat}
    (hc : c.Ended) (hn : c.rest.length < n) (hk : c.rest.length < k) (hl : c.rest.length < l) :
    Runs ok c (Parse.repeatUntil stop (Parse.guarded p) k) (Parse.repeatUntil stop (Parse.guarded q) l)
      fun _ c' => c'.current.kind ∈ stop :=
  runs_repeatUntil (T := fun _ _ c' => c'.current.kind ∈ stop) hstop
    (fun c hc hlen hrest => runs_guarded hrest (hp c hc hlen) fun _ _ hlt => hlt)
    (fun _ hmem => hmem) (fun _ _ _ _ _ _ _ _ hmem => hmem) hc hn hk hl

theorem loopsSkim_itemsUntil {close : Kind} (hok : ok .comma) (hp : Takes ok n p q) :
    LoopsSkim ok n (Parse.itemsUntil close p) (Parse.itemsUntil close q) := by
  intro c k l hc hn hk hl
  induction k generalizing c l with
  | zero => exact absurd hk (Nat.not_lt_zero _)
  | succ k ih =>
    obtain _ | l := l
    · exact absurd hl (Nat.not_lt_zero _)
    refine (skims_sees close c hc hn).bind fun b c' hleads _ => ?_
    have hc' := hleads.ended hc
    have hle := hleads.length_le
    split
    · exact runs_pure True.intro
    · refine (hp c' hc' (by omega)).bind fun x c₂ hleads₂ hlt => ?_
      refine (skims_accept (n := n) (by decide) hok c₂ (hleads₂.ended hc') (by omega)).bind fun b c₃ hleads₃ _ => ?_
      have hle₃ := hleads₃.length_le
      split
      · exact (ih c₃ l (hleads₃.ended (hleads₂.ended hc')) (by omega) (by omega) (by omega)).bind fun xs _ _ _ =>
          runs_pure True.intro
      · exact runs_pure True.intro

theorem loopsTake_items {separator : Kind} (hsep : separator ≠ .eof) (hok : ok separator) (hp : Takes ok n p q) :
    LoopsTake ok n (Parse.items separator p) (Parse.items separator q) := by
  intro c k l hc hn hk hl
  induction k generalizing c l with
  | zero => exact absurd hk (Nat.not_lt_zero _)
  | succ k ih =>
    obtain _ | l := l
    · exact absurd hl (Nat.not_lt_zero _)
    refine (hp c hc hn).bind fun x c' hleads hlt => ?_
    have hc' := hleads.ended hc
    refine (skims_accept (n := n) hsep hok c' hc' (by omega)).bind fun b c₂ hleads₂ _ => ?_
    have hle₂ := hleads₂.length_le
    split
    · refine (ih c₂ l (hleads₂.ended hc') (by omega) (by omega) (by omega)).bind fun xs c₃ hleads₃ _ => runs_pure ?_
      have hle₃ := hleads₃.length_le
      omega
    · exact runs_pure (by omega)

theorem skims_listUntil {close : Kind} (hok : ok .comma) (hp : Takes ok n p q) :
    Skims ok n (Parse.listUntil close p) (Parse.listUntil close q) :=
  skims_rounds (loopsSkim_itemsUntil hok hp)

theorem takes_commaList (hok : ok .comma) (hp : Takes ok n p q) :
    Takes ok n (Parse.commaList p) (Parse.commaList q) :=
  takes_rounds (loopsTake_items (by decide) hok hp)

theorem skims_blockItems (hp : Takes ok n p q) : Skims ok n (Parse.blockItems p) (Parse.blockItems q) :=
  skims_rounds fun _ _ _ hc hn hk hl => (runs_recovering (by decide) hp hc hn hk hl).imp fun _ _ _ _ => True.intro

end Short

end Weft.Tree
