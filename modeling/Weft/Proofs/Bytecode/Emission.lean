import Weft.Proofs.Bytecode.Constants
import Weft.Proofs.Bytecode.Pieces
import Weft.Proofs.Bytecode.Running

/-!
# What a computation puts into a stream

A computation of the compiler that ends puts the code of its part at the end of one stream and leaves the
rest as it was. `Emits` says so, with the requests, the waiting jumps and the direct calls that belong to
the new code. Parts one after the other emit their code one after the other.
-/

namespace Weft.Bytecode

/-! ### Instructions and requests -/

/-- An instruction made from a piece. A constant stands at its position among the constants. -/
structure Matches (constants : List Constant) (x : Instruction) (q : Piece) : Prop where
  op : x.op = q.op
  line : x.line = q.line
  sound : x.Sound
  bare : q.const = none → q.op.pool = none ∧ x.operands = q.operands
  const : ∀ c, q.const = some c →
    ∃ p i : Nat, q.op.pool = some p ∧ constants[i]? = some c ∧ x.operands = q.operands.set p i

theorem Matches.mono {cs cs' : List Constant} {x : Instruction} {q : Piece} (h : Matches cs x q)
    (hp : cs <+: cs') : Matches cs' x q := by
  refine ⟨h.op, h.line, h.sound, h.bare, ?_⟩
  intro c hc
  obtain ⟨p, i, hpool, hi, hops⟩ := h.const c hc
  obtain ⟨rest, rfl⟩ := hp
  have hlt := (List.getElem?_eq_some_iff.mp hi).1
  exact ⟨p, i, hpool, by rw [List.getElem?_append_left hlt, hi], hops⟩

/-- The requests of code whose first instruction has a number. -/
def Asked (n : Nat) (code : List Piece) (r : OffsetRequest) : Prop :=
  ∃ i q d, code[i]? = some q ∧ q.goal = some (.ahead d) ∧ r.src = n + i ∧ (r.dst : Int) = n + i + d ∧
    r.operand = q.offsetIndex

/-- The jumps of code that wait for an end of the loop around it. -/
def Pending (g : Goal) (n : Nat) (code : List Piece) (b : Nat) : Prop :=
  ∃ i q, code[i]? = some q ∧ q.goal = some g ∧ b = n + i

/-- A call in code that may become direct. -/
def Callable (s : Section) (n : Nat) (code : List Piece) (d : DirectCall) : Prop :=
  d.part = s ∧ (∃ i q, code[i]? = some q ∧ d.get = n + i ∧ q.op = .getFunc ∧ q.callee = some d.func) ∧
    ∃ j r, code[j]? = some r ∧ d.call = n + j ∧ r.op = .callPtr ∧ r.callee = some d.func

/-- The calls in code that may become direct, in the order of the code. Every instruction that names a
function belongs to one of them. -/
structure Noted (s : Section) (n : Nat) (code : List Piece) (ds : List DirectCall) : Prop where
  callable : ∀ d ∈ ds, Callable s n code d
  ordered : ds.Pairwise fun d e => d.call < e.call
  distinct : ds.Pairwise fun d e => d.get ≠ e.get
  named : ∀ i q f, code[i]? = some q → q.callee = some f → ∃ d ∈ ds, d.func = f ∧
    (q.op = .getFunc ∧ d.get = n + i ∨ q.op = .callPtr ∧ d.call = n + i)

theorem asked_append {n : Nat} {a b : List Piece} {r : OffsetRequest} :
    Asked n (a ++ b) r ↔ Asked n a r ∨ Asked (n + a.length) b r := by
  simp only [Asked, getElem?_append_cases]
  constructor
  · rintro ⟨i, q, d, h | ⟨j, rfl, h⟩, hg, hs, hd, ho⟩
    · exact .inl ⟨i, q, d, h, hg, hs, hd, ho⟩
    · exact .inr ⟨j, q, d, h, hg, by omega, by omega, ho⟩
  · rintro (⟨i, q, d, h, hg, hs, hd, ho⟩ | ⟨j, q, d, h, hg, hs, hd, ho⟩)
    · exact ⟨i, q, d, .inl h, hg, hs, hd, ho⟩
    · exact ⟨a.length + j, q, d, .inr ⟨j, rfl, h⟩, hg, by omega, by omega, ho⟩

theorem pending_append {g : Goal} {n : Nat} {a b : List Piece} {k : Nat} :
    Pending g n (a ++ b) k ↔ Pending g n a k ∨ Pending g (n + a.length) b k := by
  simp only [Pending, getElem?_append_cases]
  constructor
  · rintro ⟨i, q, h | ⟨j, rfl, h⟩, hg, hk⟩
    · exact .inl ⟨i, q, h, hg, hk⟩
    · exact .inr ⟨j, q, h, hg, by omega⟩
  · rintro (⟨i, q, h, hg, hk⟩ | ⟨j, q, h, hg, hk⟩)
    · exact ⟨i, q, .inl h, hg, hk⟩
    · exact ⟨a.length + j, q, .inr ⟨j, rfl, h⟩, hg, by omega⟩

theorem Callable.append_left {s : Section} {n : Nat} {a b : List Piece} {d : DirectCall}
    (h : Callable s n a d) : Callable s n (a ++ b) d := by
  obtain ⟨hs, ⟨i, q, hq, hget⟩, j, r, hr, hcall⟩ := h
  exact ⟨hs, ⟨i, q, getElem?_append_cases.mpr (.inl hq), hget⟩, j, r,
    getElem?_append_cases.mpr (.inl hr), hcall⟩

theorem Callable.append_right {s : Section} {n : Nat} {a b : List Piece} {d : DirectCall}
    (h : Callable s (n + a.length) b d) : Callable s n (a ++ b) d := by
  obtain ⟨hs, ⟨i, q, hq, hi, hget⟩, j, r, hr, hj, hcall⟩ := h
  exact ⟨hs, ⟨a.length + i, q, getElem?_append_cases.mpr (.inr ⟨i, rfl, hq⟩), by omega, hget⟩,
    a.length + j, r, getElem?_append_cases.mpr (.inr ⟨j, rfl, hr⟩), by omega, hcall⟩

theorem Callable.range {s : Section} {n : Nat} {code : List Piece} {d : DirectCall}
    (h : Callable s n code d) : n ≤ d.call ∧ d.call < n + code.length := by
  obtain ⟨-, -, j, r, hr, hj, -⟩ := h
  have := (List.getElem?_eq_some_iff.mp hr).1
  omega

/-- The instruction that pushes the function of a noted call is one of the code. -/
theorem Callable.range_get {s : Section} {n : Nat} {code : List Piece} {d : DirectCall}
    (h : Callable s n code d) : n ≤ d.get ∧ d.get < n + code.length := by
  obtain ⟨-, ⟨i, q, hq, hi, -⟩, -⟩ := h
  have := (List.getElem?_eq_some_iff.mp hq).1
  omega

namespace Noted

variable {s : Section} {n : Nat} {a b code code' : List Piece} {ds es : List DirectCall}

/-- Code that names no function. -/
theorem none (h : ∀ q ∈ code, q.callee = .none) : Noted s n code [] where
  callable := by simp
  ordered := .nil
  distinct := .nil
  named := by
    intro i q f hq hf
    rw [h q (List.mem_of_getElem? hq)] at hf
    simp at hf

theorem append (h : Noted s n a ds) (h' : Noted s (n + a.length) b es) : Noted s n (a ++ b) (ds ++ es) where
  callable := by
    intro d hd
    rcases List.mem_append.mp hd with hd | hd
    · exact (h.callable d hd).append_left
    · exact (h'.callable d hd).append_right
  ordered := by
    refine List.pairwise_append.mpr ⟨h.ordered, h'.ordered, ?_⟩
    intro d hd e he
    have := (h.callable d hd).range
    have := (h'.callable e he).range
    omega
  distinct := by
    refine List.pairwise_append.mpr ⟨h.distinct, h'.distinct, ?_⟩
    intro d hd e he
    have := (h.callable d hd).range_get
    have := (h'.callable e he).range_get
    omega
  named := by
    intro i q f hq hf
    rcases getElem?_append_cases.mp hq with ha | ⟨j, rfl, hb⟩
    · obtain ⟨d, hd, hrest⟩ := h.named i q f ha hf
      exact ⟨d, by simp [hd], hrest⟩
    · obtain ⟨d, hd, hfunc, hrest⟩ := h'.named j q f hb hf
      exact ⟨d, by simp [hd], hfunc, by rwa [Nat.add_assoc] at hrest⟩

/-- Only opcodes and names matter, and opcodes only where a function is named. -/
theorem congr (h : Noted s n code ds)
    (hto : ∀ (i : Nat) q f, code[i]? = some q → q.callee = some f →
      ∃ r, code'[i]? = some r ∧ r.op = q.op ∧ r.callee = some f)
    (hfrom : ∀ (i : Nat) r f, code'[i]? = some r → r.callee = some f →
      ∃ q, code[i]? = some q ∧ q.op = r.op ∧ q.callee = some f) : Noted s n code' ds where
  callable := by
    intro d hd
    obtain ⟨hs, ⟨i, q, hq, hi, hqo, hqf⟩, j, r, hr, hj, hro, hrf⟩ := h.callable d hd
    obtain ⟨q', hq', hop, hf⟩ := hto i q _ hq hqf
    obtain ⟨r', hr', hop', hf'⟩ := hto j r _ hr hrf
    exact ⟨hs, ⟨i, q', hq', hi, hop.trans hqo, hf⟩, j, r', hr', hj, hop'.trans hro, hf'⟩
  ordered := h.ordered
  distinct := h.distinct
  named := by
    intro i r f hr hf
    obtain ⟨q, hq, hop, hqf⟩ := hfrom i r f hr hf
    rw [← hop]
    exact h.named i q f hq hqf

/-- The code between two instructions that name no function. -/
theorem inner {q r : Piece} (h : Noted s n (q :: (code ++ [r])) ds) (hq : q.callee = .none)
    (hr : r.callee = .none) : Noted s (n + 1) code ds where
  callable := by
    have inside : ∀ {i : Nat} {p : Piece} {f : FuncId}, (q :: (code ++ [r]))[i]? = some p →
        p.callee = some f → ∃ j, i = j + 1 ∧ code[j]? = some p := by
      intro i p f hp hf
      rcases getElem?_append_cases (a := [q]).mp hp with hfirst | ⟨j, rfl, hrest⟩
      · obtain rfl := List.mem_singleton.mp (List.mem_of_getElem? hfirst)
        simp [hq] at hf
      · rcases getElem?_append_cases.mp hrest with hin | ⟨k, rfl, hlast⟩
        · exact ⟨j, Nat.add_comm _ _, hin⟩
        · obtain rfl := List.mem_singleton.mp (List.mem_of_getElem? hlast)
          simp [hr] at hf
    intro d hd
    obtain ⟨hs, ⟨i, p, hp, hi, hget⟩, j, p', hp', hj, hcall⟩ := h.callable d hd
    obtain ⟨k, rfl, hk⟩ := inside hp hget.2
    obtain ⟨m, rfl, hm⟩ := inside hp' hcall.2
    exact ⟨hs, ⟨k, p, hk, by omega, hget⟩, m, p', hm, by omega, hcall⟩
  ordered := h.ordered
  distinct := h.distinct
  named := by
    intro i p f hp hf
    obtain ⟨d, hd, hfunc, hrest⟩ := h.named (i + 1) p f
      (by simpa using getElem?_append_cases.mpr (.inl hp)) hf
    refine ⟨d, hd, hfunc, ?_⟩
    rwa [show n + 1 + i = n + (i + 1) by omega]

/-- The call around the code of its arguments. -/
theorem around {q r : Piece} {d : DirectCall} (h : Noted s (n + 1) code ds) (hq : q.op = .getFunc)
    (hr : r.op = .callPtr) (hqf : q.callee = some d.func) (hrf : r.callee = some d.func)
    (hs : d.part = s) (hget : d.get = n) (hcall : d.call = n + code.length + 1) :
    Noted s n (q :: (code ++ [r])) (ds ++ [d]) where
  callable := by
    intro e he
    rcases List.mem_append.mp he with he | he
    · exact (h.callable e he).append_left.append_right (a := [q])
    · obtain rfl := List.mem_singleton.mp he
      exact ⟨hs, ⟨0, q, rfl, hget, hq, hqf⟩, code.length + 1, r, by simp, by omega, hr, hrf⟩
  ordered := by
    refine List.pairwise_append.mpr ⟨h.ordered, by simp, ?_⟩
    intro e he d' hd'
    obtain rfl := List.mem_singleton.mp hd'
    have := (h.callable e he).range
    omega
  distinct := by
    refine List.pairwise_append.mpr ⟨h.distinct, by simp, ?_⟩
    intro e he d' hd'
    obtain rfl := List.mem_singleton.mp hd'
    have := (h.callable e he).range_get
    omega
  named := by
    intro i p f hp hf
    cases i with
    | zero =>
      obtain rfl : q = p := by simpa using hp
      exact ⟨d, by simp, by simpa [hqf] using hf, .inl ⟨hq, hget⟩⟩
    | succ i =>
      rw [List.getElem?_cons_succ] at hp
      rcases getElem?_append_cases.mp hp with hp | ⟨j, rfl, hp⟩
      · obtain ⟨e, he, hfunc, hrest⟩ := h.named i p f hp hf
        refine ⟨e, by simp [he], hfunc, ?_⟩
        rwa [show n + (i + 1) = n + 1 + i by omega]
      · cases j with
        | zero =>
          obtain rfl : r = p := by simpa using hp
          exact ⟨d, by simp, by simpa [hrf] using hf, .inr ⟨hr, by omega⟩⟩
        | succ j => simp at hp

end Noted

/-! ### Emission -/

/-- The number of the next instruction. -/
def Lowering.next (l : Lowering) : Nat := l.asm.instrs.size

/-- The step from one state to another puts code at the end of a stream and, loops apart, does nothing
else. -/
structure Puts (s : Section) (l l' : Lowering) (code : List Piece) : Prop where
  size : l'.next = l.next + code.length
  old : ∀ n < l.next, l'.asm.instrs[n]? = l.asm.instrs[n]?
  new : ∀ i q, code[i]? = some q →
    ∃ x, l'.asm.instrs[l.next + i]? = some x ∧ Matches l'.pool.constants x q
  order : (l'.asm.stream s).order.toList = (l.asm.stream s).order.toList ++ List.range' l.next code.length
  requests : ∀ r, r ∈ (l'.asm.stream s).requests ↔
    r ∈ (l.asm.stream s).requests ∨ Asked l.next code r
  patches : (l'.asm.stream s).patches = (l.asm.stream s).patches
  resolved : (l'.asm.stream s).resolved = (l.asm.stream s).resolved
  other : ∀ t, t ≠ s → l'.asm.stream t = l.asm.stream t
  used : l'.pool = l.pool.addAll (Piece.consts code)
  entries : l'.entries = l.entries
  direct : ∃ ds, l'.direct = l.direct ++ ds ∧ Noted s l.next code ds ∧
    ∀ d ∈ ds, (l'.asm.instr d.get).operands = [(d.constant : Int)]
  waits : ∀ q ∈ code, q.Waits → q.offsetIndex = 0

/-- What the loops around a place become when code is emitted there. Only the innermost one gets new
waiting jumps; outside of loops no jump may wait. -/
inductive Waiting (n : Nat) (code : List Piece) : List Loop → List Loop → Prop where
  | outside (h : ∀ g b, g = .exit ∨ g = .next → ¬Pending g n code b) : Waiting n code [] []
  | inside {u v : Loop} {rest : List Loop}
      (breaks : ∀ b, b ∈ v.breaks ↔ b ∈ u.breaks ∨ Pending .exit n code b)
      (continues : ∀ b, b ∈ v.continues ↔ b ∈ u.continues ∨ Pending .next n code b) :
      Waiting n code (u :: rest) (v :: rest)

/-- The step from one state to another emits code into a stream. -/
structure Emits (s : Section) (l l' : Lowering) (code : List Piece) : Prop
    extends Puts s l l' code where
  loops : Waiting l.next code l.loops l'.loops

namespace Waiting

variable {n : Nat} {a b : List Piece} {u v w : List Loop}

theorem none (h : ∀ g k, g = .exit ∨ g = .next → ¬Pending g n a k) : Waiting n a u u := by
  cases u with
  | nil => exact .outside h
  | cons u rest => exact .inside (by simp [h]) (by simp [h])

theorem append (h : Waiting n a u v) (h' : Waiting (n + a.length) b v w) : Waiting n (a ++ b) u w := by
  cases h with
  | outside ha =>
    cases h' with
    | outside hb =>
      refine .outside ?_
      intro g k hg hp
      rcases pending_append.mp hp with hp | hp
      · exact ha g k hg hp
      · exact hb g k hg hp
  | inside hb hc =>
    cases h' with
    | inside hb' hc' =>
      refine .inside ?_ ?_
      · intro k
        rw [hb', hb, pending_append, or_assoc]
      · intro k
        rw [hc', hc, pending_append, or_assoc]

theorem congr (h : Waiting n a u v)
    (hab : ∀ g k, g = .exit ∨ g = .next → (Pending g n b k ↔ Pending g n a k)) : Waiting n b u v := by
  cases h with
  | outside ha => exact .outside fun g k hg => by rw [hab g k hg]; exact ha g k hg
  | inside hb hc =>
    refine .inside ?_ ?_
    · intro k
      rw [hb, hab _ _ (.inl rfl)]
    · intro k
      rw [hc, hab _ _ (.inr rfl)]

end Waiting

namespace Puts

variable {s : Section} {l l' l₁ l₂ : Lowering} {a b code : List Piece}

theorem refl (s : Section) (l : Lowering) : Puts s l l [] where
  size := by simp
  old := fun _ _ => rfl
  new := by simp
  order := by simp
  requests := by simp [Asked]
  patches := rfl
  resolved := rfl
  other := fun _ _ => rfl
  used := rfl
  entries := rfl
  direct := ⟨[], by simp, .none (by simp), by simp⟩
  waits := by simp

theorem pool (h : Puts s l l' code) : l.pool.constants <+: l'.pool.constants := by
  rw [h.used]
  exact l.pool.prefix_addAll _

theorem trans (h : Puts s l l₁ a) (h' : Puts s l₁ l₂ b) : Puts s l l₂ (a ++ b) where
  size := by rw [h'.size, h.size, List.length_append]; omega
  old := fun n hn => by rw [h'.old n (by rw [h.size]; omega), h.old n hn]
  new := by
    intro i q hq
    rcases getElem?_append_cases.mp hq with ha | ⟨j, rfl, hb⟩
    · obtain ⟨x, hx, hm⟩ := h.new i q ha
      have hi := (List.getElem?_eq_some_iff.mp ha).1
      exact ⟨x, by rw [h'.old _ (by rw [h.size]; omega), hx], hm.mono h'.pool⟩
    · obtain ⟨x, hx, hm⟩ := h'.new j q hb
      exact ⟨x, by rw [← hx, h.size]; congr 1; omega, hm⟩
  order := by
    rw [h'.order, h.order, h.size, List.append_assoc, List.length_append]
    congr 1
    rw [← List.range'_append_1]
  requests := by
    intro r
    rw [h'.requests, h.requests, asked_append, h.size, or_assoc]
  patches := by rw [h'.patches, h.patches]
  resolved := by rw [h'.resolved, h.resolved]
  other := fun t ht => by rw [h'.other t ht, h.other t ht]
  used := by rw [h'.used, h.used, Piece.consts_append, Pool.addAll_append]
  entries := by rw [h'.entries, h.entries]
  direct := by
    obtain ⟨ds, hds, hn, hget⟩ := h.direct
    obtain ⟨es, hes, hn', hget'⟩ := h'.direct
    rw [h.size] at hn'
    refine ⟨ds ++ es, by rw [hes, hds, List.append_assoc], hn.append hn', ?_⟩
    intro d hd
    rcases List.mem_append.mp hd with hd | hd
    · have hlt := (hn.callable d hd).range_get.2
      rw [Assembly.instr, h'.old _ (by rw [h.size]; exact hlt)]
      exact hget d hd
    · exact hget' d hd
  waits := by
    intro q hq
    rcases List.mem_append.mp hq with hq | hq
    · exact h.waits q hq
    · exact h'.waits q hq

theorem reloop (h : Puts s l l₁ code) (u v : List Loop) :
    Puts s { l with loops := u } { l₁ with loops := v } code :=
  ⟨h.size, h.old, h.new, h.order, h.requests, h.patches, h.resolved, h.other, h.used, h.entries,
    h.direct, h.waits⟩

/-- The state with one more instruction in a stream. -/
def pushed (s : Section) (x : Instruction) (l : Lowering) : Lowering :=
  { l with
    asm := Assembly.update s (fun st => { st with order := st.order.push l.next })
      ({ l.asm with instrs := l.asm.instrs.push x }) }

/-- One instruction that does not lead anywhere yet. Its constant is used just before. -/
theorem one {x : Instruction} {q : Piece} (hg : q.goal = none) (hf : q.callee = none)
    (hm : Matches (l.pool.addAll q.const.toList).constants x q) :
    Puts s l (pushed s x { l with pool := l.pool.addAll q.const.toList }) [q] where
  size := by simp [pushed, Lowering.next, Assembly.instrs_update]
  old := by
    intro n hn
    simp only [pushed, Assembly.instrs_update]
    exact Array.getElem?_push_lt hn ▸ (Array.getElem?_eq_getElem hn).symm
  new := by
    intro i q' hq
    obtain ⟨rfl, rfl⟩ : i = 0 ∧ q = q' := by
      cases i with
      | zero => exact ⟨rfl, by simpa using hq⟩
      | succ i => simp at hq
    exact ⟨x, by simp [pushed, Assembly.instrs_update, Lowering.next], hm⟩
  order := by
    simp [pushed, Lowering.next]
  requests := by
    intro r
    have hnone : ¬Asked l.next [q] r := by
      rintro ⟨i, q', d, hi, hd, -⟩
      have := List.mem_of_getElem? hi
      simp only [List.mem_singleton] at this
      subst this
      simp [hg] at hd
    simp only [pushed, Assembly.stream_update_self, hnone, or_false]
    cases s <;> rfl
  patches := by cases s <;> rfl
  resolved := by cases s <;> rfl
  other := by
    intro t ht
    simp only [pushed, Assembly.stream_update_ne ht]
    cases t <;> rfl
  used := by cases hc : q.const <;> simp [pushed, Piece.consts, hc]
  entries := rfl
  direct := ⟨[], by simp [pushed], .none (by simpa using hf), by simp⟩
  waits := by simp [Piece.Waits, hg]

/-- A piece without its goal. -/
private def bare (q : Piece) : Piece := { q with goal := none }

private theorem bare_at {code' : List Piece} (h : code'.map bare = code.map bare) {i : Nat} {q : Piece}
    (hq : code'[i]? = some q) : ∃ r, code[i]? = some r ∧ bare q = bare r := by
  have := congrArg (·[i]?) h
  simp only [List.getElem?_map, hq, Option.map_some] at this
  cases hr : code[i]? with
  | none => simp [hr] at this
  | some r => exact ⟨r, rfl, by simpa [hr] using this⟩

private theorem consts_bare {code' : List Piece} (h : code'.map bare = code.map bare) :
    Piece.consts code' = Piece.consts code := by
  have hconst : ∀ xs : List Piece, Piece.consts (xs.map bare) = Piece.consts xs := by
    intro xs
    simp [Piece.consts, List.filterMap_map, Function.comp_def, bare]
  rw [← hconst, h, hconst]

/-- The goals of emitted code may change together with the requests. -/
theorem relabel {code' : List Piece} (rs : Array OffsetRequest) (h : Puts s l l₁ code)
    (hb : code'.map bare = code.map bare)
    (hw : ∀ q ∈ code', q.Waits → q.offsetIndex = 0)
    (hr : ∀ r, r ∈ rs ↔ r ∈ (l.asm.stream s).requests ∨ Asked l.next code' r) :
    Puts s l { l₁ with asm := .update s ({ · with requests := rs }) l₁.asm } code' := by
  have hlen : code'.length = code.length := by simpa using congrArg List.length hb
  refine
    { size := ?_, old := ?_, new := ?_, order := ?_, requests := ?_, patches := ?_, resolved := ?_,
      other := ?_, used := ?_, entries := h.entries, direct := ?_, waits := hw }
  · simpa [Lowering.next, hlen] using h.size
  · simpa using h.old
  · intro i q hq
    obtain ⟨r, hi, hqr⟩ := bare_at hb hq
    obtain ⟨x, hx, hm⟩ := h.new i r hi
    cases q
    cases r
    simp only [bare, Piece.mk.injEq, true_and] at hqr
    obtain ⟨rfl, rfl, rfl, rfl, rfl⟩ := hqr
    exact ⟨x, by simpa using hx, hm.op, hm.line, hm.sound, hm.bare, hm.const⟩
  · simpa [hlen] using h.order
  · simpa using hr
  · simpa using h.patches
  · simpa using h.resolved
  · intro t ht
    simpa [Assembly.stream_update_ne ht] using h.other t ht
  · rw [h.used, consts_bare hb]
  · obtain ⟨ds, hds, hn, hget⟩ := h.direct
    refine ⟨ds, hds, hn.congr ?_ ?_, by simpa [Assembly.instr] using hget⟩
    · intro i q f hq hf
      obtain ⟨r, hr, he⟩ := bare_at hb.symm hq
      exact ⟨r, hr, (congrArg Piece.op he).symm, (congrArg Piece.callee he).symm.trans hf⟩
    · intro i r f hr hf
      obtain ⟨q, hq, he⟩ := bare_at hb hr
      exact ⟨q, hq, (congrArg Piece.op he).symm, (congrArg Piece.callee he).symm.trans hf⟩

private theorem update_requests_self (asm : Assembly) :
    Assembly.update s ({ · with requests := (asm.stream s).requests }) asm = asm := by
  cases s <;> rfl

theorem rename {code' : List Piece} (h : Puts s l l₁ code) (hb : code'.map bare = code.map bare)
    (hw : ∀ q ∈ code', q.Waits → q.offsetIndex = 0)
    (ha : ∀ r, Asked l.next code' r ↔ Asked l.next code r) : Puts s l l₁ code' := by
  have := h.relabel (l₁.asm.stream s).requests hb hw (fun r => by rw [h.requests, ha])
  rwa [update_requests_self] at this

end Puts

namespace Emits

variable {s : Section} {l l₁ l₂ : Lowering} {a b : List Piece}

theorem refl (s : Section) (l : Lowering) : Emits s l l [] :=
  ⟨.refl s l, .none (by simp [Pending])⟩

theorem trans (h : Emits s l l₁ a) (h' : Emits s l₁ l₂ b) : Emits s l l₂ (a ++ b) := by
  refine ⟨h.toPuts.trans h'.toPuts, h.loops.append ?_⟩
  rw [← h.size]
  exact h'.loops

theorem one {x : Instruction} {q : Piece} (hg : q.goal = none) (hf : q.callee = none)
    (hm : Matches (l.pool.addAll q.const.toList).constants x q) :
    Emits s l (Puts.pushed s x { l with pool := l.pool.addAll q.const.toList }) [q] := by
  refine ⟨.one hg hf hm, .none ?_⟩
  rintro g k - ⟨i, q', hi, hd, -⟩
  have := List.mem_of_getElem? hi
  simp only [List.mem_singleton] at this
  subst this
  simp [hg] at hd

end Emits

/-! ### Steps -/

section Steps

variable {s : Section} {l l' l₁ l₂ : Lowering} {a b code : List Piece} {c : Store × Module} {u : PUnit}
  {op : Opcode} {line n : Nat} {vs ops : List Int}

private theorem runs_lowerEmit (h : Runs (Lower.emit s op line vs c) l n l') :
    n = l.next ∧ Instruction.Sound ⟨op, vs, line, -1⟩ ∧ l' = Puts.pushed s ⟨op, vs, line, -1⟩ l := by
  obtain ⟨asm, hm, rfl⟩ := Lower.runs_assemble.mp h
  obtain ⟨-, rfl, hs, rfl⟩ := Assemble.runs_emit hm
  exact ⟨rfl, hs, rfl⟩

theorem emits_emit (h : Runs (Lower.emit s op line vs c) l n l') (hp : op.pool = none) :
    n = l.next ∧ Emits s l l' [.plain op line vs] := by
  obtain ⟨rfl, hs, rfl⟩ := runs_lowerEmit h
  have hm : Matches (l.pool.addAll []).constants ⟨op, vs, line, -1⟩ (.plain op line vs) :=
    ⟨rfl, rfl, hs, fun _ => ⟨hp, rfl⟩, by simp [Piece.plain]⟩
  exact ⟨rfl, Emits.one (l := l) (q := .plain op line vs) rfl rfl hm⟩

/-- A constant is used: it stands at a position among the constants. -/
structure Used (v : Constant) (k : Nat) (l l' : Lowering) : Prop where
  state : l' = { l with pool := l.pool.addAll [v] }
  position : l'.pool.constants[k]? = some v

/-- An instruction with a constant that is used for it. -/
theorem emits_emit_const {p k : Nat} {v : Constant} (ops : List Int) (hu : Used v k l l₁)
    (h : Runs (Lower.emit s op line vs c) l₁ n l') (hp : op.pool = some p) (hv : vs = ops.set p k) :
    n = l.next ∧ Emits s l l' [.withConst op line ops (some v)] := by
  obtain ⟨rfl, hs, rfl⟩ := runs_lowerEmit h
  obtain ⟨rfl, hk⟩ := hu
  have hm : Matches (l.pool.addAll [v]).constants ⟨op, vs, line, -1⟩ (.withConst op line ops (some v)) := by
    refine ⟨rfl, rfl, hs, by simp [Piece.withConst], ?_⟩
    intro v' hv'
    obtain rfl : v = v' := by simpa [Piece.withConst] using hv'
    exact ⟨p, k, hp, hk, hv⟩
  exact ⟨rfl, Emits.one (l := l) (q := .withConst op line ops (some v)) rfl rfl hm⟩

theorem operands_emit (h : Runs (Lower.emit s op line vs c) l n l') : (l'.asm.instr n).operands = vs := by
  obtain ⟨rfl, -, rfl⟩ := runs_lowerEmit h
  simp [Puts.pushed, Assembly.instr, Assembly.instrs_update, Lowering.next]

private theorem runs_put (h : Runs (Lower.put s op line vs c) l u l') :
    ∃ n, Runs (Lower.emit s op line vs c) l n l' := by
  obtain ⟨n, l₁, h, h'⟩ := Lower.runs_bind.mp h
  obtain ⟨-, rfl⟩ := Lower.runs_pure.mp h'
  exact ⟨n, h⟩

theorem emits_put (h : Runs (Lower.put s op line vs c) l u l') (hp : op.pool = none) :
    Emits s l l' [.plain op line vs] := by
  obtain ⟨n, h⟩ := runs_put h
  exact (emits_emit h hp).2

theorem emits_put_const {p k : Nat} {v : Constant} (hu : Used v k l l₁) (h : Runs (Lower.put s op line vs c) l₁ u l')
    (hp : op.pool = some p) (hv : vs = ops.set p k) : Emits s l l' [.withConst op line ops (some v)] := by
  obtain ⟨n, h⟩ := runs_put h
  exact (emits_emit_const _ hu h hp hv).2

theorem emits_mark (h : Runs (Lower.mark s line c) l n l') : n = l.next ∧ Emits s l l' [.mark line] :=
  emits_emit h rfl

/-- The position of a constant. -/
theorem used_constant {v : Constant} {i : Int} (h : Runs (Lower.constant v c) l i l') :
    ∃ k : Nat, i = k ∧ Used v k l l' := by
  unfold Lower.constant at h
  rw [Lower.runs_get_bind] at h
  rcases hadd : l.pool.add v with ⟨k, p'⟩
  simp only [hadd, Lower.runs_modify_bind, Lower.runs_pure] at h
  obtain ⟨rfl, rfl⟩ := h
  have hpool : p' = l.pool.addAll [v] := by simp [Pool.addAll, hadd]
  exact ⟨k, rfl, by rw [hpool], (Pool.add_spec hadd).1⟩

/-- The position of the constant of a type. -/
theorem used_typeConstant {t : Option Ty} {i : Int} (h : Runs (Lower.typeConstant t c) l i l') :
    ∃ (k : Nat) (v : Constant), i = k ∧ typeConst? c.1 t = some v ∧ Used v k l l' := by
  cases t with
  | none => exact absurd h Lower.runs_throw
  | some t =>
    simp only [Lower.typeConstant, Lower.runs_store_bind] at h
    obtain ⟨k, hi, hu⟩ := used_constant h
    exact ⟨k, _, hi, rfl, hu⟩

theorem runs_lowerOffset {src dst : Nat} {i : Int} (h : Runs (Lower.offset s src dst i c) l u l') :
    l' = { l with asm := .update s (fun st =>
      { st with requests := (l.asm.stream s).requests.push ⟨src, dst, i⟩ }) l.asm } := by
  obtain ⟨asm, hm, rfl⟩ := Lower.runs_assemble.mp h
  obtain ⟨-, -, rfl⟩ := Assemble.runs_offset hm
  cases s <;> rfl

/-- A request gives an instruction its goal. -/
theorem Puts.aim {src dst : Nat} {i d : Int} (h : Puts s l l₁ (a ++ Piece.plain op line vs :: b))
    (ho : Runs (Lower.offset s src dst i c) l₁ u l₂) (hs : src = l.next + a.length)
    (hd : (dst : Int) = src + d) (hi : i = (Piece.plain op line vs).offsetIndex) :
    Puts s l l₂ (a ++ Piece.leading op line vs (.ahead d) :: b) := by
  have hask : ∀ r, Asked l.next (a ++ Piece.leading op line vs (.ahead d) :: b) r ↔
      Asked l.next (a ++ Piece.plain op line vs :: b) r ∨ r = ⟨src, dst, i⟩ := by
    intro r
    simp only [Asked]
    constructor
    · rintro ⟨k, q, e, hk, hg, h1, h2, h3⟩
      rcases (getElem?_middle (.plain op line vs)).mp hk with ⟨rfl, rfl⟩ | ⟨hne, hk⟩
      · right
        obtain rfl : d = e := by simpa [Piece.leading] using hg
        cases r
        simp only at h1 h2 h3
        simp only [OffsetRequest.mk.injEq]
        exact ⟨by omega, by omega, by rw [hi, h3]; rfl⟩
      · exact .inl ⟨k, q, e, hk, hg, h1, h2, h3⟩
    · rintro (⟨k, q, e, hk, hg, h1, h2, h3⟩ | rfl)
      · rcases (getElem?_middle (.leading op line vs (.ahead d))).mp hk with ⟨rfl, rfl⟩ | ⟨hne, hk⟩
        · simp [Piece.plain] at hg
        · exact ⟨k, q, e, hk, hg, h1, h2, h3⟩
      · exact ⟨a.length, .leading op line vs (.ahead d), d, by simp, rfl, hs, by simp only; omega, hi⟩
  rw [runs_lowerOffset ho]
  refine h.relabel _ (by simp [Puts.bare, Piece.leading, Piece.plain]) ?_ ?_
  · intro q hq
    rcases List.mem_append.mp hq with hq | hq
    · exact h.waits q (by simp [hq])
    · rcases List.mem_cons.mp hq with rfl | hq
      · simp [Piece.Waits, Piece.leading]
      · exact h.waits q (by simp [hq])
  intro r
  rw [Array.mem_push, h.requests, hask, or_assoc]

theorem pending_aim {g : Goal} {k : Nat} {d : Int} (hg : g = .exit ∨ g = .next) :
    Pending g n (a ++ Piece.leading op line vs (.ahead d) :: b) k ↔
      Pending g n (a ++ Piece.plain op line vs :: b) k := by
  simp only [Pending]
  constructor
  · rintro ⟨j, q, hj, hq, hk⟩
    rcases (getElem?_middle (.plain op line vs)).mp hj with ⟨rfl, rfl⟩ | ⟨hne, hj⟩
    · rcases hg with rfl | rfl <;> simp [Piece.leading] at hq
    · exact ⟨j, q, hj, hq, hk⟩
  · rintro ⟨j, q, hj, hq, hk⟩
    rcases (getElem?_middle (.leading op line vs (.ahead d))).mp hj with ⟨rfl, rfl⟩ | ⟨hne, hj⟩
    · simp [Piece.plain] at hq
    · exact ⟨j, q, hj, hq, hk⟩

theorem Emits.aim {src dst : Nat} {i d : Int} (h : Emits s l l₁ (a ++ Piece.plain op line vs :: b))
    (ho : Runs (Lower.offset s src dst i c) l₁ u l₂) (hs : src = l.next + a.length)
    (hd : (dst : Int) = src + d) (hi : i = (Piece.plain op line vs).offsetIndex) :
    Emits s l l₂ (a ++ Piece.leading op line vs (.ahead d) :: b) := by
  refine ⟨h.toPuts.aim ho hs hd hi, ?_⟩
  have hl : l₂.loops = l₁.loops := by rw [runs_lowerOffset ho]
  rw [hl]
  exact h.loops.congr fun g k hg => pending_aim hg

/-- A header that is not needed becomes a mark. -/
theorem Emits.elide (h : Emits s l l₁ (.plain op line vs :: b))
    (hr : Runs (Lower.assemble (Assemble.replace l.next .mark []) c) l₁ u l₂) (hop : op = .block) :
    Emits s l l₂ (.mark line :: b) := by
  subst hop
  obtain ⟨asm, hm, rfl⟩ := Lower.runs_assemble.mp hr
  have := Assemble.runs_replace_mark hm
  subst this
  have hget : ∀ {i : Nat} {q : Piece}, (Piece.mark line :: b)[i + 1]? = some q →
      (Piece.plain .block line vs :: b)[i + 1]? = some q := fun h => by simpa using h
  have hplain : ∀ {i : Nat} {q : Piece} {g : Goal}, (Piece.mark line :: b)[i]? = some q →
      q.goal = some g → (Piece.plain .block line vs :: b)[i]? = some q := by
    intro i q g hi hg
    cases i with
    | zero =>
      obtain rfl : Piece.mark line = q := by simpa using hi
      simp [Piece.mark, Piece.plain] at hg
    | succ i => exact hget hi
  have hback : ∀ {i : Nat} {q : Piece} {g : Goal}, (Piece.plain .block line vs :: b)[i]? = some q →
      q.goal = some g → (Piece.mark line :: b)[i]? = some q := by
    intro i q g hi hg
    cases i with
    | zero =>
      obtain rfl : Piece.plain .block line vs = q := by simpa using hi
      simp [Piece.plain] at hg
    | succ i => simpa using hi
  refine ⟨{ size := ?_, old := ?_, new := ?_, order := ?_, requests := ?_, patches := ?_,
            resolved := ?_, other := ?_, used := h.used, entries := h.entries, direct := ?_,
            waits := ?_ }, ?_⟩
  · simpa [Lowering.next] using h.size
  · intro n hn
    have hne : ¬l.next = n := by omega
    simp only [Array.getElem?_modify, hne, if_false]
    exact h.old n hn
  · intro i q hq
    cases i with
    | zero =>
      obtain rfl : Piece.mark line = q := by simpa using hq
      obtain ⟨x, hx, hmatch⟩ := h.new 0 _ rfl
      refine ⟨{ x with op := .mark, operands := [] }, ?_, rfl, hmatch.line, ⟨rfl, by simp⟩, ?_, ?_⟩
      · have hx : l₁.asm.instrs[l.next]? = some x := hx
        simp [Array.getElem?_modify, hx]
      · exact fun _ => ⟨rfl, rfl⟩
      · simp [Piece.mark, Piece.plain]
    | succ i =>
      obtain ⟨x, hx, hmatch⟩ := h.new (i + 1) q (hget hq)
      have hne : ¬l.next = l.next + (i + 1) := by omega
      exact ⟨x, by simpa only [Array.getElem?_modify, hne, if_false] using hx, hmatch⟩
  · simpa using h.order
  · intro r
    have : Asked l.next (.mark line :: b) r ↔ Asked l.next (.plain .block line vs :: b) r := by
      constructor
      · rintro ⟨i, q, d, hi, hg, hrest⟩
        exact ⟨i, q, d, hplain hi hg, hg, hrest⟩
      · rintro ⟨i, q, d, hi, hg, hrest⟩
        exact ⟨i, q, d, hback hi hg, hg, hrest⟩
    rw [this]
    simpa using h.requests r
  · simpa using h.patches
  · simpa using h.resolved
  · intro t ht
    simpa using h.other t ht
  · -- the header names no function
    obtain ⟨ds, hds, hn, hget⟩ := h.direct
    refine ⟨ds, hds, hn.congr ?_ ?_, ?_⟩
    · intro i q f hq hf
      cases i with
      | zero =>
        obtain rfl : Piece.plain .block line vs = q := by simpa using hq
        simp [Piece.plain] at hf
      | succ i => exact ⟨q, by simpa using hq, rfl, hf⟩
    · intro i r f hr hf
      cases i with
      | zero =>
        obtain rfl : Piece.mark line = r := by simpa using hr
        simp [Piece.mark, Piece.plain] at hf
      | succ i => exact ⟨r, by simpa using hr, rfl, hf⟩
    · intro d hd
      obtain ⟨-, ⟨i, q, hq, hi, hop, -⟩, -⟩ := hn.callable d hd
      have hne : ¬l.next = d.get := by
        intro heq
        obtain rfl : i = 0 := by omega
        obtain rfl : Piece.plain .block line vs = q := by simpa using hq
        simp [Piece.plain] at hop
      simpa [Assembly.instr, Array.getElem?_modify, hne] using hget d hd
  · intro q hq
    rcases List.mem_cons.mp hq with rfl | hq
    · simp [Piece.Waits, Piece.mark, Piece.plain]
    · exact h.waits q (by simp [hq])
  · refine h.loops.congr ?_
    intro g k hg
    constructor
    · rintro ⟨i, q, hi, hq, hk⟩
      exact ⟨i, q, hplain hi hq, hq, hk⟩
    · rintro ⟨i, q, hi, hq, hk⟩
      exact ⟨i, q, hback hi hq, hq, hk⟩

private theorem calling_at {code' : List Piece}
    (h : code'.map (Piece.calling none) = code.map (Piece.calling none)) {i : Nat} {q : Piece}
    (hq : code'[i]? = some q) : ∃ r f, code[i]? = some r ∧ q = r.calling f := by
  have := congrArg (·[i]?) h
  simp only [List.getElem?_map, hq, Option.map_some] at this
  cases hr : code[i]? with
  | none => simp [hr] at this
  | some r =>
    simp only [hr, Option.map_some, Option.some.injEq] at this
    refine ⟨r, q.callee, rfl, ?_⟩
    change (q.calling none).calling q.callee = (r.calling none).calling q.callee
    rw [this]

/-- The names of functions in emitted code may change together with the calls that are noted. -/
private theorem Emits.rename_calls {code' : List Piece} {ds : List DirectCall} (h : Emits s l l₁ code)
    (hc : code'.map (Piece.calling none) = code.map (Piece.calling none)) (hn : Noted s l.next code' ds)
    (hget : ∀ d ∈ ds, (l₁.asm.instr d.get).operands = [(d.constant : Int)]) :
    Emits s l { l₁ with direct := l.direct ++ ds } code' := by
  have hconsts : ∀ xs : List Piece, Piece.consts (xs.map (Piece.calling none)) = Piece.consts xs := by
    intro xs
    simp [Piece.consts, List.filterMap_map, Function.comp_def, Piece.calling]
  have hlen : code'.length = code.length := by simpa using congrArg List.length hc
  have hask : ∀ r, Asked l.next code' r ↔ Asked l.next code r := by
    intro r
    constructor
    · rintro ⟨i, q, e, hi, hg, hrest⟩
      obtain ⟨p, f, hp, rfl⟩ := calling_at hc hi
      exact ⟨i, p, e, hp, hg, hrest⟩
    · rintro ⟨i, q, e, hi, hg, hrest⟩
      obtain ⟨p, f, hp, rfl⟩ := calling_at hc.symm hi
      exact ⟨i, p, e, hp, hg, hrest⟩
  refine ⟨{ h.toPuts with
    size := ?_, new := ?_, order := ?_, requests := ?_, used := ?_, direct := ⟨ds, rfl, hn, hget⟩,
    waits := ?_ }, ?_⟩
  · rw [hlen]
    exact h.size
  · intro i q hi
    obtain ⟨p, f, hp, rfl⟩ := calling_at hc hi
    obtain ⟨x, hx, hm⟩ := h.new i p hp
    exact ⟨x, hx, hm.op, hm.line, hm.sound, hm.bare, hm.const⟩
  · rw [hlen]
    exact h.order
  · intro r
    rw [hask]
    exact h.requests r
  · rw [← hconsts, hc, hconsts]
    exact h.used
  · intro q hq hw
    obtain ⟨i, hi⟩ := List.mem_iff_getElem?.mp hq
    obtain ⟨p, f, hp, rfl⟩ := calling_at hc hi
    exact h.waits p (List.mem_of_getElem? hp) hw
  · refine h.loops.congr ?_
    intro g k hg
    constructor
    · rintro ⟨i, q, hi, hq, hk⟩
      obtain ⟨p, f, hp, rfl⟩ := calling_at hc hi
      exact ⟨i, p, hp, hq, hk⟩
    · rintro ⟨i, q, hi, hq, hk⟩
      obtain ⟨p, f, hp, rfl⟩ := calling_at hc.symm hi
      exact ⟨i, p, hp, hq, hk⟩

/-- A call that may become direct is noted, and its two instructions name the function. -/
theorem Emits.note {q r : Piece} {d : DirectCall} (h : Emits s l l₁ (q :: (code ++ [r])))
    (hq : q.op = .getFunc ∧ q.callee = none) (hr : r.op = .callPtr ∧ r.callee = none) (hs : d.part = s)
    (hget : d.get = l.next) (hcall : d.call = l.next + code.length + 1)
    (hconst : (l₁.asm.instr d.get).operands = [(d.constant : Int)]) :
    Emits s l { l₁ with direct := l₁.direct ++ [d] }
      (q.calling (some d.func) :: (code ++ [r.calling (some d.func)])) := by
  obtain ⟨ds, hds, hn, hgets⟩ := h.direct
  have hnoted := (hn.inner hq.2 hr.2).around (q := q.calling (some d.func))
    (r := r.calling (some d.func)) hq.1 hr.1 rfl rfl hs hget hcall
  rw [hds, List.append_assoc]
  refine h.rename_calls (by simp [Piece.calling]) hnoted ?_
  intro e he
  rcases List.mem_append.mp he with he | he
  · exact hgets e he
  · obtain rfl := List.mem_singleton.mp he
    exact hconst

theorem runs_waitLoop {f : Loop → Loop} (h : Runs (Lower.waitLoop f c) l u l') :
    ∃ v rest, l.loops = v :: rest ∧ l' = { l with loops := f v :: rest } := by
  unfold Lower.waitLoop at h
  rw [Lower.runs_get_bind] at h
  rcases hl : l.loops with _ | ⟨v, rest⟩
  · rw [hl] at h
    exact absurd h Lower.runs_throw
  · rw [hl] at h
    exact ⟨v, rest, rfl, Lower.runs_modify.mp h⟩

/-- A jump to an end of the loop around it waits for the loop to be whole. -/
theorem emits_wait {g : Goal} {f : Nat → Loop → Loop} (hop : op = .brk ∨ op = .cont)
    (hg : g = .exit ∨ g = .next)
    (hf : ∀ n v b, (b ∈ (f n v).breaks ↔ b ∈ v.breaks ∨ g = .exit ∧ b = n) ∧
      (b ∈ (f n v).continues ↔ b ∈ v.continues ∨ g = .next ∧ b = n))
    (h : Runs ((do Lower.waitLoop id; let j ← Lower.emit s op line [0]; Lower.waitLoop (f j) : Lower PUnit)
      c) l u l') :
    Emits s l l' [.leading op line [0] g] := by
  obtain ⟨_, l₁, h1, h⟩ := Lower.runs_bind.mp h
  obtain ⟨j, l₂, h2, h3⟩ := Lower.runs_bind.mp h
  obtain ⟨v, rest, hl, rfl⟩ := runs_waitLoop h1
  have hsame : ({ l with loops := id v :: rest } : Lowering) = l := by rw [id, ← hl]
  rw [hsame] at h2
  have hp : op.pool = none ∧ op.offsetOperand? = some 0 := by rcases hop with rfl | rfl <;> exact ⟨rfl, rfl⟩
  obtain ⟨rfl, he⟩ := emits_emit h2 hp.1
  obtain ⟨v', rest', hl', rfl⟩ := runs_waitLoop h3
  obtain ⟨rfl, rfl⟩ : v' = v ∧ rest' = rest := by
    have := (runs_lowerEmit h2).2.2
    rw [this] at hl'
    simpa [Puts.pushed, hl, eq_comm] using hl'
  have hpend : ∀ g' b, Pending g' l.next [.leading op line [0] g] b ↔ g = g' ∧ b = l.next := by
    intro g' b
    constructor
    · rintro ⟨i, q, hi, hq, hb⟩
      cases i with
      | zero =>
        obtain rfl : Piece.leading op line [0] g = q := by simpa using hi
        exact ⟨by simpa [Piece.leading] using hq, hb⟩
      | succ i => simp at hi
    · rintro ⟨rfl, rfl⟩
      exact ⟨0, _, rfl, rfl, rfl⟩
  refine ⟨?_, ?_⟩
  · have hren : Puts s l l₂ [.leading op line [0] g] := by
      refine he.toPuts.rename (by simp [Puts.bare, Piece.leading, Piece.plain]) ?_ ?_
      · simp [Piece.leading, Piece.offsetIndex, hp.2]
      · intro r
        constructor
        · rintro ⟨i, q, d, hi, hq, -⟩
          obtain rfl : Piece.leading op line [0] g = q := by
            have := List.mem_of_getElem? hi
            simpa [eq_comm] using this
          rcases hg with rfl | rfl <;> simp [Piece.leading] at hq
        · rintro ⟨i, q, d, hi, hq, -⟩
          obtain rfl : Piece.plain op line [0] = q := by
            have := List.mem_of_getElem? hi
            simpa [eq_comm] using this
          simp [Piece.plain] at hq
    exact hren.reloop l.loops _
  · rw [hl]
    refine .inside ?_ ?_
    · intro b
      rw [(hf _ _ b).1, hpend]
    · intro b
      rw [(hf _ _ b).2, hpend]

/-- Distances to one instruction are asked for one after the other. -/
theorem runs_offsets {bs : List Nat} {dst : Nat}
    (h : Runs (bs.forM fun b => Lower.offset s b dst 0 c) l u l') :
    l' = { l with asm := .update s (fun st => { st with
      requests := (l.asm.stream s).requests ++ (bs.map fun b => ⟨b, dst, 0⟩).toArray }) l.asm } := by
  induction bs generalizing l with
  | nil =>
    rw [runs_forM_nil.mp h]
    cases s <;> simp [Assembly.update, Assembly.stream]
  | cons b bs ih =>
    obtain ⟨l₁, h1, h2⟩ := runs_forM_cons.mp h
    rw [ih h2, runs_lowerOffset h1]
    cases s <;> simp [Assembly.update, Assembly.stream]

private theorem asked_settleLoop {e k : Nat} {r : OffsetRequest}
    (hw : ∀ q ∈ b, q.Waits → q.offsetIndex = 0) :
    Asked n (settleLoop e k b) r ↔ Asked n b r ∨
      (Pending .exit n b r.src ∧ r.dst = n + e ∧ r.operand = 0) ∨
      (Pending .next n b r.src ∧ r.dst = n + k ∧ r.operand = 0) := by
  constructor
  · rintro ⟨i, q, d, hi, hg, h1, h2, h3⟩
    obtain ⟨p, hp, rfl⟩ := getElem?_settleLoop.mp hi
    by_cases hpw : p.Waits
    · have hz := hw p (List.mem_of_getElem? hp) hpw
      rcases hpw with hx | hx
      · rw [goal_settle_exit hx] at hg h3
        simp only [Option.some.injEq, Goal.ahead.injEq] at hg
        exact .inr (.inl ⟨⟨i, p, hp, hx, h1⟩, by omega, by rw [h3]; exact congrArg Nat.cast hz⟩)
      · rw [goal_settle_next hx] at hg h3
        simp only [Option.some.injEq, Goal.ahead.injEq] at hg
        exact .inr (.inr ⟨⟨i, p, hp, hx, h1⟩, by omega, by rw [h3]; exact congrArg Nat.cast hz⟩)
    · rw [settle_of_not_waits hpw] at hg h3
      exact .inl ⟨i, p, d, hp, hg, h1, h2, h3⟩
  · rintro (⟨i, q, d, hi, hg, h1, h2, h3⟩ | ⟨⟨i, q, hi, hg, h1⟩, h2, h3⟩ | ⟨⟨i, q, hi, hg, h1⟩, h2, h3⟩)
    · refine ⟨i, q.settle e k i, d, getElem?_settleLoop.mpr ⟨q, hi, rfl⟩, ?_⟩
      rw [settle_of_not_waits (by simp [Piece.Waits, hg])]
      exact ⟨hg, h1, h2, h3⟩
    · refine ⟨i, q.settle e k i, (e : Int) - i, getElem?_settleLoop.mpr ⟨q, hi, rfl⟩, ?_⟩
      have hz := hw q (List.mem_of_getElem? hi) (.inl hg)
      rw [goal_settle_exit hg]
      exact ⟨rfl, h1, by omega, by rw [h3]; exact (congrArg Nat.cast hz).symm⟩
    · refine ⟨i, q.settle e k i, (k : Int) - i, getElem?_settleLoop.mpr ⟨q, hi, rfl⟩, ?_⟩
      have hz := hw q (List.mem_of_getElem? hi) (.inr hg)
      rw [goal_settle_next hg]
      exact ⟨rfl, h1, by omega, by rw [h3]; exact (congrArg Nat.cast hz).symm⟩

private theorem bare_settleLoop {e k : Nat} : (settleLoop e k b).map Puts.bare = b.map Puts.bare := by
  apply List.ext_getElem?
  intro i
  simp only [settleLoop, List.getElem?_map, List.getElem?_mapIdx]
  cases b[i]? with
  | none => rfl
  | some q =>
    simp only [Option.map_some, Option.some.injEq, Puts.bare, Piece.settle]
    split <;> rfl

/-- The waiting jumps of a loop get their goals when the loop is left. -/
theorem Emits.leave {exit next e k : Nat} {w : List Loop} (h : Puts s l l₁ (a ++ b))
    (ha : Waiting l.next a l.loops w) (hb : Waiting (l.next + a.length) b (⟨[], []⟩ :: w) l₁.loops)
    (hr : Runs (Lower.leaveLoop s exit next c) l₁ u l₂) (hexit : exit = l.next + a.length + e)
    (hnext : next = l.next + a.length + k) : Emits s l l₂ (a ++ settleLoop e k b) := by
  generalize hv : l₁.loops = loops at hb
  cases hb with
  | @inside _ v _ hbreaks hcontinues =>
    unfold Lower.leaveLoop at hr
    rw [Lower.runs_get_bind, hv] at hr
    simp only [Lower.runs_modify_bind] at hr
    obtain ⟨_, l₃, h1, h2⟩ := Lower.runs_bind.mp hr
    rw [Lower.forM_apply] at h1 h2
    have hl₃ := runs_offsets h1
    have hl₂ := runs_offsets h2
    have hreq : l₂ = { l₁ with
        loops := w
        asm := Assembly.update s (fun st => { st with
          requests := (l₁.asm.stream s).requests ++ (v.breaks.map fun b => ⟨b, exit, 0⟩).toArray ++
            (v.continues.map fun b => ⟨b, next, 0⟩).toArray }) l₁.asm } := by
      rw [hl₂, hl₃]
      cases s <;> simp [Assembly.update, Assembly.stream]
    have hloops : l₂.loops = w := by rw [hreq]
    refine ⟨?_, ?_⟩
    · rw [hreq]
      refine Puts.reloop (Puts.relabel _ h ?_ ?_ ?_) l.loops w
      · simp only [List.map_append, bare_settleLoop]
      · intro q hq
        rcases List.mem_append.mp hq with hq | hq
        · exact h.waits q (by simp [hq])
        · obtain ⟨i, hi⟩ := List.mem_iff_getElem?.mp hq
          obtain ⟨p, -, rfl⟩ := getElem?_settleLoop.mp hi
          exact fun hwait => absurd hwait not_waits_settle
      · intro r
        rw [asked_append, asked_settleLoop fun q hq => h.waits q (by simp [hq])]
        have hbr : r ∈ v.breaks.map (fun b => (⟨b, exit, 0⟩ : OffsetRequest)) ↔
            Pending .exit (l.next + a.length) b r.src ∧ r.dst = l.next + a.length + e ∧ r.operand = 0 := by
          simp only [List.mem_map, hbreaks, List.not_mem_nil, false_or]
          constructor
          · rintro ⟨k, hk, rfl⟩
            exact ⟨hk, hexit, rfl⟩
          · rintro ⟨hk, h2, h3⟩
            exact ⟨r.src, hk, by rw [hexit, ← h2, ← h3]⟩
        have hcr : r ∈ v.continues.map (fun b => (⟨b, next, 0⟩ : OffsetRequest)) ↔
            Pending .next (l.next + a.length) b r.src ∧ r.dst = l.next + a.length + k ∧ r.operand = 0 := by
          simp only [List.mem_map, hcontinues, List.not_mem_nil, false_or]
          constructor
          · rintro ⟨k, hk, rfl⟩
            exact ⟨hk, hnext, rfl⟩
          · rintro ⟨hk, h2, h3⟩
            exact ⟨r.src, hk, by rw [hnext, ← h2, ← h3]⟩
        simp only [Array.mem_append, List.mem_toArray, hbr, hcr, h.requests, asked_append, or_assoc]
    · rw [hloops]
      refine ha.append (.none ?_)
      rintro g j hg ⟨i, q, hi, hq, -⟩
      obtain ⟨p, -, rfl⟩ := getElem?_settleLoop.mp hi
      refine not_waits_settle (q := p) (e := e) (k := k) (i := i) ?_
      rcases hg with rfl | rfl
      · exact .inl hq
      · exact .inr hq

/-- The last instruction of a stream after code was put into it. -/
theorem Puts.back {q : Piece} (h : Puts s l l' code) (hq : code.getLast? = some q) :
    ∃ n, (l'.asm.stream s).order.back? = some n ∧ (l'.asm.instr n).op = q.op := by
  obtain ⟨a, rfl⟩ := List.getLast?_eq_some_iff.mp hq
  refine ⟨l.next + a.length, ?_, ?_⟩
  · rw [← Array.getLast?_toList, h.order, List.length_append, List.length_singleton, List.range'_1_concat]
    simp
  · obtain ⟨x, hx, hm⟩ := h.new a.length q (by simp)
    rw [Assembly.instr, hx]
    exact hm.op

/-- The body of a frame is closed, and nothing in it waits. -/
theorem emits_closed {m : Lower PUnit} (hm : ∀ {l l'}, Runs (m c) l u l' → Emits s l l' code)
    (hprev : ∀ n, (l.asm.stream s).order.back? = some n → (l.asm.instr n).op.isReturn = false)
    (h : Runs (Lower.closed s line m c) l u l') :
    Emits s l l' (closeCode line code) ∧ ∀ q ∈ code, ¬q.Waits := by
  unfold Lower.closed at h
  simp only [Lower.runs_get_bind, Lower.runs_modify_bind] at h
  obtain ⟨_, l₁, h1, h⟩ := Lower.runs_bind.mp h
  have he := hm h1
  have hnone : ∀ g b, g = .exit ∨ g = .next → ¬Pending g l.next code b := by
    have hwait := he.loops
    generalize l₁.loops = loops at hwait
    cases hwait with
    | outside hno => exact hno
  have hwaits : ∀ q ∈ code, ¬q.Waits := by
    intro q hq hw
    obtain ⟨i, hi⟩ := List.mem_iff_getElem?.mp hq
    rcases hw with hw | hw
    · exact hnone _ _ (.inl rfl) ⟨i, q, hi, hw, rfl⟩
    · exact hnone _ _ (.inr rfl) ⟨i, q, hi, hw, rfl⟩
  have halone : code.map Piece.alone = code :=
    (List.map_congr_left fun q hq => alone_of_not_waits (hwaits q hq)).trans (List.map_id' code)
  have hopen : Emits s l { l₁ with loops := l.loops } code :=
    ⟨he.toPuts.reloop l.loops l.loops, .none hnone⟩
  refine ⟨?_, hwaits⟩
  simp only [Lower.runs_modify_bind, Lower.runs_get_bind] at h
  have hreturn : ∀ n, (l₁.asm.stream s).order.back? = some n →
      (l₁.asm.instr n).op.isReturn = code.getLast?.any (·.op.isReturn) := by
    intro n hn
    cases hlast : code.getLast? with
    | some q =>
      obtain ⟨k, hk, hop⟩ := he.toPuts.back hlast
      obtain rfl : k = n := by rw [hn] at hk; exact (Option.some.inj hk).symm
      simp [hop]
    | none =>
      -- the last instruction is the one before the body
      have hnil : code = [] := List.getLast?_eq_none_iff.mp hlast
      subst hnil
      have horder : (l₁.asm.stream s).order = (l.asm.stream s).order := by
        apply Array.toList_inj.mp
        simpa using he.order
      have hinstr : l₁.asm.instr n = l.asm.instr n := by
        by_cases hlt : n < l.next
        · simp only [Assembly.instr]
          rw [he.old n hlt]
        · have hsize : l₁.asm.instrs.size = l.asm.instrs.size := he.size
          have hge : l.asm.instrs.size ≤ n := by simpa [Lowering.next] using hlt
          simp only [Assembly.instr]
          rw [Array.getElem?_eq_none hge, Array.getElem?_eq_none (by omega)]
      rw [hinstr, hprev n (by rw [← horder]; exact hn)]
      rfl
  rw [closeCode, halone]
  cases hn : (l₁.asm.stream s).order.back? with
  | some n =>
    simp only [hn] at h
    by_cases hret : (l₁.asm.instr n).op.isReturn = true
    · rw [if_pos hret] at h
      rw [hreturn n hn] at hret
      obtain ⟨-, rfl⟩ := Lower.runs_pure.mp h
      simpa [hret] using hopen
    · rw [if_neg hret] at h
      rw [hreturn n hn] at hret
      simpa [hret] using hopen.trans (emits_put h rfl)
  | none =>
    simp only [hn] at h
    have hret : code.getLast?.any (·.op.isReturn) = false := by
      cases hlast : code.getLast? with
      | some q =>
        obtain ⟨k, hk, -⟩ := he.toPuts.back hlast
        rw [hn] at hk
        simp at hk
      | none => rfl
    simpa [hret] using hopen.trans (emits_put h rfl)

end Steps

end Weft.Bytecode
