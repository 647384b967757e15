import Weft.Proofs.Bytecode.Lowering
import Weft.Proofs.Bytecode.Nesting

/-!
# The streams of a program

After the declarations of a program are compiled, each of the two streams holds the code of its section,
instruction by instruction, with one request for every goal.
-/

namespace Weft.Bytecode

/-- The numbers of the instructions of a stream in order. -/
def Lowering.order (l : Lowering) (s : Section) : List Nat := (l.asm.stream s).order.toList

/-- The streams hold the code of the two sections. -/
structure Laid (l : Lowering) (code : Section → List Piece) : Prop where
  count : ∀ s, (l.order s).length = (code s).length
  bound : ∀ s, ∀ n ∈ l.order s, n < l.next
  distinct : ∀ {s t} {i j n : Nat}, (l.order s)[i]? = some n → (l.order t)[j]? = some n → s = t ∧ i = j
  pieces : ∀ {s} {i : Nat} {q}, (code s)[i]? = some q →
    ∃ n x, (l.order s)[i]? = some n ∧ l.asm.instrs[n]? = some x ∧ Matches l.pool.constants x q
  requests : ∀ {s r}, r ∈ (l.asm.stream s).requests ↔ ∃ (i j : Nat) (q : Piece) (d : Int),
    (code s)[i]? = some q ∧ q.goal = some (.ahead d) ∧ (j : Int) = i + d ∧
    (l.order s)[i]? = some r.src ∧ (l.order s)[j]? = some r.dst ∧ r.operand = q.offsetIndex
  inside : ∀ {s} {i : Nat} {q d}, (code s)[i]? = some q → q.goal = some (.ahead d) →
    0 ≤ i + d ∧ i + d < (code s).length
  patches : ∀ s, (l.asm.stream s).patches = #[]
  direct : ∀ d ∈ l.direct,
    (∃ (i : Nat) (q : Piece), (code d.part)[i]? = some q ∧ (l.order d.part)[i]? = some d.get ∧
      q.op = .getFunc ∧ q.callee = some d.func) ∧
    ∃ (j : Nat) (r : Piece), (code d.part)[j]? = some r ∧ (l.order d.part)[j]? = some d.call ∧
      r.op = .callPtr ∧ r.callee = some d.func
  calls : (l.direct.map DirectCall.call).Nodup
  gets : (l.direct.map DirectCall.get).Nodup
  held : ∀ d ∈ l.direct, (l.asm.instr d.get).operands = [(d.constant : Int)]
  tallies : l.pool.Tallies fun v => (Piece.consts (code .init)).count v + (Piece.consts (code .code)).count v
  unresolved : ∀ s, (l.asm.stream s).resolved = false
  named : ∀ {s} {i : Nat} {q f}, (code s)[i]? = some q → q.callee = some f → ∃ d ∈ l.direct, d.func = f ∧
    (q.op = .getFunc ∧ (l.order s)[i]? = some d.get ∨ q.op = .callPtr ∧ (l.order s)[i]? = some d.call)

/-- More code in one section. -/
def extend (code : Section → List Piece) (s : Section) (more : List Piece) (t : Section) : List Piece :=
  if t = s then code t ++ more else code t

@[simp]
theorem extend_self (code : Section → List Piece) (s : Section) (more : List Piece) :
    extend code s more s = code s ++ more := if_pos rfl

theorem extend_ne {code : Section → List Piece} {s t : Section} {more : List Piece} (h : t ≠ s) :
    extend code s more t = code t := if_neg h

private theorem getElem?_range' {n k i m : Nat} :
    (List.range' n k)[i]? = some m ↔ i < k ∧ m = n + i := by
  rw [List.getElem?_eq_some_iff]
  constructor
  · rintro ⟨h, rfl⟩
    exact ⟨by simpa using h, by simp⟩
  · rintro ⟨h, rfl⟩
    exact ⟨by simpa using h, by simp⟩

section Puts

variable {s : Section} {l l' : Lowering} {code : Section → List Piece} {more : List Piece}

private theorem order_self (h : Puts s l l' more) :
    l'.order s = l.order s ++ List.range' l.next more.length := h.order

private theorem order_other {t : Section} (h : Puts s l l' more) (ht : t ≠ s) : l'.order t = l.order t := by
  simp only [Lowering.order, h.other t ht]

/-- Where the numbers of a stream stand after code is put into it. -/
private theorem order_cases {t : Section} {i n : Nat} (h : Puts s l l' more) :
    (l'.order t)[i]? = some n ↔ (l.order t)[i]? = some n ∨
      t = s ∧ ∃ k, i = (l.order s).length + k ∧ k < more.length ∧ n = l.next + k := by
  by_cases ht : t = s
  · subst ht
    rw [order_self h, getElem?_append_cases]
    simp only [getElem?_range', true_and]
  · rw [order_other h ht]
    simp [ht]

private theorem code_cases {t : Section} {i : Nat} {q : Piece} :
    (extend code s more t)[i]? = some q ↔ (code t)[i]? = some q ∨
      t = s ∧ ∃ k, i = (code s).length + k ∧ more[k]? = some q := by
  by_cases ht : t = s
  · subst ht
    rw [extend_self, getElem?_append_cases]
    simp
  · rw [extend_ne ht]
    simp [ht]

/-- Code that leads only to itself may be put into a stream. -/
theorem Laid.put (h : Laid l code) (hp : Puts s l l' more)
    (hg : ∀ {i : Nat} {q d}, more[i]? = some q → q.goal = some (.ahead d) →
      0 ≤ i + d ∧ i + d < more.length) : Laid l' (extend code s more) := by
  obtain ⟨ds, hds, hnoted, hheld⟩ := hp.direct
  have hgets : ∀ d ∈ l.direct, d.get < l.next := by
    intro d hd
    obtain ⟨⟨i, q, -, hget, -⟩, -⟩ := h.direct d hd
    exact h.bound _ _ (List.mem_of_getElem? hget)
  refine ⟨?_, ?_, ?_, ?_, ?_, ?_, ?_, ?_, ?_, ?_, ?_, ?_, ?_, ?_⟩
  · intro t
    by_cases ht : t = s
    · subst ht
      rw [order_self hp, extend_self]
      simp [h.count]
    · rw [order_other hp ht, extend_ne ht, h.count]
  · intro t n hn
    obtain ⟨i, hi⟩ := List.mem_iff_getElem?.mp hn
    rw [hp.size]
    rcases (order_cases hp).mp hi with hi | ⟨-, k, -, hk, rfl⟩
    · have := h.bound t n (List.mem_of_getElem? hi)
      omega
    · omega
  · intro t t' i j n hi hj
    rcases (order_cases hp).mp hi with hi | ⟨rfl, k, rfl, hk, rfl⟩
    · have hlt := h.bound t n (List.mem_of_getElem? hi)
      rcases (order_cases hp).mp hj with hj | ⟨rfl, m, rfl, hm, rfl⟩
      · exact h.distinct hi hj
      · omega
    · rcases (order_cases hp).mp hj with hj | ⟨rfl, m, rfl, hm, heq⟩
      · have hlt := h.bound t' _ (List.mem_of_getElem? hj)
        omega
      · exact ⟨rfl, by omega⟩
  · intro t i q hq
    rcases code_cases.mp hq with hq | ⟨rfl, k, rfl, hk⟩
    · obtain ⟨n, x, hn, hx, hm⟩ := h.pieces hq
      have hlt := h.bound t n (List.mem_of_getElem? hn)
      exact ⟨n, x, (order_cases hp).mpr (.inl hn), by rw [hp.old n hlt, hx], hm.mono hp.pool⟩
    · obtain ⟨x, hx, hm⟩ := hp.new k q hk
      have hlt := (List.getElem?_eq_some_iff.mp hk).1
      exact ⟨l.next + k, x, (order_cases hp).mpr (.inr ⟨rfl, k, by rw [h.count], hlt, rfl⟩), hx, hm⟩
  · intro t r
    by_cases ht : t = s
    · subst ht
      rw [hp.requests]
      constructor
      · rintro (hr | ⟨k, q, d, hk, hgoal, hsrc, hdst, hop⟩)
        · obtain ⟨i, j, q, d, hi, hgoal, hj, hsrc, hdst, hop⟩ := h.requests.mp hr
          exact ⟨i, j, q, d, code_cases.mpr (.inl hi), hgoal, hj, (order_cases hp).mpr (.inl hsrc),
            (order_cases hp).mpr (.inl hdst), hop⟩
        · have hin := hg hk hgoal
          have hlt := (List.getElem?_eq_some_iff.mp hk).1
          refine ⟨(code t).length + k, (code t).length + (k + d).toNat, q, d,
            code_cases.mpr (.inr ⟨rfl, k, rfl, hk⟩), hgoal, by omega, ?_, ?_, hop⟩
          · exact (order_cases hp).mpr (.inr ⟨rfl, k, by rw [h.count], hlt, hsrc⟩)
          · exact (order_cases hp).mpr (.inr ⟨rfl, (k + d).toNat, by rw [h.count], by omega, by omega⟩)
      · rintro ⟨i, j, q, d, hi, hgoal, hj, hsrc, hdst, hop⟩
        have hlen := h.count t
        rcases code_cases.mp hi with hi | ⟨-, k, rfl, hk⟩
        · left
          have hin := h.inside hi hgoal
          have hlt := (List.getElem?_eq_some_iff.mp hi).1
          rcases (order_cases hp).mp hsrc with hsrc | ⟨-, m, rfl, -⟩
          · rcases (order_cases hp).mp hdst with hdst | ⟨-, m, rfl, -⟩
            · exact h.requests.mpr ⟨i, j, q, d, hi, hgoal, hj, hsrc, hdst, hop⟩
            · omega
          · omega
        · right
          have hin := hg hk hgoal
          rcases (order_cases hp).mp hsrc with hsrc | ⟨-, m, hm, -, hsrc⟩
          · have := (List.getElem?_eq_some_iff.mp hsrc).1
            omega
          · rcases (order_cases hp).mp hdst with hdst | ⟨-, m', hm', -, hdst⟩
            · have := (List.getElem?_eq_some_iff.mp hdst).1
              omega
            · exact ⟨k, q, d, hk, hgoal, by omega, by omega, hop⟩
    · rw [hp.other t ht, order_other hp ht, extend_ne ht]
      exact h.requests
  · intro t i q d hq hgoal
    rcases code_cases.mp hq with hq | ⟨rfl, k, rfl, hk⟩
    · have := h.inside hq hgoal
      by_cases ht : t = s
      · subst ht
        rw [extend_self, List.length_append]
        omega
      · rw [extend_ne ht]
        omega
    · have := hg hk hgoal
      rw [extend_self, List.length_append]
      omega
  · intro t
    by_cases ht : t = s
    · subst ht
      rw [hp.patches, h.patches]
    · rw [hp.other t ht, h.patches]
  · intro d hd
    rw [hds] at hd
    rcases List.mem_append.mp hd with hd | hd
    · obtain ⟨⟨i, q, hi, hget, hq⟩, j, r, hj, hcall, hr⟩ := h.direct d hd
      exact ⟨⟨i, q, code_cases.mpr (.inl hi), (order_cases hp).mpr (.inl hget), hq⟩,
        j, r, code_cases.mpr (.inl hj), (order_cases hp).mpr (.inl hcall), hr⟩
    · obtain ⟨rfl, ⟨i, q, hi, hget, hq⟩, j, r, hj, hcall, hr⟩ := hnoted.callable d hd
      have hi' := (List.getElem?_eq_some_iff.mp hi).1
      have hj' := (List.getElem?_eq_some_iff.mp hj).1
      exact ⟨⟨_, q, code_cases.mpr (.inr ⟨rfl, i, rfl, hi⟩),
          (order_cases hp).mpr (.inr ⟨rfl, i, by rw [h.count], hi', hget⟩), hq⟩,
        _, r, code_cases.mpr (.inr ⟨rfl, j, rfl, hj⟩),
          (order_cases hp).mpr (.inr ⟨rfl, j, by rw [h.count], hj', hcall⟩), hr⟩
  · rw [hds, List.map_append, List.nodup_append]
    refine ⟨h.calls, ?_, ?_⟩
    · exact (List.pairwise_map.mpr hnoted.ordered).imp Nat.ne_of_lt
    · intro n hn m hm
      obtain ⟨d, hd, rfl⟩ := List.mem_map.mp hn
      obtain ⟨e, he, rfl⟩ := List.mem_map.mp hm
      obtain ⟨-, j, r, -, hcall, -⟩ := h.direct d hd
      have hlt := h.bound _ _ (List.mem_of_getElem? hcall)
      have hle := (hnoted.callable e he).range.1
      omega
  · rw [hds, List.map_append, List.nodup_append]
    refine ⟨h.gets, List.pairwise_map.mpr hnoted.distinct, ?_⟩
    intro n hn m hm
    obtain ⟨d, hd, rfl⟩ := List.mem_map.mp hn
    obtain ⟨e, he, rfl⟩ := List.mem_map.mp hm
    have hlt := hgets d hd
    have hle := (hnoted.callable e he).range_get.1
    omega
  · intro d hd
    rw [hds] at hd
    rcases List.mem_append.mp hd with hd | hd
    · rw [Assembly.instr, hp.old _ (hgets d hd)]
      exact h.held d hd
    · exact hheld d hd
  · have htallies := h.tallies.addAll (Piece.consts more)
    rw [← hp.used] at htallies
    convert htallies using 2
    cases s
    · rw [extend_self, extend_ne (by decide), Piece.consts_append, List.count_append]
      omega
    · rw [extend_self, extend_ne (by decide), Piece.consts_append, List.count_append]
      omega
  · intro t
    by_cases ht : t = s
    · subst ht
      rw [hp.resolved, h.unresolved]
    · rw [hp.other t ht, h.unresolved]
  · intro t i q f hq hf
    rcases code_cases.mp hq with hq | ⟨rfl, k, rfl, hk⟩
    · obtain ⟨d, hd, hfunc, hplace⟩ := h.named hq hf
      refine ⟨d, by simp [hds, hd], hfunc, ?_⟩
      rcases hplace with ⟨hop, hn⟩ | ⟨hop, hn⟩
      · exact .inl ⟨hop, (order_cases hp).mpr (.inl hn)⟩
      · exact .inr ⟨hop, (order_cases hp).mpr (.inl hn)⟩
    · obtain ⟨d, hd, hfunc, hplace⟩ := hnoted.named k q f hk hf
      have hlt := (List.getElem?_eq_some_iff.mp hk).1
      have hat : ∀ {n : Nat}, n = l.next + k → (l'.order t)[(code t).length + k]? = some n := by
        rintro n rfl
        exact (order_cases hp).mpr (.inr ⟨rfl, k, by rw [h.count], hlt, rfl⟩)
      refine ⟨d, by simp [hds, hd], hfunc, ?_⟩
      rcases hplace with ⟨hop, hn⟩ | ⟨hop, hn⟩
      · exact .inl ⟨hop, hat hn⟩
      · exact .inr ⟨hop, hat hn⟩

end Puts

/-! ### Programs -/

/-- The code of some functions and some declarations. -/
def partCode (c : Store × Module) (fs : List Typed.FuncDecl) (ds : List Typed.Decl) : Section → List Piece
  | .code => fs.flatMap (funcCode c)
  | .init => ds.flatMap (initCode c)

/-- Where the code of functions one after the other starts. -/
def entryPlaces (c : Store × Module) (start : Nat) : List Typed.FuncDecl → List (FuncId × Nat)
  | [] => []
  | d :: ds => (d.symbol, start) :: entryPlaces c (start + (funcCode c d).length) ds

theorem entryPlaces_append (c : Store × Module) (start : Nat) (fs gs : List Typed.FuncDecl) :
    entryPlaces c start (fs ++ gs) =
      entryPlaces c start fs ++ entryPlaces c (start + (fs.flatMap (funcCode c)).length) gs := by
  induction fs generalizing start with
  | nil => rfl
  | cons f fs ih => simp [entryPlaces, ih, Nat.add_assoc]

theorem map_fst_entryPlaces (c : Store × Module) (start : Nat) (fs : List Typed.FuncDecl) :
    (entryPlaces c start fs).map Prod.fst = fs.map Typed.FuncDecl.symbol := by
  induction fs generalizing start with
  | nil => rfl
  | cons f fs ih => simp [entryPlaces, ih]

/-- A function that has a body in which nothing waits for the end of a loop around the function. -/
def Compilable (c : Store × Module) (d : Typed.FuncDecl) : Prop :=
  ∃ f, d.frame = some f ∧ Idle (stmtsCode c false f.body)

theorem funcCode_ne_nil {c : Store × Module} {d : Typed.FuncDecl} (h : Compilable c d) :
    0 < (funcCode c d).length := by
  obtain ⟨f, hf, -⟩ := h
  simp [funcCode, hf, frameCode]

/-- The state after some functions and some declarations are compiled. -/
structure Progress (c : Store × Module) (l : Lowering) (fs : List Typed.FuncDecl)
    (ds : List Typed.Decl) : Prop where
  laid : Laid l (partCode c fs ds)
  entries : l.entries.map (fun e => (e.1, some e.2)) =
    (entryPlaces c 0 fs).map fun e => (e.1, (l.order .code)[e.2]?)
  bodies : ∀ f ∈ fs, Compilable c f

theorem nested_frameCode {c : Store × Module} {line : Nat} {method : Bool} {f : Typed.Frame} :
    Nested (frameCode c line method f) := by
  unfold frameCode
  have hthis : Nested (if method then [Piece.plain .argVar line [0]] else []) := by
    cases method with
    | true => exact .plain (by decide)
    | false => exact .nil
  exact (Nested.plain (by decide)).append
    (((nested_params f.params).append hthis).append (nested_closeCode (nested_stmts f.body) _))

theorem nested_funcCode {c : Store × Module} {d : Typed.FuncDecl} : Nested (funcCode c d) := by
  unfold funcCode
  split
  · exact .nil
  · exact nested_frameCode

private theorem Puts.reenter {s : Section} {l l' : Lowering} {code : List Piece}
    {e : List (FuncId × Nat)} (h : Puts s { l with entries := e } l' code) :
    Puts s l { l' with entries := l.entries } code :=
  ⟨h.size, h.old, h.new, h.order, h.requests, h.patches, h.resolved, h.other, h.used, rfl, h.direct, h.waits⟩

/-- A function puts its code into the stream of the functions, and its entry is the first instruction. -/
private theorem runs_func {c : Store × Module} {d : Typed.FuncDecl} {l l' : Lowering} {u : PUnit}
    (h : Runs (Lower.func d c) l u l') :
    Puts .code l { l' with entries := l.entries } (funcCode c d) ∧
      l'.entries = l.entries ++ [(d.symbol, l.next)] ∧ Compilable c d := by
  unfold Lower.func at h
  rw [Lower.runs_store_bind] at h
  cases hf : d.frame with
  | none =>
    simp only [hf] at h
    exact absurd h Lower.runs_throw
  | some f =>
    simp only [hf] at h
    obtain ⟨entry, l₁, h1, h⟩ := Lower.runs_bind.mp h
    obtain ⟨rfl, he1⟩ := emits_emit h1 rfl
    rw [Lower.runs_modify_bind] at h
    obtain ⟨_, l₂, h2, h⟩ := Lower.runs_bind.mp h
    have he2 := emits_params f.params h2
    have hbody : ∀ {rest : List Piece} {l₃ : Lowering}, Emits .code l₂ l₃ rest →
        (∀ q ∈ rest, q.op.isReturn = false) →
        Runs (Lower.closed .code (Lower.lastLine f) (Lower.stmts .code false f.body) c) l₃ u l' →
        (rest = if (c.1.func d.symbol).owner.isSome then [.plain .argVar d.line [0]] else []) →
        Puts .code l { l' with entries := l.entries } (funcCode c d) ∧
          l'.entries = l.entries ++ [(d.symbol, l.next)] ∧ Compilable c d := by
      intro rest l₃ hrest hret hclosed hcode
      have hpre := he1.toPuts.trans (he2.trans hrest).toPuts.reenter
      have hprev : ∀ n, (l₃.asm.stream .code).order.back? = some n →
          (l₃.asm.instr n).op.isReturn = false := by
        intro n hn
        rw [List.singleton_append] at hpre
        exact not_return_before f.params hret hpre n hn
      obtain ⟨hclose, hidle⟩ := emits_closed (fun h => emits_stmts f.body h) hprev hclosed
      have hall := he1.toPuts.trans ((he2.trans hrest).trans hclose).toPuts.reenter
      refine ⟨?_, ?_, f, hf, hidle⟩
      · simp only [funcCode, hf, frameCode, ← hcode]
        simpa [he1.entries] using hall
      · rw [hclose.entries, hrest.entries, he2.entries, he1.entries]
    by_cases ho : (c.1.func d.symbol).owner.isSome = true
    · rw [if_pos ho] at h
      obtain ⟨_, l₃, h3, h4⟩ := Lower.runs_bind.mp h
      exact hbody (emits_put h3 rfl) (by simp [Piece.plain, Opcode.isReturn]) h4 (if_pos ho).symm
    · rw [if_neg ho] at h
      exact hbody (.refl .code l₂) (by simp) h (if_neg ho).symm

/-- One more function. -/
theorem Progress.func {c : Store × Module} {l l' : Lowering} {fs : List Typed.FuncDecl}
    {ds : List Typed.Decl} {d : Typed.FuncDecl} {u : PUnit} (h : Progress c l fs ds)
    (hr : Runs (Lower.func d c) l u l') : Progress c l' (fs ++ [d]) ds := by
  obtain ⟨hp, hentries, hc⟩ := runs_func hr
  have hcode : extend (partCode c fs ds) .code (funcCode c d) = partCode c (fs ++ [d]) ds := by
    funext t
    cases t <;> simp [extend, partCode]
  have hlaid := h.laid.put hp nested_funcCode.goals
  have hpos := funcCode_ne_nil hc
  have hlen : (l.order .code).length = (fs.flatMap (funcCode c)).length := h.laid.count .code
  have horder : l'.order .code = l.order .code ++ List.range' l.next (funcCode c d).length := hp.order
  refine ⟨?_, ?_, ?_⟩
  · rw [← hcode]
    exact ⟨hlaid.count, hlaid.bound, hlaid.distinct, hlaid.pieces, hlaid.requests, hlaid.inside,
      hlaid.patches, hlaid.direct, hlaid.calls, hlaid.gets, hlaid.held, hlaid.tallies, hlaid.unresolved,
      hlaid.named⟩
  · rw [hentries, List.map_append, h.entries, entryPlaces_append, List.map_append]
    congr 1
    · apply List.map_congr_left
      intro e he
      -- the place of an entry is known, and stays
      have hmem : (e.1, (l.order .code)[e.2]?) ∈ l.entries.map fun e => (e.1, some e.2) := by
        rw [h.entries]
        exact List.mem_map.mpr ⟨e, he, rfl⟩
      obtain ⟨e', -, heq⟩ := List.mem_map.mp hmem
      have hn := (Prod.mk.inj heq).2.symm
      rw [horder, List.getElem?_append_left (List.getElem?_eq_some_iff.mp hn).1]
    · have hat : (l'.order .code)[(fs.flatMap (funcCode c)).length]? = some l.next := by
        rw [horder, ← hlen, List.getElem?_append_right (Nat.le_refl _), Nat.sub_self]
        exact getElem?_range'.mpr ⟨hpos, rfl⟩
      simp only [entryPlaces, List.map_cons, List.map_nil, Nat.zero_add, hat]
  · intro f hf
    rcases List.mem_append.mp hf with hf | hf
    · exact h.bodies f hf
    · rw [List.mem_singleton.mp hf]
      exact hc

section Programs

variable {c : Store × Module} {l l' : Lowering} {fs : List Typed.FuncDecl} {ds : List Typed.Decl} {u : PUnit}

theorem Progress.funcs {ms : List Typed.FuncDecl} (h : Progress c l fs ds)
    (hr : Runs (ms.forM (fun d => Lower.func d c)) l u l') : Progress c l' (fs ++ ms) ds := by
  induction ms generalizing l fs with
  | nil =>
    rw [runs_forM_nil.mp hr, List.append_nil]
    exact h
  | cons d ms ih =>
    obtain ⟨l₁, h1, h2⟩ := runs_forM_cons.mp hr
    simpa using ih (h.func h1) h2

/-- More code for the initialisation. -/
private theorem Progress.init {more : List Piece} {d : Typed.Decl} (h : Progress c l fs ds)
    (he : Emits .init l l' more) (hn : Nested more) (hd : initCode c d = more) :
    Progress c l' fs (ds ++ [d]) := by
  have hcode : extend (partCode c fs ds) .init more = partCode c fs (ds ++ [d]) := by
    funext t
    cases t <;> simp [extend, partCode, hd]
  have horder : l'.order .code = l.order .code := by
    simp only [Lowering.order, he.other .code (by decide)]
  refine ⟨hcode ▸ h.laid.put he.toPuts hn.goals, ?_, h.bodies⟩
  rw [he.entries, h.entries, horder]

theorem nested_initCode (d : Typed.Decl) : Nested (initCode c d) := by
  unfold initCode
  split
  · exact .withConst (by decide)
  · exact .nil
  · exact .nil
  · exact .nil
  · exact (nested_expr _).append (.plain (by decide))

theorem Progress.decl {d : Typed.Decl} (h : Progress c l fs ds) (hr : Runs (Lower.decl d c) l u l') :
    Progress c l' (fs ++ d.funcs) (ds ++ [d]) := by
  cases d with
  | importing line name =>
    simp only [Lower.decl] at hr
    obtain ⟨_, _, h1, h2⟩ := Lower.runs_bind.mp hr
    obtain ⟨k, rfl, hu⟩ := used_constant h1
    simpa [Typed.Decl.funcs] using h.init (emits_put_const hu h2 rfl rfl)
      (nested_initCode (c := c) (.importing line name)) rfl
  | func d =>
    simp only [Lower.decl] at hr
    exact (h.func hr).init (.refl .init l') .nil rfl
  | cls line k methods =>
    simp only [Lower.decl, Lower.forM_apply] at hr
    exact (h.funcs hr).init (.refl .init l') .nil rfl
  | global line g init =>
    cases init with
    | none =>
      obtain ⟨-, rfl⟩ := Lower.runs_pure.mp hr
      simpa [Typed.Decl.funcs] using h.init (.refl .init l') .nil (d := .global line g none) rfl
    | some x =>
      simp only [Lower.decl] at hr
      obtain ⟨_, _, h1, h2⟩ := Lower.runs_bind.mp hr
      rw [Lower.runs_store_bind] at h2
      simpa [Typed.Decl.funcs] using h.init ((emits_expr x h1).trans (emits_put h2 rfl))
        (nested_initCode (c := c) (.global line g (some x))) rfl

theorem Progress.decls {es : List Typed.Decl} (h : Progress c l fs ds)
    (hr : Runs (es.forM (fun d => Lower.decl d c)) l u l') :
    Progress c l' (fs ++ es.flatMap Typed.Decl.funcs) (ds ++ es) := by
  induction es generalizing l fs ds with
  | nil =>
    rw [runs_forM_nil.mp hr]
    simpa using h
  | cons d es ih =>
    obtain ⟨l₁, h1, h2⟩ := runs_forM_cons.mp hr
    simpa using ih (h.decl h1) h2

/-- The state in which the compiler starts. -/
def Lowering.start : Lowering := ⟨.empty, .empty, [], [], []⟩

theorem progress_start : Progress c .start [] [] := by
  have hempty : ∀ s, (Lowering.start.asm.stream s) = .empty := by
    intro s
    cases s <;> rfl
  have hcode : ∀ s, partCode c [] [] s = [] := by
    intro s
    cases s <;> rfl
  refine ⟨⟨?_, ?_, ?_, ?_, ?_, ?_, ?_, ?_, ?_, ?_, ?_, ?_, ?_, ?_⟩, rfl, by simp⟩
  · simp [Lowering.order, hempty, hcode, Stream.empty]
  · simp [Lowering.order, hempty, Stream.empty]
  · simp [Lowering.order, hempty, Stream.empty]
  · simp [hcode]
  · simp [hempty, Stream.empty, hcode]
  · simp [hcode]
  · simp [hempty, Stream.empty]
  · simp [Lowering.start]
  · simp [Lowering.start]
  · simp [Lowering.start]
  · simp [Lowering.start]
  · simpa [hcode, Piece.consts, Lowering.start] using Pool.Tallies.empty
  · simp [hempty, Stream.empty]
  · simp [hcode]

/-- A program that compiles fills the two streams with its code. -/
theorem runs_program {p : Typed.Program} (h : Runs (Lower.program p c) .start u l') :
    Laid l' (programCode c p) ∧
      (l'.entries.map fun e => (e.1, some e.2)) =
        ((entryPlaces c 0 p.funcs).map fun e => (e.1, (l'.order .code)[e.2]?)) ∧
      ∀ f ∈ p.funcs, Compilable c f := by
  obtain ⟨_, l₁, h1, h2⟩ := Lower.runs_bind.mp h
  rw [Lower.forM_apply] at h1
  have hp := progress_start.decls h1
  have he := emits_put h2 rfl
  have horder : l'.order .code = l₁.order .code := by
    simp only [Lowering.order, he.other .code (by decide)]
  refine ⟨?_, ?_, ?_⟩
  · have hlaid := hp.laid.put he.toPuts (Nested.plain (by decide)).goals
    have hcode : extend (partCode c ([] ++ p.decls.flatMap Typed.Decl.funcs) ([] ++ p.decls)) .init
        [.plain .ret ((p.decls.getLast?.map Typed.Decl.line).getD 0) []] = programCode c p := by
      funext t
      cases t <;> simp [extend, partCode, programCode, Typed.Program.funcs]
    rwa [hcode] at hlaid
  · rw [he.entries, hp.entries, horder]
    rfl
  · exact hp.bodies

end Programs

end Weft.Bytecode
