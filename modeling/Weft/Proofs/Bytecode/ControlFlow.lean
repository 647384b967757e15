import Weft.Proofs.Bytecode.Geometry

/-!
# Control flow of compiled modules

Control stays in its frame: from an instruction it goes to instructions of the same function that are in
the bodies of the same lambdas, whether it falls through or jumps. Every frame ends in a return.
-/

namespace Weft.Bytecode

/-! ## Well-formed control flow -/

/-- Whether an instruction makes a lambda whose body holds a position. -/
def Decoded.Encloses (d : Decoded) (p : Nat) : Prop :=
  d.op = .lambda ∧ d.next ≤ p ∧ ∃ t, d.target? = some t ∧ p < t

/-- Whether two positions are in the same of the functions with some starts, and in the bodies of the same
lambdas. -/
def SameFrame (starts : List Int) (ds : List Decoded) (p q : Nat) : Prop :=
  (∀ s ∈ starts, s ≤ p ↔ s ≤ q) ∧ ∀ d ∈ ds, d.Encloses p ↔ d.Encloses q

/-- Code of functions with some starts in which control stays in its frame. -/
structure WellFormedFlow (starts : List Int) (code : Bytes) : Prop where
  decodes : (decode code).2 = none
  covers : ∀ d ∈ (decode code).1, ∃ s ∈ starts, s ≤ d.pos
  targets : ∀ d ∈ (decode code).1, ∀ t, d.target? = some t →
    ∃ e ∈ (decode code).1, e.pos = t ∧ SameFrame starts (decode code).1 d.pos e.pos
  falls : ∀ d ∈ (decode code).1, d.op.continues →
    ∃ e ∈ (decode code).1, e.pos = d.next ∧ SameFrame starts (decode code).1 d.pos e.pos
  closes : ∀ s ∈ starts, ∃ d ∈ (decode code).1, d.pos = s ∧ ∃ e ∈ (decode code).1, e.op.isReturn ∧
    SameFrame starts (decode code).1 d.pos e.pos ∧ (e.next = code.length ∨ (e.next : Int) ∈ starts)
  lambdas : ∀ d ∈ (decode code).1, d.op = .lambda → ∃ e ∈ (decode code).1, e.op.isReturn ∧
    d.target? = some (e.next : Int) ∧ (∀ s ∈ starts, s ≤ d.pos ↔ s ≤ e.pos) ∧
    ∀ d' ∈ (decode code).1, d'.Encloses e.pos ↔ d' = d ∨ d'.Encloses d.pos

/-! ## Frames of pieces -/

/-- Whether two places are in the same of the functions with some starts, and in the bodies of the same
lambdas. -/
def Together (starts : List Nat) (code : List Piece) (i k : Int) : Prop :=
  (∀ s ∈ starts, (s : Int) ≤ i ↔ (s : Int) ≤ k) ∧ ∀ j e, Encloses code j e → (Within j e i ↔ Within j e k)

theorem Together.trans {starts : List Nat} {code : List Piece} {i k m : Int} (h : Together starts code i k)
    (h' : Together starts code k m) : Together starts code i m :=
  ⟨fun s hs => (h.1 s hs).trans (h'.1 s hs), fun j e he => (h.2 j e he).trans (h'.2 j e he)⟩

theorem Together.symm {starts : List Nat} {code : List Piece} {i k : Int} (h : Together starts code i k) :
    Together starts code k i :=
  ⟨fun s hs => (h.1 s hs).symm, fun j e he => (h.2 j e he).symm⟩

/-- Code of functions with some starts, each of which control enters and leaves at its ends only. -/
structure Framed (starts : List Nat) (code : List Piece) : Prop where
  nested : Nested code
  idle : Idle code
  directed : Directed code
  inside : ∀ s ∈ starts, s < code.length
  covers : code ≠ [] → 0 ∈ starts
  jumps : ∀ {i : Nat} {q d}, code[i]? = some q → q.goal = some (.ahead d) →
    ∀ s ∈ starts, (s : Int) ≤ i ↔ (s : Int) ≤ i + d
  falls : ∀ {i : Nat} {q}, code[i]? = some q → q.op.continues →
    i + 1 < code.length ∧ i + 1 ∉ starts
  seams : ∀ s ∈ starts, Seam code s
  closes : ∀ s ∈ starts, ∃ (e : Nat) (r : Piece), code[e]? = some r ∧ r.op.isReturn ∧
    (∀ s' ∈ starts, s' ≤ s ↔ s' ≤ e) ∧ Seam code e ∧ (e + 1 = code.length ∨ e + 1 ∈ starts)

theorem Framed.nil : Framed [] [] := by
  refine ⟨.nil, .nil, .nil, ?_, ?_, ?_, ?_, ?_, ?_⟩ <;> simp

private theorem not_continues {op : Opcode} (h : op.isReturn) : op.continues = false := by
  revert h
  cases op <;> simp [Opcode.isReturn, Opcode.continues]

/-- One function. -/
theorem Framed.one {x : List Piece} {r : Piece} (hn : Nested (x ++ [r])) (hi : Idle (x ++ [r]))
    (hd : Directed (x ++ [r])) (hr : r.op.isReturn) : Framed [0] (x ++ [r]) := by
  have hzero : Seam (x ++ [r]) 0 := by
    intro j e _ hw
    have := hw.1
    omega
  refine ⟨hn, hi, hd, by simp, by simp, ?_, ?_, by simpa using hzero, ?_⟩
  · intro i q d hq hg s hs
    have := hn.goals hq hg
    simp only [List.mem_singleton] at hs
    omega
  · intro i q hq hc
    have hne : i ≠ x.length := by
      rintro rfl
      obtain rfl : r = q := by simpa using hq
      simp [not_continues hr] at hc
    have hlt := (List.getElem?_eq_some_iff.mp hq).1
    simp only [List.length_append, List.length_singleton, List.mem_singleton] at hlt ⊢
    omega
  · intro s hs
    obtain rfl : s = 0 := by simpa using hs
    exact ⟨x.length, r, by simp, hr, by simp, hn.seam_last rfl, .inl (by simp)⟩

private theorem seam_shift {a b : List Piece} {k : Nat} (ha : Nested a) (hb : Seam b k) :
    Seam (a ++ b) (a.length + k) := by
  intro j e he hw
  rcases encloses_append.mp he with he₁ | ⟨m, rfl, he₂⟩
  · have := ha.ends he₁
    have := hw.2
    omega
  · refine hb m e he₂ ?_
    simp only [Within] at hw ⊢
    omega

/-- More functions after some. -/
theorem Framed.append {ss ts : List Nat} {a b : List Piece} (ha : Framed ss a) (hb : Framed ts b) :
    Framed (ss ++ ts.map (a.length + ·)) (a ++ b) := by
  have hmem : ∀ {s : Nat}, s ∈ ss ++ ts.map (a.length + ·) ↔ s ∈ ss ∨ ∃ t ∈ ts, s = a.length + t := by
    simp [eq_comm]
  refine ⟨ha.nested.append hb.nested, ha.idle.append hb.idle, ha.directed.append hb.directed,
    ?_, ?_, ?_, ?_, ?_, ?_⟩
  · intro s hs
    rw [List.length_append]
    rcases hmem.mp hs with hs | ⟨t, ht, rfl⟩
    · have := ha.inside s hs
      omega
    · have := hb.inside t ht
      omega
  · intro hne
    rw [hmem]
    by_cases hnil : a = []
    · subst hnil
      exact .inr ⟨0, hb.covers (by simpa using hne), rfl⟩
    · exact .inl (ha.covers hnil)
  · intro i q d hq hg s hs
    rcases getElem?_append_cases.mp hq with hi | ⟨k, rfl, hk⟩
    · have hgoal := ha.nested.goals hi hg
      have hlt := (List.getElem?_eq_some_iff.mp hi).1
      rcases hmem.mp hs with hs | ⟨t, ht, rfl⟩
      · exact ha.jumps hi hg s hs
      · omega
    · have hgoal := hb.nested.goals hk hg
      rcases hmem.mp hs with hs | ⟨t, ht, rfl⟩
      · have := ha.inside s hs
        omega
      · have := hb.jumps hk hg t ht
        omega
  · intro i q hq hc
    rw [List.length_append, hmem]
    rcases getElem?_append_cases.mp hq with hi | ⟨k, rfl, hk⟩
    · obtain ⟨hlt, hno⟩ := ha.falls hi hc
      refine ⟨by omega, ?_⟩
      rintro (hs | ⟨t, ht, heq⟩)
      · exact hno hs
      · omega
    · obtain ⟨hlt, hno⟩ := hb.falls hk hc
      refine ⟨by omega, ?_⟩
      rintro (hs | ⟨t, ht, heq⟩)
      · have := ha.inside _ hs
        omega
      · obtain rfl : t = k + 1 := by omega
        exact hno ht
  · intro s hs
    rcases hmem.mp hs with hs | ⟨t, ht, rfl⟩
    · exact (ha.seams s hs).append (Nat.le_of_lt (ha.inside s hs)) b
    · exact seam_shift ha.nested (hb.seams t ht)
  · intro s hs
    rcases hmem.mp hs with hs | ⟨t, ht, rfl⟩
    · obtain ⟨e, r, hr, hret, hsame, hseam, hend⟩ := ha.closes s hs
      have hlt := (List.getElem?_eq_some_iff.mp hr).1
      have hin := ha.inside s hs
      refine ⟨e, r, getElem?_append_cases.mpr (.inl hr), hret, ?_, hseam.append (Nat.le_of_lt hlt) b, ?_⟩
      · intro s' hs'
        rcases hmem.mp hs' with hs' | ⟨t, ht, rfl⟩
        · exact hsame s' hs'
        · omega
      · rw [hmem, List.length_append]
        rcases hend with hend | hend
        · -- the next function starts where the last one ends
          by_cases hnil : b = []
          · simp [hnil, hend]
          · exact .inr (.inr ⟨0, hb.covers hnil, by omega⟩)
        · exact .inr (.inl hend)
    · obtain ⟨e, r, hr, hret, hsame, hseam, hend⟩ := hb.closes t ht
      refine ⟨a.length + e, r, getElem?_append_cases.mpr (.inr ⟨e, rfl, hr⟩), hret, ?_,
        seam_shift ha.nested hseam, ?_⟩
      · intro s' hs'
        rcases hmem.mp hs' with hs' | ⟨t', ht', rfl⟩
        · have := ha.inside s' hs'
          omega
        · have := hsame t' ht'
          omega
      · rw [hmem, List.length_append]
        rcases hend with hend | hend
        · exact .inl (by omega)
        · exact .inr (.inr ⟨e + 1, hend, by omega⟩)

/-! ## Frames of programs -/

section Programs

variable {c : Store × Module}

theorem framed_funcCode {d : Typed.FuncDecl} (h : Compilable c d) : Framed [0] (funcCode c d) := by
  obtain ⟨f, hf, -⟩ := h
  have hthis : ∀ q ∈ (if (c.1.func d.symbol).owner.isSome then [Piece.plain .argVar d.line [0]] else []),
      q.Simple := by
    intro q hq
    split at hq
    · rw [List.mem_singleton.mp hq]
      exact simple_plain (by decide)
    · simp at hq
  obtain ⟨x, r, hclose, hret⟩ := closeCode_last (stmtsCode c false f.body) (Lower.lastLine f)
  have hidle : Idle (funcCode c d) := by
    simp only [funcCode, hf, frameCode]
    exact .cons not_waits_plain (((idle_params f.params).append (.ofSimple hthis)).append (idle_closeCode _ _))
  have hdir : Directed (funcCode c d) := by
    simp only [funcCode, hf, frameCode]
    exact .cons (aimed_plain rfl) (((directed_params f.params).append fun q hq => (hthis q hq).aimed).append
      (directed_closeCode (directed_stmts f.body)))
  obtain ⟨y, hy⟩ : ∃ y, funcCode c d = y ++ [r] := by
    simp only [funcCode, hf, frameCode, hclose]
    exact ⟨_, by rw [← List.append_assoc, ← List.cons_append]⟩
  have hnested := nested_funcCode (c := c) (d := d)
  rw [hy] at hidle hdir hnested ⊢
  exact .one hnested hidle hdir hret

theorem entryPlaces_shift (k : Nat) (fs : List Typed.FuncDecl) :
    (entryPlaces c k fs).map Prod.snd = ((entryPlaces c 0 fs).map Prod.snd).map (k + ·) := by
  induction fs generalizing k with
  | nil => rfl
  | cons f fs ih =>
    simp only [entryPlaces, List.map_cons, Nat.add_zero, Nat.zero_add]
    rw [ih, ih (funcCode c f).length]
    simp [Nat.add_assoc]

/-- The functions of a program, one after the other. -/
theorem framed_funcs {fs : List Typed.FuncDecl} (h : ∀ f ∈ fs, Compilable c f) :
    Framed ((entryPlaces c 0 fs).map Prod.snd) (fs.flatMap (funcCode c)) := by
  induction fs with
  | nil => exact .nil
  | cons f fs ih =>
    have hrest := ih fun g hg => h g (by simp [hg])
    have hall := (framed_funcCode (h f (by simp))).append hrest
    simpa [entryPlaces, entryPlaces_shift (funcCode c f).length] using hall

/-- The code that initialises a module, which is one function. -/
theorem framed_init {ds : List Typed.Decl} {line : Nat} :
    Framed [0] (ds.flatMap (initCode c) ++ [Piece.plain .ret line []]) := by
  have hidle : ∀ d : Typed.Decl, Idle (initCode c d) := by
    intro d
    unfold initCode
    split
    · exact .cons not_waits_withConst .nil
    · exact .nil
    · exact .nil
    · exact .nil
    · exact (idle_expr _).append (.cons not_waits_plain .nil)
  have hdir : ∀ d : Typed.Decl, Directed (initCode c d) := by
    intro d
    unfold initCode
    split
    · exact .one (aimed_withConst rfl)
    · exact .nil
    · exact .nil
    · exact .nil
    · exact (directed_expr _).append (.one (aimed_plain rfl))
  have hparts : Nested (ds.flatMap (initCode c)) ∧ Idle (ds.flatMap (initCode c)) ∧
      Directed (ds.flatMap (initCode c)) := by
    induction ds with
    | nil => exact ⟨.nil, .nil, .nil⟩
    | cons d ds ih =>
      obtain ⟨hn, hi, hd⟩ := ih
      rw [List.flatMap_cons]
      exact ⟨(nested_initCode d).append hn, (hidle d).append hi, (hdir d).append hd⟩
  obtain ⟨hn, hi, hd⟩ := hparts
  exact .one (hn.append (.plain (by decide))) (hi.append (.cons not_waits_plain .nil))
    (hd.append (.one (aimed_plain rfl))) rfl

end Programs

/-! ## Frames of instructions -/

section Instructions

variable {cs : List Constant} {code : List Piece} {xs : List Instruction} {starts : List Nat} {i k : Nat}
  {x y : Instruction}

theorem Framed.together_goal (h : Framed starts code) {q : Piece} {d : Int} (hq : code[i]? = some q)
    (hg : q.goal = some (.ahead d)) : Together starts code i (i + d) :=
  ⟨h.jumps hq hg, fun _ _ he => h.nested.jumps he hq hg⟩

theorem Framed.together_next (h : Framed starts code) {q : Piece} (hq : code[i]? = some q)
    (hc : q.op.continues) : Together starts code i ((i + 1 : Nat) : Int) := by
  refine ⟨?_, fun _ _ he => h.nested.falls he hq hc⟩
  intro s hs
  have hne : s ≠ i + 1 := by
    rintro rfl
    exact (h.falls hq hc).2 hs
  omega

/-- The first instruction from a place on that is encoded. Only marks are before it, so it is in the same
frame and has the same position. -/
theorem Framed.encoded {i : Nat} (h : Framed starts code) (hf : Final cs code xs) (hi : i < code.length) :
    ∃ (m : Nat) (z : Instruction), xs[m]? = some z ∧ z.op ≠ .mark ∧ posAt xs m = posAt xs i ∧
      Together starts code i m := by
  obtain ⟨z, hz, hop⟩ := hf.at (List.getElem?_eq_getElem hi)
  by_cases hm : z.op = .mark
  · have hc : (code[i]).op.continues := by
      rcases hop with hop | ⟨hop, -⟩ | ⟨-, hop⟩
      · rw [← hop, hm]
        rfl
      · rw [hop]
        rfl
      · simp [hm] at hop
    have hq := List.getElem?_eq_getElem hi
    obtain ⟨m, w, hw, hne, hpos, hto⟩ := h.encoded hf (h.falls hq hc).1
    exact ⟨m, w, hw, hne, hpos.trans (posAt_mark hz hm), (h.together_next hq hc).trans hto⟩
  · exact ⟨i, z, hz, hm, rfl, fun _ _ => .rfl, fun _ _ _ => .rfl⟩
termination_by code.length - i

/-- The instruction at a place, as it is read back. -/
def Instruction.read (x : Instruction) (xs : List Instruction) (i : Nat) : Decoded :=
  ⟨posAt xs i, x.op, x.operands⟩

theorem next_read (hx : xs[i]? = some x) : (x.read xs i).next = posAt xs (i + 1) := by
  rw [posAt_succ hx]
  rfl

/-- A lambda is read back as one, and its body ends at the goal of its piece. -/
theorem Final.lambda (hf : Final cs code xs) (h : Framed starts code) (hx : xs[i]? = some x)
    (ho : x.op = .lambda) : ∃ (q : Piece) (d : Nat), code[i]? = some q ∧ q.goal = some (.ahead (d + 2)) ∧
      Bytecode.Encloses code i (d + 2) ∧ (x.read xs i).target? = some (posAt xs (i + d + 2) : Int) ∧
      ∃ r, code[i + d + 1]? = some r ∧ r.op.isReturn := by
  have hcount := (hf.sound x (List.mem_of_getElem? hx)).count
  obtain ⟨v, hv⟩ : ∃ v, x.operands[0]? = some v := by
    refine ⟨_, List.getElem?_eq_getElem ?_⟩
    rw [hcount, ho]
    decide
  have ht : (x.read xs i).target? = some (posAt xs i + v) := by
    simp [Instruction.read, Decoded.target?, Opcode.offsetOperand?, Opcode.isJump, ho, hv]
  obtain ⟨q, e, j, hq, hop, hg, hj, -, hpos⟩ := hf.target h.directed h.idle hx ht
  obtain ⟨d, hd, r, hr, hret⟩ := h.nested.lambdas hq (hop.trans ho)
  obtain rfl : e = d + 2 := by simpa [hg] using hd
  obtain rfl : j = i + d + 2 := by omega
  exact ⟨q, d, hq, hg, ⟨q, hq, hop.trans ho, hg⟩, by rw [ht, hpos], r, hr, hret⟩

/-- The body of a lambda holds the same places as positions. -/
theorem Final.encloses_iff (hf : Final cs code xs) (h : Framed starts code) (hx : xs[i]? = some x)
    (hy : xs[k]? = some y) (hm : y.op ≠ .mark) :
    (x.read xs i).Encloses (posAt xs k) ↔ x.op = .lambda ∧ ∃ e, Bytecode.Encloses code i e ∧ Within i e k := by
  have hnext := next_read hx
  constructor
  · rintro ⟨ho, hle, t, ht, hlt⟩
    obtain ⟨q, d, -, -, hencl, ht', -⟩ := hf.lambda h hx ho
    refine ⟨ho, _, hencl, ?_⟩
    obtain rfl : t = _ := Option.some.inj (ht.symm.trans ht')
    have hlow : i < k := by
      by_cases hik : k < i + 1
      · have := posAt_lt hy hm hik
        omega
      · omega
    have hhigh : k < i + d + 2 := by
      by_cases hik : i + d + 2 ≤ k
      · have := posAt_mono xs hik
        omega
      · omega
    exact ⟨by omega, by omega⟩
  · rintro ⟨ho, e, hencl, hw⟩
    obtain ⟨q, d, hq, hg, -, ht, -⟩ := hf.lambda h hx ho
    obtain ⟨q', hq', -, hg'⟩ := hencl
    obtain rfl : q = q' := Option.some.inj (hq.symm.trans hq')
    obtain rfl : e = d + 2 := by simpa [hg] using hg'.symm
    have hlow := posAt_mono xs (show i + 1 ≤ k by have := hw.1; omega)
    have hhigh := posAt_lt hy hm (show k < i + d + 2 by have := hw.2; omega)
    exact ⟨ho, by omega, _, ht, by omega⟩

theorem start_le_iff {s : Nat} (hx : xs[i]? = some x) (hm : x.op ≠ .mark) :
    (posAt xs s : Int) ≤ posAt xs i ↔ (s : Int) ≤ i := by
  constructor
  · intro hle
    by_cases hs : i < s
    · have := posAt_lt hx hm hs
      omega
    · omega
  · intro hle
    have := posAt_mono xs (show s ≤ i by omega)
    omega

/-- Places in one frame have positions in one frame. -/
theorem Together.sameFrame (hf : Final cs code xs) (h : Framed starts code) (hx : xs[i]? = some x)
    (hxm : x.op ≠ .mark) (hy : xs[k]? = some y) (hym : y.op ≠ .mark) (ht : Together starts code i k) :
    SameFrame (starts.map fun s => (posAt xs s : Int)) (xs.filterMap Instruction.decoded?) (posAt xs i)
      (posAt xs k) := by
  constructor
  · intro p hp
    obtain ⟨s, hs, rfl⟩ := List.mem_map.mp hp
    rw [start_le_iff hx hxm, start_le_iff hy hym]
    exact ht.1 s hs
  · intro d hd
    obtain ⟨j, z, hz, -, rfl⟩ := (mem_decoded hf.placed).mp hd
    have hsame : (∃ e, Encloses code j e ∧ Within j e i) ↔ ∃ e, Encloses code j e ∧ Within j e k :=
      exists_congr fun e => and_congr_right fun he => ht.2 j e he
    exact (hf.encloses_iff h hz hx hxm).trans ((and_congr_right fun _ => hsame).trans
      (hf.encloses_iff h hz hy hym).symm)

/-- The return at the end of a lambda is in its body and in no other that does not hold the lambda. -/
private theorem within_last {q : Piece} {j d : Nat} {e : Int} (hn : Nested code) (hq : code[i]? = some q)
    (ho : q.op = .lambda) (hg : q.goal = some (.ahead (d + 2))) (he : Encloses code j e) :
    Within j e (i + d + 1) ↔ j = i ∨ Within j e i := by
  obtain ⟨q', hq', ho', hg'⟩ := he
  have hencl : Encloses code i (d + 2) := ⟨q, hq, ho, hg⟩
  have hinner := hn.jumps hencl hq' hg'
  have houter := hn.jumps ⟨q', hq', ho', hg'⟩ hq hg
  have hwide : 2 ≤ e := by
    obtain ⟨d', hd', -⟩ := hn.lambdas hq' ho'
    obtain rfl : e = d' + 2 := by simpa [hg'] using hd'
    omega
  by_cases hij : j = i
  · subst hij
    obtain rfl : q = q' := Option.some.inj (hq.symm.trans hq')
    obtain rfl : e = d + 2 := by simpa [hg] using hg'.symm
    simp only [Within, true_or, iff_true]
    omega
  · simp only [hij, false_or]
    simp only [Within] at hinner houter ⊢
    omega

theorem mem_read (hf : Final cs code xs) (hx : xs[i]? = some x) (hm : x.op ≠ .mark) :
    x.read xs i ∈ xs.filterMap Instruction.decoded? :=
  (mem_decoded hf.placed).mpr ⟨i, x, hx, hm, rfl⟩

private theorem return_at (hf : Final cs code xs) {q : Piece} (hq : code[i]? = some q) (hr : q.op.isReturn) :
    ∃ z : Instruction, xs[i]? = some z ∧ z.op.isReturn ∧ z.op ≠ .mark := by
  obtain ⟨z, hz, hop | ⟨hop, -⟩ | ⟨hop, -⟩⟩ := hf.at hq
  · refine ⟨z, hz, by rwa [hop], ?_⟩
    intro hm
    simp [← hop, hm, Opcode.isReturn] at hr
  · simp [hop, Opcode.isReturn] at hr
  · simp [hop, Opcode.isReturn] at hr

/-- Different places have different positions. -/
theorem place_unique (hx : xs[i]? = some x) (hxm : x.op ≠ .mark) (hy : xs[k]? = some y)
    (hym : y.op ≠ .mark) (hpos : posAt xs i = posAt xs k) : i = k := by
  by_cases hik : i < k
  · have := posAt_lt hx hxm hik
    omega
  · by_cases hki : k < i
    · have := posAt_lt hy hym hki
      omega
    · omega

/-- The body of a lambda ends in a return of its own. -/
private theorem lambda_closed (h : Framed starts code) (hf : Final cs code xs) (hx : xs[i]? = some x)
    (hm : x.op ≠ .mark) (ho : x.op = .lambda) :
    ∃ e ∈ xs.filterMap Instruction.decoded?, e.op.isReturn ∧ (x.read xs i).target? = some (e.next : Int) ∧
      (∀ s ∈ starts.map fun s => (posAt xs s : Int), s ≤ posAt xs i ↔ s ≤ e.pos) ∧
      ∀ d ∈ xs.filterMap Instruction.decoded?, d.Encloses e.pos ↔ d = x.read xs i ∨ d.Encloses (posAt xs i) := by
  obtain ⟨q, n, hq, hg, ⟨q', hq', hlam, -⟩, ht, r, hr, hreturn⟩ := hf.lambda h hx ho
  obtain rfl : q = q' := Option.some.inj (hq.symm.trans hq')
  obtain ⟨w, hw, hop, hwm⟩ := return_at hf hr hreturn
  refine ⟨w.read xs (i + n + 1), mem_read hf hw hwm, hop, ?_, ?_, ?_⟩
  · rw [next_read hw]
    exact ht
  · intro p hp
    obtain ⟨s, hs, rfl⟩ := List.mem_map.mp hp
    have hjump := h.jumps hq hg s hs
    exact (start_le_iff hx hm).trans (Iff.trans (by omega) (start_le_iff hw hwm).symm)
  · intro d hd
    obtain ⟨j, v, hv, hvm, rfl⟩ := (mem_decoded hf.placed).mp hd
    have hlast := fun e => within_last (j := j) (e := e) h.nested hq hlam hg
    refine (hf.encloses_iff h hv hw hwm).trans (Iff.trans ?_ (or_congr_right (hf.encloses_iff h hv hx hm).symm))
    constructor
    · rintro ⟨hov, e, he, hin⟩
      rcases (hlast e he).mp (by simpa using hin) with rfl | hin
      · obtain rfl : v = x := Option.some.inj (hv.symm.trans hx)
        exact .inl rfl
      · exact .inr ⟨hov, e, he, hin⟩
    · rintro (heq | ⟨hov, e, he, hin⟩)
      · obtain rfl : j = i := place_unique hv hvm hx hm (congrArg Decoded.pos heq)
        obtain rfl : v = x := Option.some.inj (hv.symm.trans hx)
        exact ⟨ho, _, ⟨q, hq, hlam, hg⟩, by omega, by omega⟩
      · exact ⟨hov, e, he, by simpa using (hlast e he).mpr (.inr hin)⟩

/-- The final instructions of framed code have a well-formed control flow. -/
theorem Framed.wellFormed (h : Framed starts code) (hf : Final cs code xs) :
    WellFormedFlow (starts.map fun s => (posAt xs s : Int)) (xs.flatMap Instruction.encode) := by
  have hlen : (xs.flatMap Instruction.encode).length = posAt xs xs.length := by
    rw [length_flatMap_encode hf.sound, posAt, List.take_length]
  refine ⟨?_, ?_, ?_, ?_, ?_, ?_⟩ <;> rw [hf.decode]
  · intro d hd
    obtain ⟨k, z, hz, hm, rfl⟩ := (mem_decoded hf.placed).mp hd
    obtain ⟨q, hq⟩ := hf.piece hz
    refine ⟨_, List.mem_map.mpr ⟨0, h.covers ?_, rfl⟩, Int.ofNat_le.mpr (posAt_mono xs (Nat.zero_le k))⟩
    rintro rfl
    simp at hq
  · intro d hd t ht
    obtain ⟨k, z, hz, hm, rfl⟩ := (mem_decoded hf.placed).mp hd
    obtain ⟨q, e, j, hq, -, hg, hj, hlt, rfl⟩ := hf.target h.directed h.idle hz ht
    obtain ⟨m, w, hw, hwm, hpos, hto⟩ := h.encoded hf (hf.length ▸ hlt)
    have hgoal := h.together_goal hq hg
    rw [← hj] at hgoal
    refine ⟨_, mem_read hf hw hwm, by simp [Instruction.read, hpos], ?_⟩
    exact (hgoal.trans hto).sameFrame hf h hz hm hw hwm
  · intro d hd hc
    obtain ⟨k, z, hz, hm, rfl⟩ := (mem_decoded hf.placed).mp hd
    obtain ⟨q, hq⟩ := hf.piece hz
    have hqc : q.op.continues := by
      obtain ⟨z', hz', hop | ⟨hop, -⟩ | ⟨hop, -⟩⟩ := hf.at hq
      · obtain rfl : z = z' := Option.some.inj (hz.symm.trans hz')
        rwa [← hop]
      · rw [hop]
        rfl
      · rw [hop]
        rfl
    obtain ⟨m, w, hw, hwm, hpos, hto⟩ := h.encoded hf (h.falls hq hqc).1
    refine ⟨_, mem_read hf hw hwm, hpos.trans (next_read hz).symm, ?_⟩
    exact ((h.together_next hq hqc).trans hto).sameFrame hf h hz hm hw hwm
  · intro p hp
    obtain ⟨s, hs, rfl⟩ := List.mem_map.mp hp
    obtain ⟨m, w, hw, hwm, hpos, hto⟩ := h.encoded hf (h.inside s hs)
    obtain ⟨e, r, hr, hreturn, hsame, hseam, hend⟩ := h.closes s hs
    obtain ⟨z, hz, hop, hzm⟩ := return_at hf hr hreturn
    have hclose : Together starts code s e :=
      ⟨fun s' hs' => by have := hsame s' hs'; omega,
        fun j d he => ⟨fun hw => absurd hw (h.seams s hs j d he), fun hw => absurd hw (hseam j d he)⟩⟩
    refine ⟨_, mem_read hf hw hwm, by simp [Instruction.read, hpos], _, mem_read hf hz hzm, hop,
      (hto.symm.trans hclose).sameFrame hf h hw hwm hz hzm, ?_⟩
    rw [next_read hz]
    rcases hend with hend | hend
    · exact .inl (by rw [hlen, hend, hf.length])
    · exact .inr (List.mem_map.mpr ⟨e + 1, hend, rfl⟩)
  · intro d hd ho
    obtain ⟨k, z, hz, hm, rfl⟩ := (mem_decoded hf.placed).mp hd
    exact lambda_closed h hf hz hm ho

end Instructions

/-! ## Compiled modules -/

/-- The places of functions are those where their frames are made. -/
theorem initFrame_at {c : Store × Module} {fs : List Typed.FuncDecl} (h : ∀ f ∈ fs, Compilable c f) {k : Nat}
    (hk : k ∈ (entryPlaces c 0 fs).map Prod.snd) :
    ∃ q, (fs.flatMap (funcCode c))[k]? = some q ∧ q.op = .initFrame := by
  induction fs generalizing k with
  | nil => simp [entryPlaces] at hk
  | cons f fs ih =>
    rw [List.flatMap_cons]
    simp only [entryPlaces, List.map_cons, Nat.zero_add, List.mem_cons] at hk
    rcases hk with rfl | hk
    · obtain ⟨g, hg, -⟩ := h f (by simp)
      simp [funcCode, hg, frameCode, Piece.plain]
    · rw [entryPlaces_shift] at hk
      obtain ⟨m, hm, rfl⟩ := List.mem_map.mp hk
      obtain ⟨q, hq, ho⟩ := ih (fun g hg => h g (by simp [hg])) hm
      exact ⟨q, getElem?_append_cases.mpr (.inr ⟨m, rfl, hq⟩), ho⟩

section Compiled

variable {st : Store} {m : Module} {p : Typed.Program} {out : Compiled}

/-- The positions of the functions of a compiled module. -/
theorem map_pos {xs : List Instruction} {cs : List Constant}
    (hf : Final cs (programCode (st, m) p .code) xs) (hc : ∀ f ∈ p.funcs, Compilable (st, m) f)
    {funcs : List FuncPos} (h : funcs.map (fun f => (f.name, some f.pos)) =
      (entryPlaces (st, m) 0 p.funcs).map fun e => ((st.func e.1).fullName, xs[e.2]?.map Instruction.pos)) :
    funcs.map FuncPos.pos = ((entryPlaces (st, m) 0 p.funcs).map Prod.snd).map fun k => (posAt xs k : Int) := by
  have hsome : (funcs.map FuncPos.pos).map some =
      (((entryPlaces (st, m) 0 p.funcs).map Prod.snd).map fun k => (posAt xs k : Int)).map some := by
    have := congrArg (List.map Prod.snd) h
    simp only [List.map_map, Function.comp_def] at this ⊢
    rw [this]
    apply List.map_congr_left
    intro e he
    have hin := (framed_funcs hc).inside e.2 (List.mem_map_of_mem he)
    have hlt : e.2 < xs.length := by
      rw [hf.length]
      exact hin
    have hx := List.getElem?_eq_getElem hlt
    simp [hx, hf.placed.pos hx]
  exact (List.map_inj_right fun _ _ h => Option.some.inj h).mp hsome

/-- Control flow of a compiled module is well formed: in the code for its initialisation and in the code of
its functions, which start where their frames are made. -/
theorem compile_wellFormedFlow (h : compile st m p = .ok out) :
    WellFormedFlow [0] out.init ∧ WellFormedFlow (out.funcs.map FuncPos.pos) out.code ∧
      ∀ f ∈ out.funcs, ∃ d ∈ (decode out.code).1, d.pos = f.pos ∧ d.op = .initFrame := by
  obtain ⟨xs, hf, hinit, hcode, hfuncs, hc⟩ := compile_final h
  have hframed := framed_funcs hc
  have hpos := map_pos (hf .code) hc hfuncs
  refine ⟨?_, ?_, ?_⟩
  · rw [hinit]
    simpa [posAt] using Framed.wellFormed framed_init (hf .init)
  · rw [hcode, hpos]
    exact hframed.wellFormed (hf .code)
  · intro f hfm
    have hmem : f.pos ∈ ((entryPlaces (st, m) 0 p.funcs).map Prod.snd).map fun k => (posAt (xs .code) k : Int) := by
      rw [← hpos]
      exact List.mem_map_of_mem hfm
    obtain ⟨k, hk, hkpos⟩ := List.mem_map.mp hmem
    obtain ⟨q, hq, ho⟩ := initFrame_at hc hk
    obtain ⟨x, hx, hop | ⟨hop, -⟩ | ⟨hop, -⟩⟩ := (hf .code).at (i := k) hq
    · rw [hcode, (hf .code).decode]
      have hm : x.op ≠ .mark := by
        rw [hop, ho]
        decide
      exact ⟨_, mem_read (hf .code) hx hm, hkpos, hop.trans ho⟩
    · simp [ho] at hop
    · simp [ho] at hop

end Compiled

/-- A program with a lambda that is dropped and a loop that is left at once. -/
def droppedLambda : Typed.Program :=
  let leave : Typed.Block := .group 3 .seq [.brk 3]
  let frame : Typed.Frame :=
    { slots := 1, params := [], line := 1
      body := [.discard 2 1 (.lambda ⟨2, default, [], ⟨0, [], 2, []⟩⟩),
        .block (.whileLoop 3 (Typed.boolLiteral 3 true) leave none)] }
  ⟨"m", [.func ⟨1, ⟨0⟩, some frame⟩]⟩

theorem compile_droppedLambda_wellFormedFlow : ∃ out, compile .empty default droppedLambda = .ok out ∧
    WellFormedFlow [0] out.init ∧ WellFormedFlow (out.funcs.map FuncPos.pos) out.code ∧
      ∀ f ∈ out.funcs, ∃ d ∈ (decode out.code).1, d.pos = f.pos ∧ d.op = .initFrame := by
  have hok : (compile .empty default droppedLambda).isOk = true := by decide +kernel
  cases h : compile .empty default droppedLambda with
  | error e =>
    rw [h] at hok
    cases hok
  | ok out => exact ⟨out, rfl, compile_wellFormedFlow h⟩

end Weft.Bytecode
