import Weft.Proofs.Bytecode.ControlFlow
import Weft.Proofs.Bytecode.Structured

/-!
# Running code from a place

The machine runs the instructions of a module by their positions. Here it is followed by the places of pieces,
where code is found, and through the code of expressions.
-/

namespace Weft.Bytecode

open Typed (Expr Chain Call Frame VarDecl Stmt Block Arm)

/-! ## Runs from a place -/

section Places

variable {V : Type} (I : Interpretation V) (cs : List Constant) (xs : List Instruction)

/-- Whether the machine leaves the frame from a place of code after a number of steps. -/
def Ends (n k : Nat) (σ : List V) (m : Slots V) (r : List V × Slots V) : Prop :=
  HaltsIn I cs (xs.filterMap Instruction.decoded?) n ⟨posAt xs k, σ, m⟩ r

/-- Whether the machine comes from one place, stack and variables to others in a number of steps. -/
def LeadsIn (s k : Nat) (σ : List V) (m : Slots V) (k' : Nat) (σ' : List V) (m' : Slots V) : Prop :=
  ∀ n r, Ends I cs xs n k σ m r ↔ ∃ n', n = n' + s ∧ Ends I cs xs n' k' σ' m' r

/-- Whether the machine comes from one place, stack and variables to others. -/
def Leads (k : Nat) (σ : List V) (m : Slots V) (k' : Nat) (σ' : List V) (m' : Slots V) : Prop :=
  ∃ s, LeadsIn I cs xs s k σ m k' σ' m'

/-- Whether the machine comes from one place, stack and variables to others in at least one step. -/
def Leaps (k : Nat) (σ : List V) (m : Slots V) (k' : Nat) (σ' : List V) (m' : Slots V) : Prop :=
  ∃ s, 0 < s ∧ LeadsIn I cs xs s k σ m k' σ' m'

/-- Whether the machine leaves the frame from a place with some values and variables, and no others. -/
def Stops (k : Nat) (σ : List V) (m : Slots V) (r : List V × Slots V) : Prop :=
  ∃ s, ∀ n r', Ends I cs xs n k σ m r' ↔ n = s ∧ r' = r

variable {I cs xs} {k k₁ k₂ s s' : Nat} {σ σ₁ σ₂ : List V} {m m₁ m₂ : Slots V} {r : List V × Slots V}

theorem LeadsIn.trans (h : LeadsIn I cs xs s k σ m k₁ σ₁ m₁) (h' : LeadsIn I cs xs s' k₁ σ₁ m₁ k₂ σ₂ m₂) :
    LeadsIn I cs xs (s' + s) k σ m k₂ σ₂ m₂ := by
  intro n r
  rw [h n r]
  constructor
  · rintro ⟨n', rfl, hn⟩
    obtain ⟨n'', rfl, hn'⟩ := (h' _ _).mp hn
    exact ⟨n'', by omega, hn'⟩
  · rintro ⟨n'', rfl, hn⟩
    exact ⟨n'' + s', by omega, (h' _ _).mpr ⟨n'', rfl, hn⟩⟩

theorem Leads.refl : Leads I cs xs k σ m k σ m := ⟨0, fun n r => by simp⟩

theorem Leads.trans (h : Leads I cs xs k σ m k₁ σ₁ m₁) (h' : Leads I cs xs k₁ σ₁ m₁ k₂ σ₂ m₂) :
    Leads I cs xs k σ m k₂ σ₂ m₂ := by
  obtain ⟨s, hs⟩ := h
  obtain ⟨s', hs'⟩ := h'
  exact ⟨s' + s, hs.trans hs'⟩

theorem Leads.leaps (h : Leads I cs xs k σ m k₁ σ₁ m₁) (h' : Leaps I cs xs k₁ σ₁ m₁ k₂ σ₂ m₂) :
    Leaps I cs xs k σ m k₂ σ₂ m₂ := by
  obtain ⟨s, hs⟩ := h
  obtain ⟨s', hpos, hs'⟩ := h'
  exact ⟨s' + s, by omega, hs.trans hs'⟩

theorem Leaps.leads (h : Leaps I cs xs k σ m k₁ σ₁ m₁) : Leads I cs xs k σ m k₁ σ₁ m₁ := by
  obtain ⟨s, -, hs⟩ := h
  exact ⟨s, hs⟩

theorem Leads.stops (h : Leads I cs xs k σ m k₁ σ₁ m₁) (h' : Stops I cs xs k₁ σ₁ m₁ r) :
    Stops I cs xs k σ m r := by
  obtain ⟨s, hs⟩ := h
  obtain ⟨s', hs'⟩ := h'
  refine ⟨s' + s, fun n r' => ?_⟩
  rw [hs n r']
  constructor
  · rintro ⟨n', rfl, hn⟩
    obtain ⟨rfl, rfl⟩ := (hs' _ _).mp hn
    exact ⟨rfl, rfl⟩
  · rintro ⟨rfl, rfl⟩
    exact ⟨s', rfl, (hs' _ _).mpr ⟨rfl, rfl⟩⟩

theorem Leads.ends (h : Leads I cs xs k σ m k₁ σ₁ m₁) {n : Nat} (he : Ends I cs xs n k σ m r) :
    ∃ n', n' ≤ n ∧ Ends I cs xs n' k₁ σ₁ m₁ r := by
  obtain ⟨s, hs⟩ := h
  obtain ⟨n', rfl, he'⟩ := (hs _ _).mp he
  exact ⟨n', by omega, he'⟩

theorem Leaps.ends (h : Leaps I cs xs k σ m k₁ σ₁ m₁) {n : Nat} (he : Ends I cs xs n k σ m r) :
    ∃ n', n' < n ∧ Ends I cs xs n' k₁ σ₁ m₁ r := by
  obtain ⟨s, hpos, hs⟩ := h
  obtain ⟨n', rfl, he'⟩ := (hs _ _).mp he
  exact ⟨n', by omega, he'⟩

theorem Leads.halts_iff (h : Leads I cs xs k σ m k₁ σ₁ m₁) :
    (∃ n, Ends I cs xs n k σ m r) ↔ ∃ n, Ends I cs xs n k₁ σ₁ m₁ r := by
  obtain ⟨s, hs⟩ := h
  constructor
  · rintro ⟨n, hn⟩
    obtain ⟨n', -, hn'⟩ := (hs n r).mp hn
    exact ⟨n', hn'⟩
  · rintro ⟨n, hn⟩
    exact ⟨n + s, (hs _ r).mpr ⟨n, rfl, hn⟩⟩

theorem Stops.halts_iff (h : Stops I cs xs k σ m r) {r' : List V × Slots V} :
    (∃ n, Ends I cs xs n k σ m r') ↔ r' = r := by
  obtain ⟨s, hs⟩ := h
  constructor
  · rintro ⟨n, hn⟩
    exact ((hs n r').mp hn).2
  · rintro rfl
    exact ⟨s, (hs s r').mpr ⟨rfl, rfl⟩⟩

/-- One instruction that goes on. -/
theorem Leaps.step (h : machineStep I cs (xs.filterMap Instruction.decoded?) ⟨posAt xs k, σ, m⟩ =
    some (.go ⟨posAt xs k₁, σ₁, m₁⟩)) : Leaps I cs xs k σ m k₁ σ₁ m₁ := by
  refine ⟨1, by omega, fun n r => ?_⟩
  unfold Ends
  cases n with
  | zero =>
    simp only [HaltsIn, h, Option.some.injEq, reduceCtorEq, false_iff]
    rintro ⟨n', hn', -⟩
    omega
  | succ n =>
    simp only [HaltsIn, h, Option.some.injEq, Effect.go.injEq]
    constructor
    · rintro ⟨s', rfl, hn⟩
      exact ⟨n, rfl, hn⟩
    · rintro ⟨n', hn', hn⟩
      obtain rfl : n = n' := by omega
      exact ⟨_, rfl, hn⟩

theorem Leads.step (h : machineStep I cs (xs.filterMap Instruction.decoded?) ⟨posAt xs k, σ, m⟩ =
    some (.go ⟨posAt xs k₁, σ₁, m₁⟩)) : Leads I cs xs k σ m k₁ σ₁ m₁ :=
  (Leaps.step h).leads

/-- One instruction that leaves the frame. -/
theorem Stops.step (h : machineStep I cs (xs.filterMap Instruction.decoded?) ⟨posAt xs k, σ, m⟩ =
    some (.leave r.1 r.2)) : Stops I cs xs k σ m r := by
  refine ⟨0, fun n r' => ?_⟩
  unfold Ends
  cases n with
  | zero =>
    simp only [HaltsIn, h, Option.some.injEq, Effect.leave.injEq, true_and]
    constructor
    · rintro ⟨h1, h2⟩
      exact Prod.ext h1.symm h2.symm
    · rintro rfl
      exact ⟨rfl, rfl⟩
  | succ n => simp [HaltsIn, h]

end Places

/-! ## Instructions at a place -/

/-- An opcode of which every piece becomes an instruction. -/
def Opcode.Stays (op : Opcode) : Prop := op ≠ .mark ∧ op ≠ .getFunc ∧ op ≠ .callPtr

instance (op : Opcode) : Decidable op.Stays := inferInstanceAs (Decidable (_ ∧ _ ∧ _))

section Instructions

variable {V : Type} {I : Interpretation V} {cs : List Constant} {W : List Piece} {xs : List Instruction}
  {k : Nat} {op : Opcode} {line : Nat} {vs : List Int} {σ σ' : List V} {m m' : Slots V}

theorem constantAt?_natCast (cs : List Constant) (i : Nat) : constantAt? cs i = cs[i]? := by
  have : ¬(i : Int) < 0 := by omega
  simp [constantAt?, this]

private theorem find_at (hf : Final cs W xs) {x : Instruction} (hx : xs[k]? = some x) (hm : x.op ≠ .mark) :
    ((xs.filterMap Instruction.decoded?).find? fun d => (d.pos : Int) = (posAt xs k : Int)) =
      some ⟨posAt xs k, x.op, x.operands⟩ := by
  have hmem : (⟨posAt xs k, x.op, x.operands⟩ : Decoded) ∈ xs.filterMap Instruction.decoded? :=
    (mem_decoded hf.placed).mpr ⟨k, x, hx, hm, rfl⟩
  cases hfind : (xs.filterMap Instruction.decoded?).find? fun d => (d.pos : Int) = (posAt xs k : Int) with
  | none =>
    have := List.find?_eq_none.mp hfind _ hmem
    simp at this
  | some d =>
    obtain ⟨j, y, hy, hym, rfl⟩ := (mem_decoded hf.placed).mp (List.mem_of_find?_eq_some hfind)
    have hpos : posAt xs j = posAt xs k := by simpa using List.find?_some hfind
    obtain rfl : j = k := place_unique hy hym hx hm hpos
    obtain rfl : y = x := Option.some.inj (hy.symm.trans hx)
    rfl

/-- The instruction of a piece is run. -/
private theorem step_at (I : Interpretation V) (hf : Final cs W xs) {q : Piece} (hq : W[k]? = some q)
    (ho : q.op.Stays) : ∃ x : Instruction, Kept cs xs k x q ∧ xs[k]? = some x ∧ ∀ m σ,
      machineStep I cs (xs.filterMap Instruction.decoded?) ⟨posAt xs k, σ, m⟩ =
        Decoded.effect I cs ⟨posAt xs k, q.op, x.operands⟩ m σ := by
  obtain ⟨x, hx, -, hkept | ⟨hop, -⟩ | ⟨hop, -⟩⟩ := hf.shows hq
  · have hm : x.op ≠ .mark := by
      rw [hkept.op]
      exact ho.1
    refine ⟨x, hkept, hx, ?_⟩
    intro m σ
    rw [machineStep, find_at hf hx hm, Option.bind_some, hkept.op]
  · exact absurd hop ho.2.1
  · exact absurd hop ho.2.2

private theorem next_at (hf : Final cs W xs) {q : Piece} (hq : W[k]? = some q) (ho : q.op.Stays)
    (vs : List Int) : (⟨posAt xs k, q.op, vs⟩ : Decoded).next = posAt xs (k + 1) := by
  obtain ⟨x, hx, hop | ⟨hop, -⟩ | ⟨hop, -⟩⟩ := hf.at hq
  · rw [posAt_succ hx, hop]
    rfl
  · exact absurd hop ho.2.1
  · exact absurd hop ho.2.2

/-- A mark takes no step. -/
theorem leads_mark (hf : Final cs W xs) (hq : W[k]? = some (.mark line)) :
    Leads I cs xs k σ m (k + 1) σ m := by
  obtain ⟨x, hx, hop | ⟨hop, -⟩ | ⟨hop, -⟩⟩ := hf.at hq
  · refine ⟨0, fun n r => ?_⟩
    simp [Ends, posAt_mark hx hop]
  · simp [Piece.mark, Piece.plain] at hop
  · simp [Piece.mark, Piece.plain] at hop

/-- An instruction without a constant or a goal. -/
theorem step_plain (hf : Final cs W xs) (hq : W[k]? = some (.plain op line vs)) (ho : op.Stays) :
    machineStep I cs (xs.filterMap Instruction.decoded?) ⟨posAt xs k, σ, m⟩ =
      Decoded.effect I cs ⟨posAt xs k, op, vs⟩ m σ := by
  obtain ⟨x, hkept, -, hstep⟩ := step_at I hf hq ho
  obtain ⟨y, hy, hops, -⟩ := hkept.operands
  have hx : x.operands = vs := by
    rw [hops (by simp [Piece.plain]), (hy.bare rfl).2]
    rfl
  rw [hstep, hx]
  rfl

theorem leads_plain (hf : Final cs W xs) (hq : W[k]? = some (.plain op line vs)) (ho : op.Stays)
    (he : Decoded.effect I cs ⟨posAt xs k, op, vs⟩ m σ =
      some (.go ⟨(⟨posAt xs k, op, vs⟩ : Decoded).next, σ', m'⟩)) : Leads I cs xs k σ m (k + 1) σ' m' := by
  have hnext : (⟨posAt xs k, op, vs⟩ : Decoded).next = posAt xs (k + 1) := next_at hf hq ho vs
  refine .step ?_
  rw [step_plain hf hq ho, he, hnext]

/-- An instruction with a constant. -/
theorem leads_const (I : Interpretation V) (hf : Final cs W xs) {v : Option Constant} {p : Nat}
    (hq : W[k]? = some (.withConst op line vs v)) (ho : op.Stays) (hp : op.pool = some p) :
    ∃ (c : Constant) (i : Nat), v = some c ∧ constantAt? cs i = some c ∧ ∀ {m m' : Slots V} {σ σ' : List V},
      Decoded.effect I cs ⟨posAt xs k, op, vs.set p i⟩ m σ =
        some (.go ⟨(⟨posAt xs k, op, vs.set p i⟩ : Decoded).next, σ', m'⟩) →
      Leads I cs xs k σ m (k + 1) σ' m' := by
  obtain ⟨x, hkept, -, hstep⟩ := step_at I hf hq ho
  obtain ⟨y, hy, hops, -⟩ := hkept.operands
  cases v with
  | none =>
    have := (hy.bare rfl).1
    simp only [Piece.withConst, hp, reduceCtorEq] at this
  | some c =>
    obtain ⟨p', i, hp', hc, hset⟩ := hy.const c rfl
    obtain rfl : p = p' := Option.some.inj (hp.symm.trans hp')
    have hx : x.operands = vs.set p i := (hops (by simp [Piece.withConst])).trans hset
    refine ⟨c, i, rfl, (constantAt?_natCast cs i).trans hc, ?_⟩
    intro m m' σ σ' he
    have hnext : (⟨posAt xs k, op, vs.set p i⟩ : Decoded).next = posAt xs (k + 1) := next_at hf hq ho _
    refine .step ?_
    rw [hstep, hx, ← hnext]
    exact he

/-- An instruction that leads to a place. -/
theorem step_jump (I : Interpretation V) (hf : Final cs W xs) {d : Int} {j : Nat}
    (hq : W[k]? = some (.leading op line [0] (.ahead d))) (ho : op.Stays) (hj : op.offsetOperand? = some 0)
    (hd : (j : Int) = k + d) : ∃ o : Int, posAt xs k + o = posAt xs j ∧
      (∀ vs, (⟨posAt xs k, op, vs⟩ : Decoded).next = posAt xs (k + 1)) ∧ ∀ m σ,
      machineStep I cs (xs.filterMap Instruction.decoded?) ⟨posAt xs k, σ, m⟩ =
        Decoded.effect I cs ⟨posAt xs k, op, [o]⟩ m σ := by
  obtain ⟨x, hkept, hx, hstep⟩ := step_at I hf hq ho
  obtain ⟨y, hy, -, hlead⟩ := hkept.operands
  obtain ⟨i, z, hi, hz, hops⟩ := hlead d rfl
  obtain rfl : i = j := by omega
  have hbare : y.operands = [0] := (hy.bare rfl).2
  have hindex : (Piece.leading op line [0] (.ahead d)).offsetIndex = 0 := by
    simp [Piece.offsetIndex, Piece.leading, hj]
  have hzpos := hf.placed.pos hz
  have hxpos := hf.placed.pos hx
  refine ⟨z.pos - x.pos, by omega, next_at hf hq ho, ?_⟩
  intro m σ
  rw [hstep, hops, hbare, hindex]
  rfl

section Jumps

variable {d : Int} {j : Nat} {a : V}

/-- A jump takes a step. -/
theorem leaps_always (hf : Final cs W xs) (hq : W[k]? = some (.leading op line [0] (.ahead d)))
    (ho : op = .jump ∨ op = .brk ∨ op = .cont) (hd : (j : Int) = k + d) : Leaps I cs xs k σ m j σ m := by
  have hstays : op.Stays := by rcases ho with rfl | rfl | rfl <;> decide
  have hoffset : op.offsetOperand? = some 0 := by rcases ho with rfl | rfl | rfl <;> rfl
  obtain ⟨o, ho', -, hstep⟩ := step_jump I hf hq hstays hoffset hd
  refine .step ?_
  rw [hstep, ← ho']
  rcases ho with rfl | rfl | rfl <;> rfl

/-- A jump that a false value takes. -/
theorem leads_jumpZ (hf : Final cs W xs) (hq : W[k]? = some (.leading .jumpZ line [0] (.ahead d)))
    (hd : (j : Int) = k + d) : Leads I cs xs k (a :: σ) m (if I.truth a then k + 1 else j) σ m := by
  obtain ⟨o, ho, hnext, hstep⟩ := step_jump I hf hq (by decide) rfl hd
  refine .step ?_
  rw [hstep]
  cases ha : I.truth a with
  | true => simp [Decoded.effect, ha, hnext]
  | false => simp [Decoded.effect, ha, ho]

/-- A jump that keeps the value that takes it. -/
theorem leads_peek (hf : Final cs W xs) {b : BinaryOp} (hb : b = .and ∨ b = .or)
    (hq : W[k]? = some (.leading (Lower.binaryOpcode b) line [0] (.ahead d))) (hd : (j : Int) = k + d) :
    if I.decides b a then Leads I cs xs k (a :: σ) m j (a :: σ) m
      else Leads I cs xs k (a :: σ) m (k + 1) σ m := by
  have hstays : (Lower.binaryOpcode b).Stays := by rcases hb with rfl | rfl <;> decide
  have hoffset : (Lower.binaryOpcode b).offsetOperand? = some 0 := by rcases hb with rfl | rfl <;> rfl
  obtain ⟨o, ho, hnext, hstep⟩ := step_jump I hf hq hstays hoffset hd
  rcases hb with rfl | rfl
  · cases ha : I.truth a with
    | true =>
      simp only [Interpretation.decides, ha, Bool.not_true, Bool.false_eq_true, if_false]
      refine .step ?_
      rw [hstep]
      simpa [Decoded.effect, Lower.binaryOpcode, ha] using hnext [o]
    | false =>
      simp only [Interpretation.decides, ha, Bool.not_false, if_true]
      refine .step ?_
      rw [hstep]
      simp [Decoded.effect, Lower.binaryOpcode, ha, ho]
  · cases ha : I.truth a with
    | true =>
      simp only [Interpretation.decides, ha, if_true]
      refine .step ?_
      rw [hstep]
      simp [Decoded.effect, Lower.binaryOpcode, ha, ho]
    | false =>
      simp only [Interpretation.decides, ha, Bool.false_eq_true, if_false]
      refine .step ?_
      rw [hstep]
      simpa [Decoded.effect, Lower.binaryOpcode, ha] using hnext [o]

end Jumps

end Instructions

/-! ## Code at a place -/

/-- Whether code stands at a place. What waits in it for the ends of a loop leads to two places. -/
def CodeAt (W : List Piece) (k exit next : Nat) (code : List Piece) : Prop :=
  ∀ (i : Nat) q, code[i]? = some q → W[k + i]? = some (q.settle exit next (k + i))

section CodeAt

variable {W a b code : List Piece} {k k' exit next : Nat} {q : Piece}

theorem CodeAt.left (h : CodeAt W k exit next (a ++ b)) : CodeAt W k exit next a :=
  fun i q hq => h i q (getElem?_append_cases.mpr (.inl hq))

theorem CodeAt.right (h : CodeAt W k exit next (a ++ b)) (hk : k' = k + a.length) :
    CodeAt W k' exit next b := by
  intro i q hq
  have := h (a.length + i) q (getElem?_append_cases.mpr (.inr ⟨i, rfl, hq⟩))
  rwa [hk, Nat.add_assoc]

theorem CodeAt.head (h : CodeAt W k exit next (q :: b)) : W[k]? = some (q.settle exit next k) :=
  h 0 q rfl

theorem CodeAt.tail (h : CodeAt W k exit next (q :: b)) (hk : k' = k + 1) : CodeAt W k' exit next b :=
  CodeAt.right (a := [q]) h hk

/-- The code of a loop leads to the ends of the loop. -/
theorem CodeAt.loop {e n exit' next' : Nat} (h : CodeAt W k exit next (settleLoop e n code))
    (he : exit' = k + e) (hn : next' = k + n) : CodeAt W k exit' next' code := by
  subst he hn
  intro i q hq
  have hin := h i (q.settle e n i) (getElem?_settleLoop.mpr ⟨q, hq, rfl⟩)
  rw [settle_of_not_waits not_waits_settle] at hin
  rw [hin]
  by_cases hw : q.Waits
  · rcases hw with hw | hw
    · rw [goal_settle_exit hw, goal_settle_exit hw]
      simp only [Option.some.injEq, Piece.mk.injEq, true_and, and_true, Goal.ahead.injEq]
      omega
    · rw [goal_settle_next hw, goal_settle_next hw]
      simp only [Option.some.injEq, Piece.mk.injEq, true_and, and_true, Goal.ahead.injEq]
      omega
  · rw [settle_of_not_waits hw, settle_of_not_waits hw]

theorem CodeAt.ofIdle (h : Idle b) (exit next : Nat) (c : List Piece) :
    CodeAt (a ++ b ++ c) a.length exit next b := by
  intro i q hq
  rw [settle_of_not_waits (h q (List.mem_of_getElem? hq))]
  exact getElem?_append_cases.mpr (.inl (getElem?_append_cases.mpr (.inr ⟨i, rfl, hq⟩)))

end CodeAt

/-! ## Expressions -/

section Expressions

variable {V : Type} {I : Interpretation V} {c : Store × Module} {cs : List Constant} {W : List Piece}
  {xs : List Instruction} {exit next : Nat}

mutual

/-- A structured expression has as many values as it leaves on the stack. -/
theorem evalExpr_total : (x : Expr) → ∀ {n : Nat} (m : Slots V), yields x = some n →
    ∃ vs m', evalExpr I x m = some (vs, m') ∧ vs.length = n
  | .literal .., n, m, h => by
    obtain rfl : 1 = n := by simpa [yields] using h
    exact ⟨_, _, by rw [evalExpr], rfl⟩
  | .unary _ op _ x, n, m, h => by
    rw [yields] at h
    split at h
    · next hx =>
      obtain rfl : 1 = n := Option.some.inj h
      obtain ⟨a, m₁, ha⟩ := evalExpr_single x m hx
      exact ⟨[I.unary op a], m₁, by rw [evalExpr, ha], rfl⟩
    · simp at h
  | .binary _ op _ x y, n, m, h => by
    rw [yields] at h
    split at h
    · next hxy =>
      obtain rfl : 1 = n := Option.some.inj h
      obtain ⟨a, m₁, ha⟩ := evalExpr_single x m hxy.1
      obtain ⟨b, m₂, hb⟩ := evalExpr_single y m₁ hxy.2
      by_cases hd : I.decides op a
      · exact ⟨[a], m₁, by rw [evalExpr, ha]; simp [hd], rfl⟩
      · exact ⟨[I.binary op a b], m₂, by rw [evalExpr, ha]; simp [hd, hb], rfl⟩
    · simp at h
  | .chain ⟨_, _, _, links⟩, n, m, h => by
    rw [yields] at h
    rw [evalExpr]
    exact evalExprs_total links m h
  | .call ⟨_, .readVar v, _, _, _, _, _⟩, n, m, h => by
    obtain rfl : 1 = n := by simpa [yields] using h
    exact ⟨[m v.slot], m, by rw [evalExpr], rfl⟩
  | .call ⟨_, .writeVar v, _, _, _, _, children⟩, n, m, h => by
    rw [yields] at h
    split at h
    · next hx =>
      obtain rfl : 0 = n := Option.some.inj h
      obtain ⟨vs, m₁, hvs, hlen⟩ := evalExprs_total children m hx
      obtain ⟨a, rfl⟩ := List.length_eq_one_iff.mp hlen
      exact ⟨[], _, by rw [evalExpr, hvs], rfl⟩
    · simp at h
termination_by x => (sizeOf x, 0)

theorem evalExpr_single (x : Expr) (m : Slots V) (h : yields x = some 1) :
    ∃ a m', evalExpr I x m = some ([a], m') := by
  obtain ⟨vs, m', hvs, hlen⟩ := evalExpr_total x m h
  obtain ⟨a, rfl⟩ := List.length_eq_one_iff.mp hlen
  exact ⟨a, m', hvs⟩
termination_by (sizeOf x, 1)

theorem evalExprs_total : (ys : List Expr) → ∀ {n : Nat} (m : Slots V), yieldsAll ys = some n →
    ∃ vs m', evalExprs I ys m = some (vs, m') ∧ vs.length = n
  | [], n, m, h => by
    obtain rfl : 0 = n := by simpa [yieldsAll] using h
    exact ⟨[], m, by rw [evalExprs], rfl⟩
  | y :: ys, n, m, h => by
    rw [yieldsAll, Option.bind_eq_some_iff] at h
    obtain ⟨i, hy, h⟩ := h
    obtain ⟨j, hys, rfl⟩ := Option.map_eq_some_iff.mp h
    obtain ⟨vs, m₁, hvs, rfl⟩ := evalExpr_total y m hy
    obtain ⟨ws, m₂, hws, rfl⟩ := evalExprs_total ys m₁ hys
    exact ⟨vs ++ ws, m₂, by rw [evalExprs, hvs]; simp only [hws], List.length_append⟩
termination_by ys => (sizeOf ys, 0)

end

section Values

variable {m m' : Slots V} {vs : List V}

private theorem evalExpr_unary {line : Nat} {op : UnaryOp} {t : Option Ty} {x : Expr}
    (h : evalExpr I (.unary line op t x) m = some (vs, m')) :
    ∃ a, evalExpr I x m = some ([a], m') ∧ vs = [I.unary op a] := by
  rw [evalExpr] at h
  split at h
  · next a m₁ hx =>
    obtain ⟨rfl, rfl⟩ := Prod.mk.inj (Option.some.inj h)
    exact ⟨a, hx, rfl⟩
  · simp at h

private theorem evalExpr_binary {line : Nat} {op : BinaryOp} {t : Option Ty} {x y : Expr}
    (h : evalExpr I (.binary line op t x y) m = some (vs, m')) :
    ∃ a m₁, evalExpr I x m = some ([a], m₁) ∧ (I.decides op a = true ∧ vs = [a] ∧ m' = m₁ ∨
      I.decides op a = false ∧ ∃ b, evalExpr I y m₁ = some ([b], m') ∧ vs = [I.binary op a b]) := by
  rw [evalExpr] at h
  split at h
  · next a m₁ hx =>
    refine ⟨a, m₁, hx, ?_⟩
    split at h
    · next hd =>
      obtain ⟨rfl, rfl⟩ := Prod.mk.inj (Option.some.inj h)
      exact .inl ⟨hd, rfl, rfl⟩
    · next hd =>
      split at h
      · next b m₂ hy =>
        obtain ⟨rfl, rfl⟩ := Prod.mk.inj (Option.some.inj h)
        exact .inr ⟨by simpa using hd, b, hy, rfl⟩
      · simp at h
  · simp at h

private theorem evalExpr_write {line : Nat} {v : LocalVar} {name : String} {t : Option Ty}
    {args : Typed.Arguments} {site : Option Typed.CallSite} {children : List Expr}
    (h : evalExpr I (.call ⟨line, .writeVar v, name, t, args, site, children⟩) m = some (vs, m')) :
    ∃ a m₁, evalExprs I children m = some ([a], m₁) ∧ vs = [] ∧ m' = Function.update m₁ v.slot a := by
  rw [evalExpr] at h
  split at h
  · next a m₁ hx =>
    obtain ⟨rfl, rfl⟩ := Prod.mk.inj (Option.some.inj h)
    exact ⟨a, m₁, hx, rfl, rfl⟩
  · simp at h

private theorem evalExprs_cons {y : Expr} {ys : List Expr} (h : evalExprs I (y :: ys) m = some (vs, m')) :
    ∃ us m₁ ws, evalExpr I y m = some (us, m₁) ∧ evalExprs I ys m₁ = some (ws, m') ∧ vs = us ++ ws := by
  rw [evalExprs] at h
  split at h
  · next us m₁ hy =>
    split at h
    · next ws m₂ hys =>
      obtain ⟨rfl, rfl⟩ := Prod.mk.inj (Option.some.inj h)
      exact ⟨us, m₁, ws, hy, hys, rfl⟩
    · simp at h
  · simp at h

end Values

/-- The instruction of an operator that evaluates both operands. -/
private theorem effect_binary {d : Decoded} {op : BinaryOp} {a b : V} {σ : List V} {m : Slots V}
    (hop : ¬(op = .and ∨ op = .or)) (hd : d.op = Lower.binaryOpcode op) (hv : d.operands = []) :
    d.effect I cs m (b :: a :: σ) = some (.go ⟨d.next, I.binary op a b :: σ, m⟩) := by
  obtain ⟨pos, o, vs⟩ := d
  subst hd hv
  cases op with
  | and => simp at hop
  | or => simp at hop
  | _ => rfl

private theorem stays_binary {op : BinaryOp} : (Lower.binaryOpcode op).Stays := by
  cases op <;> decide

mutual

/-- The code of a structured expression puts its values on the stack. -/
theorem leads_expr (hf : Final cs W xs) : (x : Expr) → ∀ {k k' : Nat} {σ vs : List V} {m m' : Slots V},
    CodeAt W k exit next (exprCode c x) → evalExpr I x m = some (vs, m') →
    k' = k + (exprCode c x).length → Leads I cs xs k σ m k' (vs.reverse ++ σ) m'
  | .literal line v _, k, k', σ, vs, m, m', h, he, hk => by
    rw [exprCode] at h hk
    rw [evalExpr] at he
    obtain ⟨rfl, rfl⟩ := Prod.mk.inj (Option.some.inj he)
    obtain ⟨v', i, hv, hc, hleads⟩ := leads_const I hf h.head (by decide) rfl
    obtain rfl := Option.some.inj hv
    subst hk
    exact hleads (by simp [Decoded.effect, hc])
  | .unary line op _ x, k, k', σ, vs, m, m', h, he, hk => by
    simp only [exprCode] at h hk
    obtain ⟨a, hx, rfl⟩ := evalExpr_unary he
    have hop := (h.right rfl).head
    refine (leads_expr hf x h.left hx rfl).trans ?_
    obtain rfl : k' = k + (exprCode c x).length + 1 := by simpa [Nat.add_assoc] using hk
    cases op with
    | neg => exact leads_plain hf hop (by decide) rfl
    | not => exact leads_plain hf hop (by decide) rfl
  | .binary line op _ x y, k, k', σ, vs, m, m', h, he, hk => by
    rw [exprCode] at h hk
    obtain ⟨a, m₁, hx, hcases⟩ := evalExpr_binary he
    by_cases hop : op = .and ∨ op = .or
    · rw [if_pos hop] at h hk
      simp only [List.length_append, List.length_cons, List.length_nil] at hk
      have hrest := h.right rfl
      have hmark := ((hrest.tail rfl).right rfl).head
      obtain rfl : k' = k + (exprCode c x).length + 1 + (exprCode c y).length + 1 := by omega
      have hpeek := leads_peek (I := I) (m := m₁) (a := a) (σ := σ) hf hop hrest.head
        (j := k + (exprCode c x).length + 1 + (exprCode c y).length) (by omega)
      refine (leads_expr hf x h.left hx rfl).trans ?_
      rcases hcases with ⟨hd, rfl, rfl⟩ | ⟨hd, b, hy, rfl⟩
      · rw [if_pos hd] at hpeek
        exact hpeek.trans (leads_mark hf hmark)
      · rw [if_neg (by simp [hd])] at hpeek
        have hvalue : I.binary op a b = b := by rcases hop with rfl | rfl <;> rfl
        rw [hvalue]
        exact hpeek.trans ((leads_expr hf y (hrest.tail rfl).left hy rfl).trans (leads_mark hf hmark))
    · rw [if_neg hop] at h hk
      simp only [List.length_append, List.length_cons, List.length_nil] at hk
      have hlast : I.decides op a = false := by
        cases op with
        | and => simp at hop
        | or => simp at hop
        | _ => rfl
      obtain ⟨b, hy, rfl⟩ : ∃ b, evalExpr I y m₁ = some ([b], m') ∧ vs = [I.binary op a b] := by
        rcases hcases with ⟨hd, -⟩ | ⟨-, hb⟩
        · simp [hlast] at hd
        · exact hb
      have hinstr := (h.right rfl).head
      obtain rfl : k' = k + (exprCode c x ++ exprCode c y).length + 1 := by
        rw [List.length_append]
        omega
      refine (leads_expr hf x h.left.left hx rfl).trans ((leads_expr hf y (h.left.right rfl) hy ?_).trans
        (leads_plain hf hinstr stays_binary (effect_binary hop rfl rfl)))
      rw [List.length_append, Nat.add_assoc]
  | .chain ⟨_, _, _, links⟩, k, k', σ, vs, m, m', h, he, hk => by
    rw [exprCode] at h hk
    rw [evalExpr] at he
    exact leads_exprs hf links h he hk
  | .call ⟨line, .readVar v, _, _, _, _, _⟩, k, k', σ, vs, m, m', h, he, hk => by
    rw [exprCode, callCode, accessCode] at h hk
    rw [evalExpr] at he
    obtain ⟨rfl, rfl⟩ := Prod.mk.inj (Option.some.inj he)
    subst hk
    exact leads_plain hf h.head (by decide) rfl
  | .call ⟨line, .writeVar v, _, _, _, _, children⟩, k, k', σ, vs, m, m', h, he, hk => by
    rw [exprCode, callCode, accessCode] at h hk
    obtain ⟨a, m₁, hx, rfl, rfl⟩ := evalExpr_write he
    have hset := (h.right rfl).head
    obtain rfl : k' = k + (exprsCode c children).length + 1 := by simpa [Nat.add_assoc] using hk
    exact (leads_exprs hf children h.left hx rfl).trans (leads_plain hf hset (by decide) rfl)

theorem leads_exprs (hf : Final cs W xs) : (ys : List Expr) → ∀ {k k' : Nat} {σ vs : List V} {m m' : Slots V},
    CodeAt W k exit next (exprsCode c ys) → evalExprs I ys m = some (vs, m') →
    k' = k + (exprsCode c ys).length → Leads I cs xs k σ m k' (vs.reverse ++ σ) m'
  | [], k, k', σ, vs, m, m', h, he, hk => by
    rw [evalExprs] at he
    obtain ⟨rfl, rfl⟩ := Prod.mk.inj (Option.some.inj he)
    subst hk
    exact .refl
  | y :: ys, k, k', σ, vs, m, m', h, he, hk => by
    rw [exprsCode] at h hk
    obtain ⟨us, m₁, ws, hy, hys, rfl⟩ := evalExprs_cons he
    rw [List.length_append] at hk
    rw [List.reverse_append, List.append_assoc]
    exact (leads_expr hf y h.left hy rfl).trans (leads_exprs hf ys (h.right rfl) hys (by omega))

end

end Expressions

end Weft.Bytecode
