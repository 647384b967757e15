import Weft.Proofs.Bytecode.Arity

/-!
# Goals stay inside their frame

In the code of a tree every goal is an instruction of the same code, and no goal and no fall-through enters
or leaves the body of a lambda. The body of a lambda ends in a return.
-/

namespace Weft.Bytecode

open Typed (Expr Chain Call Append Lambda Frame VarDecl Stmt Block Arm)

/-- Whether control can go from an instruction to the next one. -/
def Opcode.continues : Opcode → Bool
  | .ret | .returnVal | .jump | .brk | .cont | .lambda => false
  | _ => true

/-- There is a lambda at a place of code, and its body ends at a distance from there. -/
def Encloses (code : List Piece) (j : Nat) (e : Int) : Prop :=
  ∃ q, code[j]? = some q ∧ q.op = .lambda ∧ q.goal = some (.ahead e)

/-- Whether a place is in the body of the lambda at another place. -/
def Within (j : Nat) (e : Int) (i : Int) : Prop := j < i ∧ i < j + e

/-- A place of code that is in no body of a lambda. -/
def Seam (code : List Piece) (k : Nat) : Prop := ∀ j e, Encloses code j e → ¬Within j e k

/-- Code whose goals and fall-throughs stay in their frames. -/
structure Nested (code : List Piece) : Prop where
  goals : ∀ {i : Nat} {q d}, code[i]? = some q → q.goal = some (.ahead d) →
    0 ≤ i + d ∧ i + d < code.length
  lambdas : ∀ {i : Nat} {q}, code[i]? = some q → q.op = .lambda → ∃ d : Nat,
    q.goal = some (.ahead (d + 2)) ∧ ∃ r, code[i + d + 1]? = some r ∧ r.op.isReturn
  jumps : ∀ {j e} {i : Nat} {q d}, Encloses code j e → code[i]? = some q → q.goal = some (.ahead d) →
    (Within j e i ↔ Within j e (i + d))
  falls : ∀ {j e} {i : Nat} {q}, Encloses code j e → code[i]? = some q → q.op.continues →
    (Within j e i ↔ Within j e (i + 1))
  waits : ∀ {j e} {i : Nat} {q}, Encloses code j e → code[i]? = some q → q.Waits → ¬Within j e i

variable {a b code : List Piece}

private theorem lt_length {i : Nat} {q : Piece} (h : code[i]? = some q) : i < code.length :=
  (List.getElem?_eq_some_iff.mp h).1

theorem encloses_append {j : Nat} {e : Int} :
    Encloses (a ++ b) j e ↔ Encloses a j e ∨ ∃ k, j = a.length + k ∧ Encloses b k e := by
  constructor
  · rintro ⟨q, hq, ho, hg⟩
    rcases getElem?_append_cases.mp hq with h | ⟨k, rfl, h⟩
    · exact .inl ⟨q, h, ho, hg⟩
    · exact .inr ⟨k, rfl, q, h, ho, hg⟩
  · rintro (⟨q, hq, ho, hg⟩ | ⟨k, rfl, q, hq, ho, hg⟩)
    · exact ⟨q, getElem?_append_cases.mpr (.inl hq), ho, hg⟩
    · exact ⟨q, getElem?_append_cases.mpr (.inr ⟨k, rfl, hq⟩), ho, hg⟩

/-- A seam stays one when more code follows. -/
theorem Seam.append {k : Nat} (h : Seam a k) (hk : k ≤ a.length) (b : List Piece) : Seam (a ++ b) k := by
  intro j e he hw
  rcases encloses_append.mp he with he | ⟨m, rfl, -⟩
  · exact h j e he hw
  · have := hw.1
    omega

/-- The body of a lambda ends before the code does. -/
theorem Nested.ends (h : Nested code) {j : Nat} {e : Int} (he : Encloses code j e) :
    j + e < code.length := by
  obtain ⟨q, hq, -, hg⟩ := he
  exact (h.goals hq hg).2

/-- Between two parts of code is a seam. -/
theorem Nested.seam (ha : Nested a) (b : List Piece) : Seam (a ++ b) a.length := by
  intro j e he hw
  rcases encloses_append.mp he with he | ⟨k, rfl, he⟩
  · have := ha.ends he
    have := hw.2
    omega
  · have := hw.1
    omega

theorem Nested.nil : Nested [] := by
  constructor <;> simp

theorem Nested.append (ha : Nested a) (hb : Nested b) : Nested (a ++ b) where
  goals := by
    intro i q d hq hg
    rw [List.length_append]
    rcases getElem?_append_cases.mp hq with h | ⟨k, rfl, h⟩
    · have := ha.goals h hg
      omega
    · have := hb.goals h hg
      omega
  lambdas := by
    intro i q hq ho
    rcases getElem?_append_cases.mp hq with h | ⟨k, rfl, h⟩
    · obtain ⟨d, hg, r, hr, hret⟩ := ha.lambdas h ho
      exact ⟨d, hg, r, getElem?_append_cases.mpr (.inl hr), hret⟩
    · obtain ⟨d, hg, r, hr, hret⟩ := hb.lambdas h ho
      exact ⟨d, hg, r, getElem?_append_cases.mpr (.inr ⟨k + d + 1, by omega, hr⟩), hret⟩
  jumps := by
    intro j e i q d he hq hg
    rcases getElem?_append_cases.mp hq with h | ⟨k, rfl, h⟩
    · rcases encloses_append.mp he with he₁ | ⟨m, rfl, he₂⟩
      · exact ha.jumps he₁ h hg
      · have := ha.goals h hg
        have := lt_length h
        simp only [Within]
        omega
    · rcases encloses_append.mp he with he₁ | ⟨m, rfl, he₂⟩
      · have := hb.goals h hg
        have := ha.ends he₁
        simp only [Within]
        omega
      · have := hb.jumps he₂ h hg
        simp only [Within] at this ⊢
        omega
  falls := by
    intro j e i q he hq hc
    rcases getElem?_append_cases.mp hq with h | ⟨k, rfl, h⟩
    · rcases encloses_append.mp he with he₁ | ⟨m, rfl, he₂⟩
      · exact ha.falls he₁ h hc
      · have := lt_length h
        simp only [Within]
        omega
    · rcases encloses_append.mp he with he₁ | ⟨m, rfl, he₂⟩
      · have := ha.ends he₁
        simp only [Within]
        omega
      · have := hb.falls he₂ h hc
        simp only [Within] at this ⊢
        omega
  waits := by
    intro j e i q he hq hw
    rcases getElem?_append_cases.mp hq with h | ⟨k, rfl, h⟩
    · rcases encloses_append.mp he with he₁ | ⟨m, rfl, he₂⟩
      · exact ha.waits he₁ h hw
      · have := lt_length h
        simp only [Within]
        omega
    · rcases encloses_append.mp he with he₁ | ⟨m, rfl, he₂⟩
      · have := ha.ends he₁
        simp only [Within]
        omega
      · have := hb.waits he₂ h hw
        simp only [Within] at this ⊢
        omega

/-- One instruction that leads nowhere yet. -/
theorem Nested.one {q : Piece} (ho : q.op ≠ .lambda) (hg : ∀ d, q.goal ≠ some (.ahead d)) :
    Nested [q] := by
  have hone : ∀ {i : Nat} {r : Piece}, [q][i]? = some r → r = q := by
    intro i r hr
    simpa using List.mem_of_getElem? hr
  have hno : ∀ {j e}, ¬Encloses [q] j e := by
    rintro j e ⟨r, hr, hro, -⟩
    rw [hone hr] at hro
    exact ho hro
  refine ⟨?_, ?_, ?_, ?_, ?_⟩
  · intro i r d hr hd
    rw [hone hr] at hd
    exact absurd hd (hg d)
  · intro i r hr hro
    rw [hone hr] at hro
    exact absurd hro ho
  · exact fun he => absurd he hno
  · exact fun he => absurd he hno
  · exact fun he => absurd he hno

theorem Nested.plain {op : Opcode} {line : Nat} {vs : List Int} (ho : op ≠ .lambda) :
    Nested [.plain op line vs] :=
  .one ho (by simp [Piece.plain])

theorem Nested.withConst {op : Opcode} {line : Nat} {vs : List Int} {v : Option Constant}
    (ho : op ≠ .lambda) : Nested [.withConst op line vs v] :=
  .one ho (by simp [Piece.withConst])

theorem Nested.mark {line : Nat} : Nested [.mark line] := .plain (by decide)

/-- Code with a mark after it. -/
theorem Nested.marked (h : Nested code) (line : Nat) : Nested (code ++ [Piece.mark line]) := h.append .mark

/-- Code with other goals at its seams, which lead to seams. -/
theorem Nested.retarget {code' : List Piece} (h : Nested code) (hlen : code'.length = code.length)
    (hsame : ∀ {i : Nat} {q'}, code'[i]? = some q' → ∃ q, code[i]? = some q ∧ q'.op = q.op ∧
      (q'.goal = q.goal ∨ q.op ≠ .lambda ∧ Seam code i ∧ ∀ d, q'.goal = some (.ahead d) →
        ∃ k : Nat, (k : Int) = i + d ∧ k < code.length ∧ Seam code k)) : Nested code' := by
  have hback : ∀ {j e}, Encloses code' j e → Encloses code j e := by
    rintro j e ⟨q', hq', ho, hg⟩
    obtain ⟨q, hq, hop, hgoal | ⟨hne, -⟩⟩ := hsame hq'
    · exact ⟨q, hq, hop ▸ ho, hgoal ▸ hg⟩
    · exact absurd (hop ▸ ho) hne
  refine ⟨?_, ?_, ?_, ?_, ?_⟩
  · intro i q' d hq' hd
    rw [hlen]
    obtain ⟨q, hq, -, hgoal | ⟨-, -, hk⟩⟩ := hsame hq'
    · exact h.goals hq (hgoal ▸ hd)
    · obtain ⟨k, hk, hlt, -⟩ := hk d hd
      omega
  · intro i q' hq' ho
    obtain ⟨q, hq, hop, hgoal | ⟨hne, -⟩⟩ := hsame hq'
    · obtain ⟨d, hg, r, hr, hret⟩ := h.lambdas hq (hop ▸ ho)
      have hlt := lt_length hr
      rw [← hlen] at hlt
      obtain ⟨r₂, hr₂, hop₂, -⟩ := hsame (List.getElem?_eq_getElem hlt)
      rw [hr] at hr₂
      obtain rfl := Option.some.inj hr₂
      exact ⟨d, hgoal ▸ hg, _, List.getElem?_eq_getElem hlt, hop₂ ▸ hret⟩
    · exact absurd (hop ▸ ho) hne
  · intro j e i q' d he hq' hd
    obtain ⟨q, hq, -, hgoal | ⟨-, hs, hk⟩⟩ := hsame hq'
    · exact h.jumps (hback he) hq (hgoal ▸ hd)
    · obtain ⟨k, hk, -, hs'⟩ := hk d hd
      rw [← hk]
      exact ⟨fun hw => absurd hw (hs j e (hback he)), fun hw => absurd hw (hs' j e (hback he))⟩
  · intro j e i q' he hq' hc
    obtain ⟨q, hq, hop, -⟩ := hsame hq'
    exact h.falls (hback he) hq (hop ▸ hc)
  · intro j e i q' he hq' hw
    obtain ⟨q, hq, -, hgoal | ⟨-, hs, -⟩⟩ := hsame hq'
    · refine h.waits (hback he) hq ?_
      simpa only [Piece.Waits, hgoal] using hw
    · exact hs j e (hback he)

section Jumps

variable {op : Opcode} {line k : Nat} {vs : List Int} {d : Int}

/-- The goal of a jump does not matter for the bodies of lambdas. -/
theorem seam_aim (d : Int) (ho : op ≠ .lambda) (h : Seam (a ++ Piece.plain op line vs :: b) k) :
    Seam (a ++ Piece.leading op line vs (.ahead d) :: b) k := by
  rintro j e ⟨q, hq, hop, hg⟩
  refine h j e ?_
  rcases (getElem?_middle (.plain op line vs)).mp hq with ⟨-, rfl⟩ | ⟨-, hq⟩
  · exact absurd hop ho
  · exact ⟨q, hq, hop, hg⟩

/-- A jump at a seam may lead to another seam. -/
theorem Nested.aim (h : Nested (a ++ Piece.plain op line vs :: b)) (ho : op ≠ .lambda)
    (hs : Seam (a ++ Piece.plain op line vs :: b) a.length) (hk : k < a.length + b.length + 1)
    (hd : (k : Int) = a.length + d) (ht : Seam (a ++ Piece.plain op line vs :: b) k) :
    Nested (a ++ Piece.leading op line vs (.ahead d) :: b) := by
  refine h.retarget (by simp) ?_
  intro i q' hq'
  rcases (getElem?_middle (.plain op line vs)).mp hq' with ⟨rfl, rfl⟩ | ⟨-, hq⟩
  · refine ⟨.plain op line vs, by simp, rfl, .inr ⟨ho, hs, ?_⟩⟩
    intro d' hd'
    obtain rfl : d = d' := by simpa [Piece.leading] using hd'
    exact ⟨k, hd, by simp; omega, ht⟩
  · exact ⟨q', hq, rfl, .inl rfl⟩

/-- The ends of a loop are seams of the code around it. -/
theorem Nested.settle (exit next : Nat) (h : Nested (a ++ b)) (he : exit < b.length)
    (hes : Seam (a ++ b) (a.length + exit)) (hn : next < b.length)
    (hns : Seam (a ++ b) (a.length + next)) : Nested (a ++ settleLoop exit next b) := by
  refine h.retarget (by simp [settleLoop]) ?_
  intro i q' hq'
  rcases getElem?_append_cases.mp hq' with hq | ⟨j, rfl, hq⟩
  · exact ⟨q', getElem?_append_cases.mpr (.inl hq), rfl, .inl rfl⟩
  · obtain ⟨q, hj, rfl⟩ := getElem?_settleLoop.mp hq
    have hq : (a ++ b)[a.length + j]? = some q := getElem?_append_cases.mpr (.inr ⟨j, rfl, hj⟩)
    by_cases hw : q.Waits
    · have hseam : Seam (a ++ b) (a.length + j) := fun m e hm => h.waits hm hq hw
      have hne : q.op ≠ .lambda := by
        intro hop
        obtain ⟨d, hg, -⟩ := h.lambdas hq hop
        rcases hw with hw | hw <;> simp [hw] at hg
      rcases hw with hw | hw
      · rw [goal_settle_exit hw]
        refine ⟨q, hq, rfl, .inr ⟨hne, hseam, ?_⟩⟩
        intro d hd
        simp only [Option.some.injEq, Goal.ahead.injEq] at hd
        exact ⟨a.length + exit, by omega, by simp; omega, hes⟩
      · rw [goal_settle_next hw]
        refine ⟨q, hq, rfl, .inr ⟨hne, hseam, ?_⟩⟩
        intro d hd
        simp only [Option.some.injEq, Goal.ahead.injEq] at hd
        exact ⟨a.length + next, by omega, by simp; omega, hns⟩
    · rw [settle_of_not_waits hw]
      exact ⟨q, hq, rfl, .inl rfl⟩

/-- Code that an instruction before it can skip. -/
theorem Nested.skip (ha : Nested a) (hb : Nested b) (ho : op ≠ .lambda) (line : Nat) (vs : List Int)
    (line' : Nat) :
    Nested (a ++ Piece.leading op line vs (.ahead (b.length + 1)) :: (b ++ [Piece.mark line'])) := by
  have hfront : Nested (a ++ Piece.plain op line vs :: b) := ha.append ((Nested.plain ho).append hb)
  have hall : Nested (a ++ Piece.plain op line vs :: (b ++ [Piece.mark line'])) := by
    simpa using hfront.marked line'
  refine hall.aim (k := a.length + b.length + 1) ho (ha.seam _) (by simp) (by omega) ?_
  have := hfront.seam [.mark line']
  simpa [Nat.add_assoc] using this

end Jumps

/-! ### Frames -/

/-- Code in which nothing waits for the end of a loop. -/
def Idle (code : List Piece) : Prop := ∀ q ∈ code, ¬q.Waits

theorem Idle.append (ha : Idle a) (hb : Idle b) : Idle (a ++ b) := by
  intro q hq
  rcases List.mem_append.mp hq with hq | hq
  · exact ha q hq
  · exact hb q hq

theorem Idle.cons {q : Piece} (hq : ¬q.Waits) (hb : Idle b) : Idle (q :: b) := by
  intro r hr
  rcases List.mem_cons.mp hr with rfl | hr
  · exact hq
  · exact hb r hr

theorem Idle.nil : Idle [] := by simp [Idle]

@[simp]
theorem not_waits_plain {op : Opcode} {line : Nat} {vs : List Int} : ¬(Piece.plain op line vs).Waits := by
  simp [Piece.Waits, Piece.plain]

@[simp]
theorem not_waits_mark {line : Nat} : ¬(Piece.mark line).Waits := not_waits_plain

@[simp]
theorem not_waits_withConst {op : Opcode} {line : Nat} {vs : List Int} {v : Option Constant} :
    ¬(Piece.withConst op line vs v).Waits := by
  simp [Piece.Waits, Piece.withConst]

@[simp]
theorem not_waits_ahead {op : Opcode} {line : Nat} {vs : List Int} {d : Int} :
    ¬(Piece.leading op line vs (.ahead d)).Waits := by
  simp [Piece.Waits, Piece.leading]

theorem not_waits_alone (q : Piece) : ¬q.alone.Waits := by
  unfold Piece.alone
  split
  · simp [Piece.Waits]
  · simp [Piece.Waits]
  · next h1 h2 =>
    rintro (h | h)
    · exact h1 h
    · exact h2 h

theorem Piece.op_alone (q : Piece) : q.alone.op = q.op := by
  unfold Piece.alone
  split <;> rfl

theorem idle_closeCode (code : List Piece) (line : Nat) : Idle (closeCode line code) := by
  refine Idle.append ?_ ?_
  · intro q hq
    obtain ⟨r, -, rfl⟩ := List.mem_map.mp hq
    exact not_waits_alone r
  · split
    · exact .nil
    · exact .cons not_waits_plain .nil

/-- Closed code ends in a return. -/
theorem closeCode_last (code : List Piece) (line : Nat) : ∃ x r, closeCode line code = x ++ [r] ∧ r.op.isReturn := by
  unfold closeCode
  by_cases h : code.getLast?.any (·.op.isReturn) = true
  · obtain ⟨q, hq, hret⟩ : ∃ q, code.getLast? = some q ∧ q.op.isReturn := by
      cases hlast : code.getLast? with
      | none => simp [hlast] at h
      | some q => exact ⟨q, rfl, by simpa [hlast] using h⟩
    obtain ⟨x, rfl⟩ := List.getLast?_eq_some_iff.mp hq
    refine ⟨x.map Piece.alone, q.alone, by simp [hret], ?_⟩
    rw [Piece.op_alone]
    exact hret
  · exact ⟨code.map Piece.alone, .plain .ret line [], by simp [h], rfl⟩

theorem nested_closeCode (h : Nested code) (line : Nat) : Nested (closeCode line code) := by
  have halone : Nested (code.map Piece.alone) := by
    refine h.retarget (by simp) ?_
    intro i q' hq'
    rw [List.getElem?_map, Option.map_eq_some_iff] at hq'
    obtain ⟨q, hq, rfl⟩ := hq'
    refine ⟨q, hq, q.op_alone, ?_⟩
    by_cases hw : q.Waits
    · refine .inr ⟨?_, fun j e he => h.waits he hq hw, ?_⟩
      · intro hop
        obtain ⟨d, hg, -⟩ := h.lambdas hq hop
        rcases hw with hw | hw <;> simp [hw] at hg
      · intro d hd
        have hzero : d = 0 := by rcases hw with hw | hw <;> simpa [Piece.alone, hw, eq_comm] using hd
        exact ⟨i, by omega, lt_length hq, fun j e he => h.waits he hq hw⟩
    · rw [alone_of_not_waits hw]
      exact .inl rfl
  unfold closeCode
  split
  · simpa using halone
  · exact halone.append (.plain (by decide))

/-- The body of a lambda is skipped, and control cannot run past its end. -/
theorem Nested.lambda (line : Nat) {x : List Piece} {r : Piece} (h : Nested (x ++ [r]))
    (hi : Idle (x ++ [r])) (hr : r.op.isReturn) :
    Nested (Piece.leading .lambda line [0] (.ahead (x.length + 2)) :: (x ++ [r] ++ [Piece.mark line])) := by
  have hreturn : r.op.continues = false := by
    revert hr
    cases r.op <;> simp [Opcode.isReturn, Opcode.continues]
  -- an instruction is the head, one of the body, or the mark after it
  have hplace : ∀ {i : Nat} {q : Piece},
      (Piece.leading .lambda line [0] (.ahead (x.length + 2)) :: (x ++ [r] ++ [Piece.mark line]))[i]? = some q →
      i = 0 ∧ q = .leading .lambda line [0] (.ahead (x.length + 2)) ∨
      (∃ k, i = k + 1 ∧ k < x.length + 1 ∧ (x ++ [r])[k]? = some q) ∨
      i = x.length + 2 ∧ q = .mark line := by
    intro i q hq
    cases i with
    | zero => exact .inl ⟨rfl, by simpa using hq.symm⟩
    | succ k =>
      rw [List.getElem?_cons_succ] at hq
      rcases getElem?_append_cases.mp hq with hk | ⟨m, rfl, hm⟩
      · exact .inr (.inl ⟨k, rfl, by simpa using lt_length hk, hk⟩)
      · cases m with
        | zero => exact .inr (.inr ⟨by simp, by simpa using hm.symm⟩)
        | succ m => simp at hm
  have hencl : ∀ {j e}, Encloses
      (Piece.leading .lambda line [0] (.ahead (x.length + 2)) :: (x ++ [r] ++ [Piece.mark line])) j e →
      j = 0 ∧ e = x.length + 2 ∨ ∃ k, j = k + 1 ∧ Encloses (x ++ [r]) k e := by
    rintro j e ⟨q, hq, ho, hg⟩
    rcases hplace hq with ⟨rfl, rfl⟩ | ⟨k, rfl, -, hk⟩ | ⟨-, rfl⟩
    · exact .inl ⟨rfl, by simpa [Piece.leading, eq_comm] using hg⟩
    · exact .inr ⟨k, rfl, q, hk, ho, hg⟩
    · simp [Piece.mark, Piece.plain] at ho
  have hidle : ∀ {i : Nat} {q : Piece},
      (Piece.leading .lambda line [0] (.ahead (x.length + 2)) :: (x ++ [r] ++ [Piece.mark line]))[i]? = some q →
      ¬q.Waits := by
    intro i q hq
    exact Idle.cons not_waits_ahead (hi.append (.cons not_waits_mark .nil)) q (List.mem_of_getElem? hq)
  have hlen : (x ++ [r]).length = x.length + 1 := by simp
  refine ⟨?_, ?_, ?_, ?_, ?_⟩
  · intro i q d hq hg
    simp only [List.length_cons, List.length_append, List.length_nil]
    rcases hplace hq with ⟨rfl, rfl⟩ | ⟨k, rfl, -, hk⟩ | ⟨-, rfl⟩
    · simp only [Piece.leading, Option.some.injEq, Goal.ahead.injEq] at hg
      omega
    · have := h.goals hk hg
      omega
    · simp [Piece.mark, Piece.plain] at hg
  · intro i q hq ho
    rcases hplace hq with ⟨rfl, rfl⟩ | ⟨k, rfl, -, hk⟩ | ⟨-, rfl⟩
    · refine ⟨x.length, rfl, r, ?_, hr⟩
      simp
    · obtain ⟨d, hg, r', hr', hret⟩ := h.lambdas hk ho
      refine ⟨d, hg, r', ?_, hret⟩
      have : k + 1 + d + 1 = k + d + 1 + 1 := by omega
      rw [this, List.getElem?_cons_succ]
      exact getElem?_append_cases.mpr (.inl hr')
    · simp [Piece.mark, Piece.plain] at ho
  · intro j e i q d he hq hg
    rcases hplace hq with ⟨rfl, rfl⟩ | ⟨k, rfl, hlt, hk⟩ | ⟨-, rfl⟩
    · simp only [Piece.leading, Option.some.injEq, Goal.ahead.injEq] at hg
      rcases hencl he with ⟨rfl, rfl⟩ | ⟨m, rfl, hm⟩
      · simp only [Within]
        omega
      · have := h.ends hm
        simp only [Within]
        omega
    · have hgoal := h.goals hk hg
      rcases hencl he with ⟨rfl, rfl⟩ | ⟨m, rfl, hm⟩
      · simp only [Within]
        omega
      · have := h.jumps hm hk hg
        simp only [Within] at this ⊢
        omega
    · simp [Piece.mark, Piece.plain] at hg
  · intro j e i q he hq hc
    rcases hplace hq with ⟨rfl, rfl⟩ | ⟨k, rfl, hlt, hk⟩ | ⟨rfl, -⟩
    · simp [Piece.leading, Opcode.continues] at hc
    · rcases hencl he with ⟨rfl, rfl⟩ | ⟨m, rfl, hm⟩
      · have hne : k ≠ x.length := by
          rintro rfl
          obtain rfl : r = q := by simpa using hk
          simp [hreturn] at hc
        simp only [Within]
        omega
      · have := h.falls hm hk hc
        simp only [Within] at this ⊢
        omega
    · rcases hencl he with ⟨rfl, rfl⟩ | ⟨m, rfl, hm⟩
      · simp only [Within]
        omega
      · have := h.ends hm
        simp only [Within]
        omega
  · exact fun _ hq hw => absurd hw (hidle hq)

/-! ### Blocks -/

section Blocks

variable {test body post : List Piece} {line : Nat}

theorem nested_groupCode {keep : Bool} {number : Int} (h : Nested body) :
    Nested (groupCode keep line number body) := by
  unfold groupCode
  cases keep with
  | true => simpa using Nested.nil.skip h (by decide) line [number, 0] line
  | false => simpa using Nested.mark.append (h.append .mark)

/-- A jump back to the start of code, and a jump over it that stands in the code. -/
private theorem nested_round (line : Nat) {x y : List Piece} (hx : Nested x) (hy : Nested y) :
    Nested (x ++ Piece.leading .jumpZ line [0] (.ahead (y.length + 2)) :: (y ++
      [Piece.leading .jump line [0] (.ahead (-(x.length + y.length + 1 : Int))), Piece.mark line])) := by
  have hopen : Nested (x ++ Piece.plain .jumpZ line [0] :: y) :=
    hx.append ((Nested.plain (by decide)).append hy)
  have hback : Nested (x ++ Piece.plain .jumpZ line [0] :: y ++
      [Piece.leading .jump line [0] (.ahead (-(x.length + y.length + 1 : Int)))]) := by
    refine (hopen.append (.plain (by decide))).aim (k := 0) (by decide) (hopen.seam _) (by omega)
      (by simp; omega) ?_
    intro j e _ hw
    have := hw.1
    omega
  have hall : Nested (x ++ Piece.plain .jumpZ line [0] :: (y ++
      [Piece.leading .jump line [0] (.ahead (-(x.length + y.length + 1 : Int))), Piece.mark line])) := by
    simpa using hback.marked line
  have hexit := hback.seam [.mark line]
  refine hall.aim (k := x.length + (y.length + 2)) (by decide) (hx.seam _) (by simp) (by omega) ?_
  simpa [Nat.add_assoc] using hexit

private theorem seam_round {x y : List Piece} {k : Nat} (d d' : Int)
    (hs : Seam (x ++ Piece.plain .jumpZ line [0] :: y) k) (hk : k ≤ x.length + y.length + 1) :
    Seam (x ++ Piece.leading .jumpZ line [0] (.ahead d) :: (y ++
      [Piece.leading .jump line [0] (.ahead d'), Piece.mark line])) k := by
  have := (seam_aim d (by decide) hs).append (by simp; omega)
    [.leading .jump line [0] (.ahead d'), .mark line]
  simpa using this

private theorem seam_round_exit (line : Nat) (d d' : Int) {x y : List Piece} (hx : Nested x)
    (hy : Nested y) :
    Seam (x ++ Piece.leading .jumpZ line [0] (.ahead d) :: (y ++
      [Piece.leading .jump line [0] (.ahead d'), Piece.mark line])) (x.length + y.length + 2) := by
  have hopen : Nested (x ++ Piece.plain .jumpZ line [0] :: (y ++ [Piece.plain .jump line [0]])) :=
    hx.append ((Nested.plain (by decide)).append (hy.append (.plain (by decide))))
  have hplain : Seam (x ++ Piece.plain .jumpZ line [0] :: (y ++ [Piece.plain .jump line [0], Piece.mark line]))
      (x.length + y.length + 2) := by
    simpa [Nat.add_assoc] using hopen.seam [Piece.mark line]
  have hfirst : Seam ((x ++ Piece.leading .jumpZ line [0] (.ahead d) :: y) ++ Piece.plain .jump line [0] :: [Piece.mark line])
      (x.length + y.length + 2) := by
    simpa using seam_aim d (by decide) hplain
  simpa using seam_aim d' (by decide) hfirst

theorem nested_whileCode (ht : Nested test) (hb : Nested body) (hp : Nested post) :
    Nested (whileCode line test body post) := by
  have htop : Nested (Piece.mark line :: test) := Nested.mark.append ht
  have hloop : Nested (body ++ Piece.mark line :: post) := hb.append (Nested.mark.append hp)
  have hbody : Nested (Piece.mark line :: test ++ Piece.plain .jumpZ line [0] :: body) :=
    htop.append ((Nested.plain (by decide)).append hb)
  have hd : ((body ++ Piece.mark line :: post).length + 2 : Int) = body.length + post.length + 3 := by
    simp
    omega
  have hd' : -((Piece.mark line :: test).length + (body ++ Piece.mark line :: post).length + 1 : Int) =
      -(test.length + body.length + post.length + 3 : Int) := by
    simp
    omega
  have hround := nested_round line htop hloop
  have hexit := seam_round_exit line (body.length + post.length + 3)
    (-(test.length + body.length + post.length + 3 : Int)) htop hloop
  have hstep : Seam (Piece.mark line :: test ++ Piece.plain .jumpZ line [0] :: (body ++ Piece.mark line :: post))
      (Piece.mark line :: test ++ Piece.plain .jumpZ line [0] :: body).length := by
    simpa using hbody.seam (Piece.mark line :: post)
  have hnext := seam_round (body.length + post.length + 3)
    (-(test.length + body.length + post.length + 3 : Int)) hstep (by simp; omega)
  rw [hd, hd'] at hround
  have hsettle := Nested.settle (body.length + post.length + 2) body.length
    (a := Piece.mark line :: test ++ [Piece.leading .jumpZ line [0] (.ahead (body.length + post.length + 3))])
    (by simpa using hround) (by simp; omega) ?_ (by simp) ?_
  · simpa [whileCode] using hsettle
  · have hn : (Piece.mark line :: test ++ [Piece.leading .jumpZ line [0]
        (.ahead (body.length + post.length + 3))]).length + (body.length + post.length + 2) =
        (Piece.mark line :: test).length + (body ++ Piece.mark line :: post).length + 2 := by
      simp
      omega
    rw [hn]
    simpa using hexit
  · have hn : (Piece.mark line :: test ++ [Piece.leading .jumpZ line [0]
        (.ahead (body.length + post.length + 3))]).length + body.length =
        (Piece.mark line :: test ++ Piece.plain .jumpZ line [0] :: body).length := by
      simp
      omega
    rw [hn]
    simpa using hnext

theorem nested_doCode (hb : Nested body) (ht : Nested test) : Nested (doCode line body test) := by
  have hbody : Nested (Piece.mark line :: body) := Nested.mark.append hb
  have hloop : Nested (Piece.mark line :: body ++ Piece.mark line :: test) := hbody.append (Nested.mark.append ht)
  have hd' : -((Piece.mark line :: body ++ Piece.mark line :: test).length + ([] : List Piece).length + 1 : Int) =
      -(body.length + test.length + 3 : Int) := by
    simp
    omega
  have hround := nested_round line hloop .nil
  have hexit := seam_round_exit line 2 (-(body.length + test.length + 3 : Int)) hloop .nil
  have hstep : Seam (Piece.mark line :: body ++ Piece.mark line :: test ++ Piece.plain .jumpZ line [0] :: [])
      (Piece.mark line :: body).length := by
    simpa using hbody.seam (Piece.mark line :: (test ++ [Piece.plain .jumpZ line [0]]))
  have hnext := seam_round 2 (-(body.length + test.length + 3 : Int)) hstep (by simp; omega)
  rw [hd'] at hround
  have hsettle := Nested.settle (body.length + test.length + 3) body.length (a := [.mark line])
    (by simpa using hround) (by simp; omega) ?_ (by simp) ?_
  · simpa [doCode] using hsettle
  · have hn : [Piece.mark line].length + (body.length + test.length + 3) =
        (Piece.mark line :: body ++ Piece.mark line :: test).length + ([] : List Piece).length + 2 := by
      simp
      omega
    rw [hn]
    simpa using hexit
  · have hn : [Piece.mark line].length + body.length = (Piece.mark line :: body).length := by
      simp
      omega
    rw [hn]
    simpa using hnext

/-- The last place of code is a seam. -/
theorem Nested.seam_last (h : Nested (a ++ b)) {q : Piece} (hb : b = [q]) : Seam (a ++ b) a.length := by
  intro j e he hw
  have := h.ends he
  have := hw.2
  simp only [hb, List.length_append, List.length_singleton] at *
  omega

/-- A branch of a condition before the rest of its code. -/
theorem nested_armCode (line testLine bodyLine : Nat) (leaves : Bool) {stopLine : Nat} {rest : List Piece}
    (ht : Nested test) (hb : Nested body) (hr : Nested (rest ++ [Piece.mark stopLine])) :
    Nested (armCode line testLine test body
      (leaveCode leaves bodyLine (some (.ahead (rest.length + 2)))) ++ (rest ++ [Piece.mark stopLine])) := by
  cases leaves with
  | false =>
    have harm := ht.skip hb (show Opcode.jumpZ ≠ .lambda by decide) testLine [0] line
    simpa [armCode, leaveCode] using harm.append hr
  | true =>
    have hjump : Nested (body ++ [Piece.plain .jump bodyLine [0]]) := hb.append (.plain (by decide))
    have harm := ht.skip hjump (show Opcode.jumpZ ≠ .lambda by decide) testLine [0] line
    have hall := harm.append hr
    have hfront : Nested (test ++ Piece.plain .jumpZ testLine [0] :: body) :=
      ht.append ((Nested.plain (by decide)).append hb)
    let front := test ++ Piece.leading .jumpZ testLine [0] (.ahead (body.length + 1 + 1)) :: body
    have hopen : Nested (front ++ Piece.plain .jump bodyLine [0] :: (Piece.mark line :: (rest ++ [Piece.mark stopLine]))) := by
      simpa [front] using hall
    have hseam : Seam (front ++ Piece.plain .jump bodyLine [0] :: (Piece.mark line :: (rest ++ [Piece.mark stopLine])))
        front.length := by
      have hplain : Seam (test ++ Piece.plain .jumpZ testLine [0] :: (body ++ Piece.plain .jump bodyLine [0] ::
          Piece.mark line :: (rest ++ [Piece.mark stopLine]))) (test ++ Piece.plain .jumpZ testLine [0] :: body).length := by
        simpa using hfront.seam (Piece.plain .jump bodyLine [0] :: Piece.mark line :: (rest ++ [Piece.mark stopLine]))
      simpa [front] using seam_aim (body.length + 1 + 1) (by decide) hplain
    have hend : Seam (front ++ Piece.plain .jump bodyLine [0] :: (Piece.mark line :: (rest ++ [Piece.mark stopLine])))
        (front.length + (rest.length + 2)) := by
      have := Nested.seam_last (a := front ++ Piece.plain .jump bodyLine [0] :: Piece.mark line :: rest)
        (b := [Piece.mark stopLine]) (by simpa using hopen) rfl
      simpa using this
    have := hopen.aim (d := rest.length + 2) (by decide) hseam (by simp) (by simp) hend
    simpa [armCode, leaveCode, front, Piece.leading] using this

end Blocks

/-! ### Trees -/

section Trees

variable {c : Store × Module}

/-- An instruction that has no offset, leads nowhere and does not return. -/
def Piece.Simple (q : Piece) : Prop := q.goal = none ∧ q.op.offsetOperand? = none ∧ q.op.isReturn = false

theorem simple_plain {op : Opcode} {line : Nat} {vs : List Int} (h : op.offsetOperand? = none ∧ op.isReturn = false) :
    (Piece.plain op line vs).Simple := ⟨rfl, h⟩

theorem simple_withConst {op : Opcode} {line : Nat} {vs : List Int} {v : Option Constant}
    (h : op.offsetOperand? = none ∧ op.isReturn = false) : (Piece.withConst op line vs v).Simple := ⟨rfl, h⟩

theorem Piece.Simple.calling {q : Piece} (h : q.Simple) (f : Option FuncId) : (q.calling f).Simple := h

theorem Piece.Simple.not_lambda {q : Piece} (h : q.Simple) : q.op ≠ .lambda := by
  intro hop
  have := h.2.1
  simp [hop, Opcode.offsetOperand?, Opcode.isJump] at this

theorem Idle.ofSimple (h : ∀ q ∈ code, q.Simple) : Idle code := by
  intro q hq hw
  have := (h q hq).1
  rcases hw with hw | hw <;> simp [hw] at this

theorem Nested.ofSimple (h : ∀ q ∈ code, q.Simple) : Nested code := by
  induction code with
  | nil => exact .nil
  | cons q code ih =>
    have hq := h q (by simp)
    exact (Nested.one hq.not_lambda (by simp [hq.1])).append (ih fun r hr => h r (by simp [hr]))

/-- An access is some simple instructions, with the code of its children among them unless it is a leaf. -/
theorem accessCode_shape (line : Nat) (acc : Typed.Access) (bits : Int) (kids : List Piece) :
    ∃ x y : List Piece, (∀ q ∈ x, q.Simple) ∧ (∀ q ∈ y, q.Simple) ∧
      accessCode c line acc bits kids = x ++ (if acc.isLeaf then [] else kids) ++ y := by
  have after : ∀ {q : Piece}, q.Simple → ∃ x y : List Piece, (∀ r ∈ x, r.Simple) ∧ (∀ r ∈ y, r.Simple) ∧
      kids ++ [q] = x ++ kids ++ y :=
    fun {q} hq => ⟨[], [q], by simp, by simpa using hq, rfl⟩
  have alone : ∀ {q : Piece}, q.Simple → ∃ x y : List Piece, (∀ r ∈ x, r.Simple) ∧ (∀ r ∈ y, r.Simple) ∧
      [q] = x ++ [] ++ y :=
    fun {q} hq => ⟨[q], [], by simpa using hq, by simp, rfl⟩
  have global : ∀ g own imported, own.offsetOperand? = none ∧ own.isReturn = false →
      imported.offsetOperand? = none ∧ imported.isReturn = false → ∃ q : Piece, q.Simple ∧ globalCode c line g own imported = [q] := by
    intro g own imported ho hi
    by_cases hm : (c.1.global g).module = "" ∨ (c.1.global g).module = c.2.name
    · exact ⟨_, simple_plain ho, by unfold globalCode; exact if_pos hm⟩
    · exact ⟨_, simple_withConst hi, by unfold globalCode; exact if_neg hm⟩
  cases acc with
  | readGlobal g =>
    obtain ⟨q, hq, he⟩ := global g .getGlobal .getImported (by decide) (by decide)
    simp only [accessCode, he]
    exact alone hq
  | writeGlobal g =>
    obtain ⟨q, hq, he⟩ := global g .setGlobal .setImported (by decide) (by decide)
    simp only [accessCode, he]
    exact after hq
  | func f =>
    simp only [accessCode, callFuncCode]
    split
    · exact after (simple_plain (by decide))
    · refine ⟨[_], [_], ?_, ?_, rfl⟩
      · simpa using (simple_withConst (by decide)).calling _
      · simpa using (simple_plain (by decide)).calling _
  | readField f =>
    simp only [accessCode]
    split
    · exact alone (simple_plain (by decide))
    · exact alone (simple_plain (by decide))
  | funcRef f =>
    simp only [accessCode]
    split
    · exact alone (simple_plain (by decide))
    · exact alone (simple_withConst (by decide))
  | method f =>
    simp only [accessCode]
    split
    · exact after (simple_plain (by decide))
    · exact after (simple_withConst (by decide))
  | methodIface f => exact after (simple_withConst (by decide))
  | readVar | varRef | readNative => exact alone (simple_plain (by decide))
  | _ => exact after (simple_plain (by decide))

theorem idle_accessCode {line : Nat} {acc : Typed.Access} {bits : Int} {kids : List Piece} (h : Idle kids) :
    Idle (accessCode c line acc bits kids) := by
  obtain ⟨x, y, hx, hy, he⟩ := accessCode_shape (c := c) line acc bits kids
  rw [he]
  refine ((Idle.ofSimple hx).append ?_).append (.ofSimple hy)
  split
  · exact .nil
  · exact h

theorem nested_accessCode {line : Nat} {acc : Typed.Access} {bits : Int} {kids : List Piece}
    (h : Nested kids) : Nested (accessCode c line acc bits kids) := by
  obtain ⟨x, y, hx, hy, he⟩ := accessCode_shape (c := c) line acc bits kids
  rw [he]
  refine ((Nested.ofSimple hx).append ?_).append (.ofSimple hy)
  split
  · exact .nil
  · exact h

theorem not_waits_argPiece {line : Nat} {v : LocalVar} : ¬(argPiece line v).Waits := not_waits_plain

mutual

/-- Nothing in an expression waits for the end of a loop around it. -/
theorem idle_expr : (x : Expr) → Idle (exprCode c x)
  | .literal line v _ => by
    rw [exprCode]
    exact .cons not_waits_withConst .nil
  | .unary _ _ _ x => (idle_expr x).append (.cons not_waits_plain .nil)
  | .binary line op _ x y => by
    simp only [exprCode]
    split
    · exact (idle_expr x).append (.cons not_waits_ahead ((idle_expr y).append (.cons not_waits_mark .nil)))
    · exact ((idle_expr x).append (idle_expr y)).append (.cons not_waits_plain .nil)
  | .chain ⟨_, _, _, links⟩ => by
    rw [exprCode]
    exact idle_exprs links
  | .call x => by
    rw [exprCode]
    exact idle_call x
  | .cast line kind t x => by
    rw [exprCode]
    exact (idle_expr x).append (.cons not_waits_withConst .nil)
  | .new line t inits => by
    rw [exprCode]
    exact .cons not_waits_withConst (idle_calls inits)
  | .collection line t items => by
    rw [exprCode]
    exact .cons not_waits_withConst (idle_appends items)
  | .lambda fn => by
    rw [exprCode]
    exact idle_lambda fn

theorem idle_exprs : (xs : List Expr) → Idle (exprsCode c xs)
  | [] => .nil
  | x :: xs => (idle_expr x).append (idle_exprs xs)

theorem idle_call : (x : Call) → Idle (callCode c x)
  | ⟨_, _, _, _, _, _, children⟩ => idle_accessCode (idle_exprs children)

theorem idle_calls : (xs : List Call) → Idle (callsCode c xs)
  | [] => .nil
  | x :: xs => (idle_call x).append (idle_calls xs)

theorem idle_appends : (xs : List Append) → Idle (appendsCode c xs)
  | [] => .nil
  | .element _ x :: rest => (idle_expr x).append (.cons not_waits_plain (idle_appends rest))
  | .entry _ k v :: rest =>
    ((idle_expr k).append (idle_expr v)).append (.cons not_waits_plain (idle_appends rest))

theorem idle_lambda : (x : Lambda) → Idle (lambdaCode c x)
  | ⟨_, _, upvals, ⟨_, ps, _, _⟩⟩ => by
    rw [lambdaCode]
    refine .cons not_waits_ahead (.append (.cons not_waits_plain ?_) (.cons not_waits_mark ?_))
    · exact (idle_params ps).append (idle_closeCode _ _)
    · intro q hq
      obtain ⟨u, -, rfl⟩ := List.mem_map.mp hq
      exact not_waits_plain

theorem idle_params {first i : Nat} : (ps : List VarDecl) → Idle (paramsCode c first i ps)
  | [] => .nil
  | ⟨_, _, none⟩ :: rest => (idle_params rest).append (.cons not_waits_argPiece .nil)
  | ⟨_, _, some x⟩ :: rest =>
    (idle_params rest).append (.cons not_waits_ahead
      ((idle_expr x).append (.cons not_waits_mark (.cons not_waits_argPiece .nil))))

end

theorem nested_argPiece {line : Nat} {v : LocalVar} : Nested [argPiece line v] :=
  .plain (by cases v.ref <;> decide)

mutual

/-- The goals of an expression stay inside their frames. -/
theorem nested_expr : (x : Expr) → Nested (exprCode c x)
  | .literal _ _ _ => .withConst (by decide)
  | .unary _ op _ x => (nested_expr x).append (.plain (by cases op <;> decide))
  | .binary _ op _ x y => by
    have hop : Lower.binaryOpcode op ≠ .lambda := by cases op <;> decide
    simp only [exprCode]
    split
    · exact (nested_expr x).skip (nested_expr y) hop _ _ _
    · exact ((nested_expr x).append (nested_expr y)).append (.plain hop)
  | .chain ⟨_, _, _, links⟩ => nested_exprs links
  | .call x => nested_call x
  | .cast _ kind _ x => (nested_expr x).append (.withConst (by cases kind <;> decide))
  | .new _ _ inits => (Nested.withConst (by decide)).append (nested_calls inits)
  | .collection _ _ items => (Nested.withConst (by decide)).append (nested_appends items)
  | .lambda fn => nested_lambda fn

theorem nested_exprs : (xs : List Expr) → Nested (exprsCode c xs)
  | [] => .nil
  | x :: xs => (nested_expr x).append (nested_exprs xs)

theorem nested_call : (x : Call) → Nested (callCode c x)
  | ⟨_, _, _, _, _, _, children⟩ => nested_accessCode (nested_exprs children)

theorem nested_calls : (xs : List Call) → Nested (callsCode c xs)
  | [] => .nil
  | x :: xs => (nested_call x).append (nested_calls xs)

theorem nested_appends : (xs : List Append) → Nested (appendsCode c xs)
  | [] => .nil
  | .element _ x :: rest => (nested_expr x).append ((Nested.plain (by decide)).append (nested_appends rest))
  | .entry _ k v :: rest =>
    ((nested_expr k).append (nested_expr v)).append ((Nested.plain (by decide)).append (nested_appends rest))

theorem nested_lambda : (x : Lambda) → Nested (lambdaCode c x)
  | ⟨line, _, upvals, ⟨slots, ps, bodyLine, body⟩⟩ => by
    have hframe : Nested (.plain .initFrame line [(slots : Int)] ::
        paramsCode c (Lower.firstDefault ps) 0 ps) :=
      (Nested.plain (by decide)).append (nested_params ps)
    have hidle : Idle (.plain .initFrame line [(slots : Int)] ::
        paramsCode c (Lower.firstDefault ps) 0 ps) := .cons not_waits_plain (idle_params ps)
    let last := Lower.lastLine ⟨slots, ps, bodyLine, body⟩
    have hbody : Nested (closeCode last (stmtsCode c false body)) := nested_closeCode (nested_stmts body) last
    obtain ⟨x, r, he, hr⟩ := closeCode_last (stmtsCode c false body) last
    have hclosed := idle_closeCode (stmtsCode c false body) last
    rw [he] at hbody hclosed
    have hups : Nested (upvals.map fun u => Piece.plain .useUpval line
        [(u.src : Int), u.dst, if u.copied then 0 else 1]) := by
      refine .ofSimple ?_
      intro q hq
      obtain ⟨u, -, rfl⟩ := List.mem_map.mp hq
      exact simple_plain (by decide)
    have hlambda := Nested.lambda line
      (x := Piece.plain .initFrame line [(slots : Int)] :: (paramsCode c (Lower.firstDefault ps) 0 ps ++ x))
      (by simpa using hframe.append hbody) (by simpa using hidle.append hclosed) hr
    rw [lambdaCode, he]
    simpa [Int.add_assoc] using hlambda.append hups

theorem nested_params {first i : Nat} : (ps : List VarDecl) → Nested (paramsCode c first i ps)
  | [] => .nil
  | ⟨_, _, none⟩ :: rest => (nested_params rest).append nested_argPiece
  | ⟨line, v, some x⟩ :: rest => by
    have hrest : Nested (paramsCode c first (i + 1) rest) := nested_params rest
    have hskip := hrest.skip (nested_expr x) (show Opcode.defArg ≠ .lambda by decide) line
      [(i : Int) - first, 0] line
    have harg : Nested [argPiece line v] := nested_argPiece
    rw [paramsCode]
    simpa using hskip.append harg

theorem nested_stmt {under : Bool} : (x : Stmt) → Nested (stmtCode c under x)
  | .expr x => nested_expr x
  | .discard _ _ x => by
    rw [stmtCode]
    refine (nested_expr x).append (.ofSimple ?_)
    intro q hq
    rw [List.eq_of_mem_replicate hq]
    exact simple_plain (by decide)
  | .var ⟨_, _, none⟩ => .withConst (by decide)
  | .var ⟨_, _, some x⟩ => (nested_expr x).append (.plain (by decide))
  | .ret _ n values => by
    rw [stmtCode]
    refine (nested_exprs values).append ?_
    split
    · exact .plain (by decide)
    · exact .plain (by decide)
  | .brk _ => .one (by simp [Piece.leading]) (by simp [Piece.leading])
  | .cont _ => .one (by simp [Piece.leading]) (by simp [Piece.leading])
  | .yield _ => .plain (by decide)
  | .block b => nested_block b

theorem nested_stmts {under : Bool} : (xs : List Stmt) → Nested (stmtsCode c under xs)
  | [] => .nil
  | x :: xs => (nested_stmt x).append (nested_stmts xs)

theorem nested_branches : (xs : List Stmt) → Nested (branchesCode c xs)
  | [] => .nil
  | x :: xs => by
    rw [branchesCode]
    split
    · exact (nested_stmt x).append (nested_branches xs)
    · exact (nested_groupCode (nested_stmt x)).append (nested_branches xs)

theorem nested_block {under : Bool} : (b : Block) → Nested (blockCode c under b)
  | .group line kind ss => by
    rw [blockCode]
    split
    · exact nested_groupCode (nested_branches ss)
    · exact nested_groupCode (nested_stmts ss)
  | .cond line as none => by
    simpa [blockCode] using nested_arms (b := []) as .nil
  | .cond line as (some b) => by
    simpa [blockCode] using nested_arms as (nested_block b)
  | .whileLoop _ test body none => nested_whileCode (nested_expr test) (nested_block body) .nil
  | .whileLoop _ test body (some post) =>
    nested_whileCode (nested_expr test) (nested_block body) (nested_block post)
  | .doLoop _ body test => nested_doCode (nested_block body) (nested_expr test)

/-- The branches of a condition with the code up to its end. -/
theorem nested_arms {under : Bool} {line : Nat} {more : Bool} {b : List Piece} :
    (as : List Arm) → Nested b → Nested (armsCode c under line more b.length as ++ (b ++ [Piece.mark line]))
  | [], hb => hb.append .mark
  | ⟨test, body⟩ :: as, hb => by
    have hrest : Nested ((armsCode c under line more b.length as ++ b) ++ [Piece.mark line]) := by
      simpa using nested_arms as hb
    have hbody : Nested (blockCode c under body) := nested_block body
    have harm := nested_armCode line test.line body.line (more || !as.isEmpty) (nested_expr test) hbody hrest
    rw [armsCode]
    simpa using harm

end

/-! ### Jumps have goals -/

theorem Opcode.offsetOperand_lt {op : Opcode} {i : Nat} (h : op.offsetOperand? = some i) :
    i < op.widths.length := by
  revert h
  cases op <;> simp [Opcode.offsetOperand?, Opcode.isJump, Opcode.widths, Opcode.info] <;> omega

/-- An instruction that leads somewhere exactly if it has an offset. -/
def Piece.Aimed (q : Piece) : Prop := q.op.offsetOperand?.isSome = q.goal.isSome

/-- Code in which the instructions with an offset are those that lead somewhere. -/
def Directed (code : List Piece) : Prop := ∀ q ∈ code, q.Aimed

theorem Directed.nil : Directed [] := by simp [Directed]

theorem Directed.append (ha : Directed a) (hb : Directed b) : Directed (a ++ b) := by
  intro q hq
  rcases List.mem_append.mp hq with hq | hq
  · exact ha q hq
  · exact hb q hq

theorem Directed.cons {q : Piece} (hq : q.Aimed) (hb : Directed b) : Directed (q :: b) := by
  intro r hr
  rcases List.mem_cons.mp hr with rfl | hr
  · exact hq
  · exact hb r hr

theorem Directed.one {q : Piece} (hq : q.Aimed) : Directed [q] := .cons hq .nil

theorem Piece.Simple.aimed {q : Piece} (h : q.Simple) : q.Aimed := by
  simp [Piece.Aimed, h.1, h.2.1]

theorem aimed_plain {op : Opcode} {line : Nat} {vs : List Int} (h : op.offsetOperand? = none) :
    (Piece.plain op line vs).Aimed := by
  simp [Piece.Aimed, Piece.plain, h]

theorem aimed_withConst {op : Opcode} {line : Nat} {vs : List Int} {v : Option Constant}
    (h : op.offsetOperand? = none) : (Piece.withConst op line vs v).Aimed := by
  simp [Piece.Aimed, Piece.withConst, h]

theorem aimed_leading {op : Opcode} {line : Nat} {vs : List Int} {g : Goal} (h : op.offsetOperand?.isSome) :
    (Piece.leading op line vs g).Aimed := h

theorem aimed_argPiece {line : Nat} {v : LocalVar} : (argPiece line v).Aimed :=
  aimed_plain (by cases v.ref <;> rfl)

theorem Directed.settle {exit next : Nat} (h : Directed code) : Directed (settleLoop exit next code) := by
  intro q hq
  obtain ⟨i, hi⟩ := List.mem_iff_getElem?.mp hq
  obtain ⟨r, hr, rfl⟩ := getElem?_settleLoop.mp hi
  have haimed : r.op.offsetOperand?.isSome = r.goal.isSome := h r (List.mem_of_getElem? hr)
  unfold Piece.settle
  split
  · next hg => simpa [Piece.Aimed, hg] using haimed
  · next hg => simpa [Piece.Aimed, hg] using haimed
  · exact haimed

theorem directed_closeCode {line : Nat} (h : Directed code) : Directed (closeCode line code) := by
  refine Directed.append ?_ ?_
  · intro q hq
    obtain ⟨r, hr, rfl⟩ := List.mem_map.mp hq
    have haimed : r.op.offsetOperand?.isSome = r.goal.isSome := h r hr
    unfold Piece.alone
    split
    · next hg => simpa [Piece.Aimed, hg] using haimed
    · next hg => simpa [Piece.Aimed, hg] using haimed
    · exact haimed
  · split
    · exact .nil
    · exact .one (aimed_plain rfl)

theorem directed_accessCode {line : Nat} {acc : Typed.Access} {bits : Int} {kids : List Piece}
    (h : Directed kids) : Directed (accessCode c line acc bits kids) := by
  obtain ⟨x, y, hx, hy, he⟩ := accessCode_shape (c := c) line acc bits kids
  rw [he]
  refine (Directed.append (fun q hq => (hx q hq).aimed) ?_).append fun q hq => (hy q hq).aimed
  split
  · exact .nil
  · exact h

theorem directed_groupCode {keep : Bool} {line : Nat} {number : Int} {body : List Piece} (h : Directed body) :
    Directed (groupCode keep line number body) := by
  unfold groupCode
  cases keep with
  | true => exact .cons (aimed_leading rfl) (h.append (.one (aimed_plain rfl)))
  | false => exact .cons (aimed_plain rfl) (h.append (.one (aimed_plain rfl)))

theorem directed_whileCode {line : Nat} {test body post : List Piece} (ht : Directed test)
    (hb : Directed body) (hp : Directed post) : Directed (whileCode line test body post) := by
  refine (Directed.cons (aimed_plain rfl) ht).append (.cons (aimed_leading rfl) (Directed.settle ?_))
  exact (hb.append (.cons (aimed_plain rfl) hp)).append (.cons (aimed_leading rfl) (.one (aimed_plain rfl)))

theorem directed_doCode {line : Nat} {test body : List Piece} (hb : Directed body) (ht : Directed test) :
    Directed (doCode line body test) := by
  refine .cons (aimed_plain rfl) (Directed.settle ?_)
  exact (hb.append (.cons (aimed_plain rfl) ht)).append
    (.cons (aimed_leading rfl) (.cons (aimed_leading rfl) (.one (aimed_plain rfl))))

mutual

/-- The jumps of an expression have goals. -/
theorem directed_expr : (x : Expr) → Directed (exprCode c x)
  | .literal _ _ _ => .one (aimed_withConst rfl)
  | .unary _ op _ x => (directed_expr x).append (.one (aimed_plain (by cases op <;> rfl)))
  | .binary _ op _ x y => by
    simp only [exprCode]
    split
    · next h =>
      refine (directed_expr x).append (.cons (aimed_leading ?_) ((directed_expr y).append (.one (aimed_plain rfl))))
      rcases h with rfl | rfl <;> rfl
    · next h =>
      refine ((directed_expr x).append (directed_expr y)).append (.one (aimed_plain ?_))
      cases op <;> first | rfl | simp at h
  | .chain ⟨_, _, _, links⟩ => directed_exprs links
  | .call x => directed_call x
  | .cast _ kind _ x => (directed_expr x).append (.one (aimed_withConst (by cases kind <;> rfl)))
  | .new _ _ inits => .cons (aimed_withConst rfl) (directed_calls inits)
  | .collection _ _ items => .cons (aimed_withConst rfl) (directed_appends items)
  | .lambda fn => directed_lambda fn

theorem directed_exprs : (xs : List Expr) → Directed (exprsCode c xs)
  | [] => .nil
  | x :: xs => (directed_expr x).append (directed_exprs xs)

theorem directed_call : (x : Call) → Directed (callCode c x)
  | ⟨_, _, _, _, _, _, children⟩ => directed_accessCode (directed_exprs children)

theorem directed_calls : (xs : List Call) → Directed (callsCode c xs)
  | [] => .nil
  | x :: xs => (directed_call x).append (directed_calls xs)

theorem directed_appends : (xs : List Append) → Directed (appendsCode c xs)
  | [] => .nil
  | .element _ x :: rest => (directed_expr x).append (.cons (aimed_plain rfl) (directed_appends rest))
  | .entry _ k v :: rest =>
    ((directed_expr k).append (directed_expr v)).append (.cons (aimed_plain rfl) (directed_appends rest))

theorem directed_lambda : (x : Lambda) → Directed (lambdaCode c x)
  | ⟨_, _, upvals, ⟨_, ps, _, body⟩⟩ => by
    rw [lambdaCode]
    refine .cons (aimed_leading rfl) (.append (.cons (aimed_plain rfl) ?_) (.cons (aimed_plain rfl) ?_))
    · exact (directed_params ps).append (directed_closeCode (directed_stmts body))
    · intro q hq
      obtain ⟨u, -, rfl⟩ := List.mem_map.mp hq
      exact aimed_plain rfl

theorem directed_params {first i : Nat} : (ps : List VarDecl) → Directed (paramsCode c first i ps)
  | [] => .nil
  | ⟨_, _, none⟩ :: rest => (directed_params rest).append (.one aimed_argPiece)
  | ⟨_, _, some x⟩ :: rest =>
    (directed_params rest).append (.cons (aimed_leading rfl)
      ((directed_expr x).append (.cons (aimed_plain rfl) (.one aimed_argPiece))))

theorem directed_stmt {under : Bool} : (x : Stmt) → Directed (stmtCode c under x)
  | .expr x => directed_expr x
  | .discard _ _ x => by
    rw [stmtCode]
    refine (directed_expr x).append ?_
    intro q hq
    rw [List.eq_of_mem_replicate hq]
    exact aimed_plain rfl
  | .var ⟨_, _, none⟩ => .one (aimed_withConst rfl)
  | .var ⟨_, _, some x⟩ => (directed_expr x).append (.one (aimed_plain rfl))
  | .ret _ n values => by
    rw [stmtCode]
    refine (directed_exprs values).append (.one ?_)
    split
    · exact aimed_plain rfl
    · exact aimed_plain rfl
  | .brk _ => .one (aimed_leading rfl)
  | .cont _ => .one (aimed_leading rfl)
  | .yield _ => .one (aimed_plain rfl)
  | .block b => directed_block b

theorem directed_stmts {under : Bool} : (xs : List Stmt) → Directed (stmtsCode c under xs)
  | [] => .nil
  | x :: xs => (directed_stmt x).append (directed_stmts xs)

theorem directed_branches : (xs : List Stmt) → Directed (branchesCode c xs)
  | [] => .nil
  | x :: xs => by
    rw [branchesCode]
    split
    · exact (directed_stmt x).append (directed_branches xs)
    · exact (directed_groupCode (directed_stmt x)).append (directed_branches xs)

theorem directed_block {under : Bool} : (b : Block) → Directed (blockCode c under b)
  | .group _ _ ss => by
    rw [blockCode]
    split
    · exact directed_groupCode (directed_branches ss)
    · exact directed_groupCode (directed_stmts ss)
  | .cond _ as none => (directed_arms as).append (.one (aimed_plain rfl))
  | .cond _ as (some b) => ((directed_arms as).append (directed_block b)).append (.one (aimed_plain rfl))
  | .whileLoop _ test body none => directed_whileCode (directed_expr test) (directed_block body) .nil
  | .whileLoop _ test body (some post) =>
    directed_whileCode (directed_expr test) (directed_block body) (directed_block post)
  | .doLoop _ body test => directed_doCode (directed_block body) (directed_expr test)

theorem directed_arms {under : Bool} {line : Nat} {more : Bool} {rest : Nat} :
    (as : List Arm) → Directed (armsCode c under line more rest as)
  | [] => .nil
  | ⟨test, body⟩ :: as => by
    rw [armsCode]
    refine Directed.append ?_ (directed_arms as)
    refine (directed_expr test).append (.cons (aimed_leading rfl) ?_)
    refine ((directed_block body).append ?_).append (.one (aimed_plain rfl))
    unfold leaveCode
    split
    · exact .one rfl
    · exact .nil

end

end Trees

end Weft.Bytecode
