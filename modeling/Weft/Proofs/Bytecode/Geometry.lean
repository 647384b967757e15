import Weft.Proofs.Bytecode.Finish

/-!
# Places and positions

A final list of instructions has two coordinates: the place of an instruction in the list, marks included,
and its position in the encoded code. Places of instructions that are encoded and their positions are in
the same order.
-/

namespace Weft.Bytecode

/-- The position of a place in a list of instructions. -/
def posAt (xs : List Instruction) (k : Nat) : Nat := ((xs.take k).map fun x => x.op.size).sum

theorem Opcode.size_pos {op : Opcode} (h : op ≠ .mark) : 0 < op.size := by
  have : op.size = 1 + op.operandsSize := by simp [Opcode.size, h, Opcode.fullSize]
  omega

section Positions

variable {xs : List Instruction} {x : Instruction} {i j k : Nat}

theorem posAt_succ (h : xs[k]? = some x) : posAt xs (k + 1) = posAt xs k + x.op.size := by
  simp only [posAt, List.take_add_one, h, Option.toList_some, List.map_append, List.map_cons,
    List.map_nil, List.sum_append, List.sum_cons, List.sum_nil, Nat.add_zero]

theorem posAt_mono (xs : List Instruction) (h : i ≤ j) : posAt xs i ≤ posAt xs j := by
  induction j with
  | zero =>
    obtain rfl : i = 0 := by omega
    exact Nat.le_refl _
  | succ j ih =>
    by_cases hij : i = j + 1
    · subst hij
      exact Nat.le_refl _
    · have hle := ih (by omega)
      cases hx : xs[j]? with
      | none =>
        have hlen : xs.length ≤ j := List.getElem?_eq_none_iff.mp hx
        have : posAt xs (j + 1) = posAt xs j := by
          simp only [posAt, List.take_of_length_le hlen, List.take_of_length_le (Nat.le_succ_of_le hlen)]
        omega
      | some x =>
        rw [posAt_succ hx]
        omega

theorem posAt_lt (hx : xs[i]? = some x) (hm : x.op ≠ .mark) (h : i < j) : posAt xs i < posAt xs j := by
  have hstep := posAt_succ hx
  have hpos := Opcode.size_pos hm
  have hle := posAt_mono xs (show i + 1 ≤ j from h)
  omega

theorem posAt_mark (hx : xs[k]? = some x) (hm : x.op = .mark) : posAt xs (k + 1) = posAt xs k := by
  rw [posAt_succ hx, hm]
  rfl

/-- Placed instructions stand behind the position that they start from. -/
theorem Placed.le {p : Int} (h : Placed p xs) (hx : x ∈ xs) : p ≤ x.pos := by
  induction xs generalizing p with
  | nil => simp at hx
  | cons y ys ih =>
    obtain ⟨hy, hrest⟩ := h
    rcases List.mem_cons.mp hx with rfl | hx
    · exact hy.ge
    · have := ih hrest hx
      omega

private theorem placed_from {p : Int} (h : Placed p xs) (hx : xs[k]? = some x) : x.pos = p + posAt xs k := by
  induction xs generalizing p k with
  | nil => simp at hx
  | cons y ys ih =>
    obtain ⟨hy, hrest⟩ := h
    cases k with
    | zero =>
      obtain rfl : y = x := by simpa using hx
      simp [posAt, hy]
    | succ k =>
      have := ih hrest (by simpa using hx)
      simp only [posAt, List.take_succ_cons, List.map_cons, List.sum_cons] at this ⊢
      omega

theorem Placed.pos (h : Placed 0 xs) (hx : xs[k]? = some x) : x.pos = posAt xs k := by
  have := placed_from h hx
  omega

/-- The instructions that are read back are those that are no marks, at their positions. -/
theorem mem_decoded (h : Placed 0 xs) {d : Decoded} : d ∈ xs.filterMap Instruction.decoded? ↔
    ∃ k x, xs[k]? = some x ∧ x.op ≠ .mark ∧ d = ⟨posAt xs k, x.op, x.operands⟩ := by
  rw [List.mem_filterMap]
  constructor
  · rintro ⟨x, hx, hd⟩
    obtain ⟨k, hk⟩ := List.mem_iff_getElem?.mp hx
    unfold Instruction.decoded? at hd
    split at hd
    · simp at hd
    · next hm =>
      refine ⟨k, x, hk, hm, ?_⟩
      have hpos := h.pos hk
      rw [← Option.some.inj hd, hpos]
      simp
  · rintro ⟨k, x, hk, hm, rfl⟩
    refine ⟨x, List.mem_of_getElem? hk, ?_⟩
    simp [Instruction.decoded?, hm, h.pos hk]

end Positions

section Final

variable {cs : List Constant} {code : List Piece} {xs : List Instruction}

theorem Final.decode (h : Final cs code xs) :
    decode (xs.flatMap Instruction.encode) = (xs.filterMap Instruction.decoded?, none) :=
  decodeFrom_encode h.placed h.sound

/-- The instruction at a place of the code. -/
theorem Final.at {i : Nat} {q : Piece} (h : Final cs code xs) (hq : code[i]? = some q) :
    ∃ x, xs[i]? = some x ∧ (x.op = q.op ∨ q.op = .getFunc ∧ x.op = .mark ∨ q.op = .callPtr ∧ x.op = .call) := by
  obtain ⟨x, hx, -, hk | hg | hc⟩ := h.shows hq
  · exact ⟨x, hx, .inl hk.op⟩
  · exact ⟨x, hx, .inr (.inl hg)⟩
  · exact ⟨x, hx, .inr (.inr hc)⟩

/-- The piece of an instruction. -/
theorem Final.piece {i : Nat} {x : Instruction} (h : Final cs code xs) (hx : xs[i]? = some x) :
    ∃ q, code[i]? = some q := by
  have hlt : i < code.length := by
    rw [← h.length]
    exact (List.getElem?_eq_some_iff.mp hx).1
  exact ⟨_, List.getElem?_eq_getElem hlt⟩

/-- Where an instruction leads: to the position of the goal of its piece. -/
theorem Final.target {i : Nat} {x : Instruction} {t : Int} (h : Final cs code xs) (hdir : Directed code)
    (hidle : Idle code) (hx : xs[i]? = some x)
    (ht : Decoded.target? ⟨posAt xs i, x.op, x.operands⟩ = some t) :
    ∃ (q : Piece) (d : Int) (j : Nat), code[i]? = some q ∧ q.op = x.op ∧ q.goal = some (.ahead d) ∧
      (j : Int) = i + d ∧ j < xs.length ∧ t = posAt xs j := by
  obtain ⟨q, hq⟩ := h.piece hx
  obtain ⟨k, hk, v, hv, rfl⟩ : ∃ k, x.op.offsetOperand? = some k ∧ ∃ v, x.operands[k]? = some v ∧
      t = posAt xs i + v := by
    simp only [Decoded.target?, Option.bind_eq_some_iff, Option.map_eq_some_iff] at ht
    obtain ⟨k, hk, v, hv, rfl⟩ := ht
    exact ⟨k, hk, v, hv, rfl⟩
  obtain ⟨y, hy, -, hkept | ⟨-, hmark⟩ | ⟨-, hcall⟩⟩ := h.shows hq
  · obtain rfl : y = x := by
      rw [hx] at hy
      exact (Option.some.inj hy).symm
    have hop := hkept.op
    have hgoal : q.goal.isSome = true := by rw [← hdir q (List.mem_of_getElem? hq), ← hop, hk]; rfl
    obtain ⟨g, hg⟩ := Option.isSome_iff_exists.mp hgoal
    obtain ⟨d, rfl⟩ : ∃ d, g = .ahead d := by
      have hw := hidle q (List.mem_of_getElem? hq)
      cases g with
      | ahead d => exact ⟨d, rfl⟩
      | exit => exact absurd (.inl hg) hw
      | next => exact absurd (.inr hg) hw
    obtain ⟨z, hm, -, hlead⟩ := hkept.operands
    obtain ⟨j, w, hj, hw, hops⟩ := hlead d hg
    have hoff : q.offsetIndex = k := by rw [Piece.offsetIndex, ← hop, hk]; rfl
    have hlt : k < z.operands.length := by
      rw [hm.sound.count, hm.op, ← hop]
      exact Opcode.offsetOperand_lt hk
    rw [hops, hoff, List.getElem?_set_self hlt, Option.some.injEq] at hv
    refine ⟨q, d, j, hq, hop.symm, hg, hj, (List.getElem?_eq_some_iff.mp hw).1, ?_⟩
    have hpos := h.placed.pos hw
    have hpos' := h.placed.pos hx
    omega
  · rw [hx] at hy
    rw [← Option.some.inj hy] at hmark
    simp [hmark, Opcode.offsetOperand?, Opcode.isJump] at hk
  · rw [hx] at hy
    rw [← Option.some.inj hy] at hcall
    simp [hcall, Opcode.offsetOperand?, Opcode.isJump] at hk

end Final

end Weft.Bytecode
