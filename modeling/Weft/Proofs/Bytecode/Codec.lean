import Mathlib
import Weft.Bytecode.Listing

/-!
# Encoded instructions are read back

An operand that fits its width is read back from its bytes, and a list of placed instructions is read back
from its code: every instruction that is no mark comes back at its position with its operands.
-/

namespace Weft.Number

theorem pow2_eight_mul (w : Nat) : pow2 (8 * w) = power 256 w := by
  induction w with
  | zero => rfl
  | succ w ih =>
    have h : 8 * (w + 1) = 8 * w + 1 + 1 + 1 + 1 + 1 + 1 + 1 + 1 := by omega
    rw [h]
    simp only [pow2_succ, power_succ, ih]
    omega

end Weft.Number

namespace Weft.Bytecode

open Number (pow2)

/-! ## Operands -/

@[simp]
theorem length_encodeOperand (w : Nat) (v : Int) : (encodeOperand w v).length = w := by
  simp [encodeOperand]

/-- The two bounds of an operand of a positive width. -/
theorem fits_bounds {v : Int} {w : Nat} (h : fits v w) :
    0 < w ∧ -(pow2 (8 * w - 1) : Int) ≤ v ∧ v < pow2 (8 * w - 1) := by
  unfold fits operandRange at h
  split at h
  · simp only [Bool.and_eq_true, decide_eq_true_eq] at h
    omega
  · next hw =>
    simp only [Bool.and_eq_true, decide_eq_true_eq] at h
    exact ⟨by omega, h.1, by omega⟩

theorem fits_zero {w : Nat} (h : 0 < w ∧ w ≤ 8) : fits 0 w := by
  have hp := Number.pow2_pos (8 * w - 1)
  have hw : ¬(w = 0 ∨ 8 < w) := by omega
  simp only [fits, operandRange, hw, if_false, Bool.and_eq_true, decide_eq_true_eq]
  omega

/-- An operand that fits its width is read back unchanged. -/
theorem decodeOperand_encodeOperand {w : Nat} {v : Int} (h : fits v w) :
    decodeOperand (encodeOperand w v) = v := by
  obtain ⟨hw, hlo, hhi⟩ := fits_bounds h
  have hsplit : pow2 (8 * w) = pow2 (8 * w - 1) * 2 := by
    rw [← Number.pow2_succ]
    congr 1
    omega
  have hpos := Number.pow2_pos (8 * w - 1)
  have hread : Number.ofLowBytes (encodeOperand w v) = (v % pow2 (8 * w)).toNat := by
    rw [encodeOperand, Number.ofLowBytes_lowBytes, ← Number.pow2_eight_mul]
    apply Nat.mod_eq_of_lt
    have := Int.emod_lt_of_pos v (b := pow2 (8 * w)) (by omega)
    omega
  rw [decodeOperand, hread, length_encodeOperand]
  by_cases hv : v < 0
  · -- a negative operand is stored as its distance from the power of two
    have hm : v % (pow2 (8 * w) : Int) = v + pow2 (8 * w) := by
      rw [← Int.add_emod_right]
      exact Int.emod_eq_of_lt (by omega) (by omega)
    rw [hm]
    split <;> omega
  · have hm : v % (pow2 (8 * w) : Int) = v := Int.emod_eq_of_lt (by omega) (by omega)
    rw [hm]
    split <;> omega

/-! ## Opcodes -/

theorem Opcode.ofByte?_byte (op : Opcode) : Opcode.ofByte? op.byte = some op := by
  cases op <;> decide

/-- Every width is at least one byte and at most eight. -/
theorem Opcode.widths_bounds (op : Opcode) : ∀ w ∈ op.widths, 0 < w ∧ w ≤ 8 := by
  cases op <;> decide

/-! ## Instructions -/

/-- An instruction whose operands are as many as its opcode takes and fit their widths. -/
structure Instruction.Sound (x : Instruction) : Prop where
  count : x.operands.length = x.op.widths.length
  fit : ∀ p ∈ x.op.widths.zip x.operands, fits p.2 p.1

/-- An instruction as it is read back from code; a mark is not. -/
def Instruction.decoded? (x : Instruction) : Option Decoded :=
  if x.op = .mark then none else some ⟨x.pos.toNat, x.op, x.operands⟩

/-- The position after an instruction. -/
def Decoded.next (d : Decoded) : Nat := d.pos + d.op.size

/-- Instructions at consecutive positions from a position on. -/
def Placed : Int → List Instruction → Prop
  | _, [] => True
  | pos, x :: xs => x.pos = pos ∧ Placed (pos + x.op.size) xs

/-- The bytes of a list of operands. -/
def encodeOperands (ws : List Nat) (vs : List Int) : List UInt8 :=
  (ws.zip vs).flatMap fun (w, v) => encodeOperand w v

theorem length_encodeOperands {ws : List Nat} {vs : List Int} (h : vs.length = ws.length) :
    (encodeOperands ws vs).length = ws.foldr (fun w n => w + n) 0 := by
  induction ws generalizing vs with
  | nil => simp [encodeOperands]
  | cons w ws ih =>
    cases vs with
    | nil => simp at h
    | cons v vs =>
      have hrest : vs.length = ws.length := by simpa using h
      have := ih hrest
      simp only [encodeOperands] at this
      simp [encodeOperands, this]

theorem splitOperands_encodeOperands {ws : List Nat} {vs : List Int} (rest : Bytes)
    (h : vs.length = ws.length) (hf : ∀ p ∈ ws.zip vs, fits p.2 p.1) :
    splitOperands ws (encodeOperands ws vs ++ rest) = vs := by
  induction ws generalizing vs with
  | nil => simp [splitOperands, List.length_eq_zero_iff.mp (by simpa using h)]
  | cons w ws ih =>
    cases vs with
    | nil => simp at h
    | cons v vs =>
      have hv : fits v w := hf (w, v) (by simp)
      have hrest : vs.length = ws.length := by simpa using h
      have htail := ih hrest fun p hp => hf p (by simp [hp])
      have hcat : encodeOperands (w :: ws) (v :: vs) ++ rest =
          encodeOperand w v ++ (encodeOperands ws vs ++ rest) := by
        simp [encodeOperands]
      have htake : (encodeOperand w v ++ (encodeOperands ws vs ++ rest)).take w = encodeOperand w v := by
        rw [List.take_append_of_le_length (by simp)]
        simp [List.take_of_length_le]
      have hdrop : (encodeOperand w v ++ (encodeOperands ws vs ++ rest)).drop w =
          encodeOperands ws vs ++ rest := by
        rw [List.drop_append_of_le_length (by simp)]
        simp [List.drop_of_length_le]
      rw [hcat, splitOperands, htake, hdrop, htail, decodeOperand_encodeOperand hv]

/-- Code of sound, placed instructions is read back whole. -/
theorem decodeFrom_encode {xs : List Instruction} {pos : Nat} (hp : Placed pos xs)
    (hs : ∀ x ∈ xs, x.Sound) :
    decodeFrom pos (xs.flatMap Instruction.encode) = (xs.filterMap Instruction.decoded?, none) := by
  induction xs generalizing pos with
  | nil => simp [decodeFrom]
  | cons x xs ih =>
    obtain ⟨hx, hrest⟩ := hp
    have hsound := hs x (by simp)
    have htail : ∀ y ∈ xs, y.Sound := fun y hy => hs y (by simp [hy])
    by_cases hm : x.op = .mark
    · have hsize : x.op.size = 0 := by simp [Opcode.size, hm]
      have henc : x.encode = [] := by simp [Instruction.encode, hm]
      have hdec : x.decoded? = none := by simp [Instruction.decoded?, hm]
      rw [hsize] at hrest
      rw [List.flatMap_cons, henc, List.nil_append, List.filterMap_cons, hdec]
      exact ih (by simpa using hrest) htail
    · have henc : x.encode = x.op.byte :: encodeOperands x.op.widths x.operands := by
        simp [Instruction.encode, hm, encodeOperands]
      have hlen : (encodeOperands x.op.widths x.operands).length = x.op.operandsSize :=
        length_encodeOperands hsound.count
      have hsize : ((pos + 1 + x.op.operandsSize : Nat) : Int) = pos + x.op.size := by
        simp only [Opcode.size, hm, if_false, Opcode.fullSize]
        omega
      rw [← hsize] at hrest
      have hnext := ih hrest htail
      have hdec : x.decoded? = some ⟨pos, x.op, x.operands⟩ := by
        simp [Instruction.decoded?, hm, hx]
      rw [List.flatMap_cons, henc, List.cons_append, decodeFrom, Opcode.ofByte?_byte]
      have hlong : ¬(encodeOperands x.op.widths x.operands ++ xs.flatMap Instruction.encode).length <
          x.op.operandsSize := by
        simp [hlen]
      have hdrop : (encodeOperands x.op.widths x.operands ++ xs.flatMap Instruction.encode).drop
          x.op.operandsSize = xs.flatMap Instruction.encode := by
        rw [← hlen, List.drop_left]
      simp only [hlong, if_false, hdrop, hnext, List.filterMap_cons, hdec,
        splitOperands_encodeOperands _ hsound.count hsound.fit]

/-- The code of an instruction is as long as its size says. -/
theorem Instruction.length_encode {x : Instruction} (hx : x.Sound) : x.encode.length = x.op.size := by
  by_cases hm : x.op = .mark
  · simp [Instruction.encode, Opcode.size, hm]
  · have := length_encodeOperands hx.count
    simp only [encodeOperands] at this
    simp [Instruction.encode, Opcode.size, hm, this, Opcode.fullSize, Opcode.operandsSize]
    omega

/-- The code of a list of instructions is as long as their sizes say. -/
theorem length_flatMap_encode {xs : List Instruction} (hs : ∀ x ∈ xs, x.Sound) :
    (xs.flatMap Instruction.encode).length = (xs.map fun x => x.op.size).sum := by
  induction xs with
  | nil => rfl
  | cons x xs ih =>
    have hx := Instruction.length_encode (hs x (by simp))
    have ht : ∀ y ∈ xs, y.Sound := fun y hy => hs y (by simp [hy])
    simp [List.flatMap_cons, hx, ih ht]

end Weft.Bytecode
