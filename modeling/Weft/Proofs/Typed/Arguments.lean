import Mathlib
import Weft.Bytecode.Opcode
import Weft.Typed.Arguments

/-!
# The bits of packed arguments

The count of arguments is in the low bits of the word, and every default value has a bit of its own above them.
Setting one of them leaves the others alone. The operand for the word has the same bits.
-/

namespace Weft.Typed.Arguments

variable {a b : Arguments} {i n : Int} {j k : Nat}

/-- A bit of the word. -/
def bit (a : Arguments) (j : Nat) : Bool := a.word.toBitVec.getLsbD j

@[simp]
theorem bit_empty : empty.bit j = false := by
  simp [bit, empty]

theorem defaultBit_eq (hk : k < maxDefaults) : (defaultBit k).toBitVec = BitVec.twoPow 32 (6 + k) := by
  revert hk
  revert k
  decide

theorem getLsbD_countMask : countMask.toBitVec.getLsbD j = decide (j < 6) := by
  have hmask : countMask.toBitVec = BitVec.setWidth 32 (BitVec.allOnes 6) := by decide
  rw [hmask, BitVec.getLsbD_setWidth, BitVec.getLsbD_allOnes]
  by_cases hj : j < 6
  · simp [hj, Nat.lt_trans hj (by decide : 6 < 32)]
  · simp [hj]

/-- Leaving a default value to the callee sets its bit and no other one. -/
theorem bit_useDefault (h : a.useDefault i = .ok b) :
    0 ≤ i ∧ i < maxDefaults ∧ ∀ j, b.bit j = (a.bit j || decide (j = 6 + i.toNat)) := by
  unfold useDefault at h
  split at h
  · cases h
  · next hi =>
    cases h
    have hlt : i.toNat < 26 := by
      have hmax : maxDefaults = 26 := rfl
      omega
    refine ⟨by omega, by omega, fun j => ?_⟩
    have hbound : 6 + i.toNat < 32 := by omega
    rw [bit, UInt32.toBitVec_or, BitVec.getLsbD_or, defaultBit_eq hlt, BitVec.getLsbD_twoPow]
    simp [bit, hbound, eq_comm]

/-- Setting the count leaves the bits of the default values alone. -/
theorem bit_withCount (h : a.withCount n = .ok b) : (b.count : Int) = n ∧ ∀ j, 6 ≤ j → b.bit j = a.bit j := by
  unfold withCount at h
  split at h
  · cases h
  · next hn =>
    cases h
    have hlt : n.toNat < 2 ^ 6 := by
      have hmax : maxCount = 63 := rfl
      omega
    -- the number has only low bits
    have hhigh : ∀ j, 6 ≤ j → n.toNat.toUInt32.toBitVec.getLsbD j = false := by
      intro j hj
      change (BitVec.ofNat 32 n.toNat).getLsbD j = false
      rw [BitVec.getLsbD_ofNat, Nat.testBit_lt_two_pow (Nat.lt_of_lt_of_le hlt (Nat.pow_le_pow_right (by decide) hj)),
        Bool.and_false]
    have hlow : ((a.word &&& ~~~countMask) ||| n.toNat.toUInt32) &&& countMask = n.toNat.toUInt32 := by
      apply UInt32.eq_of_toBitVec_eq
      apply BitVec.eq_of_getLsbD_eq
      intro j hj
      rw [UInt32.toBitVec_and, BitVec.getLsbD_and, UInt32.toBitVec_or, BitVec.getLsbD_or, UInt32.toBitVec_and,
        BitVec.getLsbD_and, UInt32.toBitVec_not, BitVec.getLsbD_not, getLsbD_countMask]
      by_cases hj6 : j < 6
      · simp [hj6]
      · simp [hj6, hhigh j (by omega)]
    refine ⟨?_, fun j hj => ?_⟩
    · rw [count, hlow]
      change ((n.toNat % 2 ^ 32 : Nat) : Int) = n
      omega
    · have hj6 : ¬j < 6 := by omega
      rw [bit, UInt32.toBitVec_or, BitVec.getLsbD_or, UInt32.toBitVec_and, BitVec.getLsbD_and, UInt32.toBitVec_not,
        BitVec.getLsbD_not, getLsbD_countMask, hhigh j hj]
      by_cases hj32 : j < 32
      · simp [bit, hj6, hj32]
      · simp [bit, BitVec.getLsbD_of_ge _ _ (Nat.le_of_not_lt hj32)]

/-- Whether a default value is left to the callee is its bit. -/
theorem defaultUsed_eq (hk : k < maxDefaults) : a.defaultUsed k = a.bit (6 + k) := by
  have hmax : maxDefaults = 26 := rfl
  have hand : (a.word &&& defaultBit k).toBitVec =
      if a.word.toBitVec.getLsbD (6 + k) then BitVec.twoPow 32 (6 + k) else 0#32 := by
    rw [UInt32.toBitVec_and, defaultBit_eq hk, BitVec.and_twoPow]
  rw [defaultUsed, if_neg (by omega), Int.toNat_natCast, bit]
  cases hb : a.word.toBitVec.getLsbD (6 + k) with
  | false =>
    rw [hb] at hand
    have hzero : a.word &&& defaultBit k = 0 := UInt32.eq_of_toBitVec_eq hand
    simp [hzero]
  | true =>
    rw [hb, if_pos rfl] at hand
    have hne : a.word &&& defaultBit k ≠ 0 := by
      intro hzero
      have hbit : (BitVec.twoPow 32 (6 + k)).getLsbD (6 + k) = false := by
        rw [← hand, hzero]
        exact BitVec.getLsbD_zero
      have hlt : 6 + k < 32 := by omega
      simp [hlt] at hbit
    simp [hne]

theorem word_operand : BitVec.ofInt 32 a.operand = a.word.toBitVec :=
  BitVec.ofInt_toInt

end Weft.Typed.Arguments
