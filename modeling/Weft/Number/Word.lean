/-!
# Powers and bytes of numbers

Powers of natural numbers by repeated multiplication.
-/

namespace Weft.Number

/-- A power of a number. -/
def power (b n : Nat) : Nat := Nat.pow b n

/-- A power of two. -/
def pow2 (n : Nat) : Nat := power 2 n

/-- A power of ten. -/
def pow10 (n : Nat) : Nat := power 10 n

@[simp] theorem power_zero (b : Nat) : power b 0 = 1 := rfl

theorem power_succ (b n : Nat) : power b (n + 1) = power b n * b := rfl

theorem power_pos {b : Nat} (h : 0 < b) (n : Nat) : 0 < power b n := by
  induction n with
  | zero => exact Nat.one_pos
  | succ n ih => exact Nat.mul_pos ih h

theorem pow2_succ (n : Nat) : pow2 (n + 1) = pow2 n * 2 := rfl

theorem pow2_pos (n : Nat) : 0 < pow2 n := power_pos (by decide) n

/-! ## Numbers as bytes

A number in a fixed count of bytes, the lowest byte first or the highest first. Both readings undo the
writing for every number that fits.
-/

/-- The lowest bytes of a number, lowest first. -/
def lowBytes : Nat → Nat → List UInt8
  | 0, _ => []
  | w + 1, n => n.toUInt8 :: lowBytes w (n / 256)

/-- The number of a list of bytes, lowest first. -/
def ofLowBytes : List UInt8 → Nat
  | [] => 0
  | b :: bs => b.toNat + 256 * ofLowBytes bs

/-- The lowest bytes of a number, highest first. -/
def highBytes (width n : Nat) : List UInt8 := (lowBytes width n).reverse

/-- The number of a list of bytes, highest first. -/
def ofHighBytes (bs : List UInt8) : Nat := ofLowBytes bs.reverse

@[simp]
theorem length_lowBytes (w n : Nat) : (lowBytes w n).length = w := by
  induction w generalizing n with
  | zero => rfl
  | succ w ih => simp [lowBytes, ih]

@[simp]
theorem length_highBytes (w n : Nat) : (highBytes w n).length = w := by simp [highBytes]

/-- Reading gives back what the bytes can hold of the number. -/
theorem ofLowBytes_lowBytes (w n : Nat) : ofLowBytes (lowBytes w n) = n % power 256 w := by
  induction w generalizing n with
  | zero => simp [lowBytes, ofLowBytes, Nat.mod_one]
  | succ w ih =>
    rw [lowBytes, ofLowBytes, ih, power_succ, Nat.mul_comm (power 256 w), Nat.mod_mul]
    simp [Nat.toUInt8]

/-- A list of bytes is written again from its number. -/
theorem lowBytes_ofLowBytes (bs : List UInt8) : lowBytes bs.length (ofLowBytes bs) = bs := by
  induction bs with
  | nil => rfl
  | cons b bs ih =>
    have hlow : (ofLowBytes (b :: bs)).toUInt8 = b := by
      apply UInt8.toNat_inj.mp
      have := b.toNat_lt
      simp [ofLowBytes, Nat.toUInt8]
    have hhigh : ofLowBytes (b :: bs) / 256 = ofLowBytes bs := by
      have := b.toNat_lt
      simp only [ofLowBytes]
      omega
    rw [List.length_cons, lowBytes, hlow, hhigh, ih]

theorem ofLowBytes_lt (bs : List UInt8) : ofLowBytes bs < power 256 bs.length := by
  induction bs with
  | nil => exact power_pos (by omega) 0
  | cons b bs ih =>
    have := b.toNat_lt
    rw [List.length_cons, power_succ, ofLowBytes]
    omega

/-- A number that fits is read back unchanged. -/
theorem ofHighBytes_highBytes {w n : Nat} (h : n < power 256 w) : ofHighBytes (highBytes w n) = n := by
  simp [ofHighBytes, highBytes, ofLowBytes_lowBytes, Nat.mod_eq_of_lt h]

end Weft.Number
