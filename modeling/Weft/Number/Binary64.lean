import Weft.Number.Word

/-!
# Double precision numbers

A floating point number is its 64 bits: a sign, an exponent field of 11 bits and a fraction of 52 bits.
Two numbers are equal when their bits are, so the two zeros differ and a NaN equals itself. Reading a
decimal goes through exact arithmetic on natural numbers and rounds once, a tie to the even neighbour.
-/

namespace Weft.Number

/-- A double precision floating point number, given by its bits. -/
structure Binary64 where
  bits : UInt64
deriving DecidableEq, Repr, Inhabited, Hashable

namespace Binary64

/-- The positive zero. -/
def zero : Binary64 := ⟨0⟩

/-- The positive infinity. -/
def infinity : Binary64 := ⟨0x7FF0000000000000⟩

/-- Whether the sign bit is set. -/
def negative (x : Binary64) : Bool := x.bits.toNat / pow2 63 = 1

/-- The eleven bits of the exponent field. -/
def exponentField (x : Binary64) : Nat := x.bits.toNat / pow2 52 % pow2 11

/-- The 52 bits of the fraction. -/
def fraction (x : Binary64) : Nat := x.bits.toNat % pow2 52

/-- Whether the number is not a number. -/
def isNaN (x : Binary64) : Bool := x.exponentField = 2047 && x.fraction ≠ 0

/-- Whether the number is one of the two infinities. -/
def isInfinite (x : Binary64) : Bool := x.exponentField = 2047 && x.fraction = 0

/-- The magnitude of a finite number is `significand * 2 ^ exponent`. -/
def significand (x : Binary64) : Nat :=
  if x.exponentField = 0 then x.fraction else pow2 52 + x.fraction

/-- The power of two that scales the significand. -/
def exponent (x : Binary64) : Int :=
  if x.exponentField = 0 then -1074 else (x.exponentField : Int) - 1075

end Binary64

/-- A quotient rounded to the nearest natural number, a tie to the even one. -/
def roundDiv (num den : Nat) : Nat :=
  let q := num / den
  let r := num % den
  if 2 * r < den then q
  else if den < 2 * r then q + 1
  else if q % 2 = 0 then q else q + 1

/-- The fraction `num / den / 2 ^ e` as a numerator and a denominator. -/
def scaleDown (num den : Nat) (e : Int) : Nat × Nat :=
  if 0 ≤ e then (num, den * pow2 e.toNat) else (num * pow2 (-e).toNat, den)

/-- The power of two whose multiples are the candidates for the magnitude `num / den`: the quotient by
it has 53 binary digits, unless the magnitude lies below the normal numbers. -/
def gridExponent (num den : Nat) : Int :=
  let e := (Nat.log2 num : Int) - Nat.log2 den - 52
  let (n, d) := scaleDown num den e
  max (if n / d < pow2 52 then e - 1 else e) (-1074)

/-- The number nearest to the magnitude `num / den`, or `none` when it lies beyond all of them. -/
def Binary64.ofRatio? (num den : Nat) : Option Binary64 :=
  if num = 0 then some .zero else
  let e := gridExponent num den
  let (n, d) := scaleDown num den e
  let q := roundDiv n d
  let bits := if q < pow2 52 then q else (e + 1075).toNat * pow2 52 + (q - pow2 52)
  if bits < 0x7FF0000000000000 then some ⟨bits.toUInt64⟩ else none

/-- The number of decimal digits of a natural number; zero has one. -/
def decimalLength (n : Nat) : Nat := (Nat.toDigits 10 n).length

/-- The number nearest to `digits * 10 ^ exp`, or `none` when it lies beyond all of them. Exponents that
decide the answer by their size alone do not reach the exact arithmetic. -/
def Binary64.ofDecimal? (digits : Nat) (exp : Int) : Option Binary64 :=
  let top := (decimalLength digits : Int) + exp
  if digits = 0 then some .zero
  else if 311 < top then none
  else if top < -330 then some .zero
  else if 0 ≤ exp then ofRatio? (digits * pow10 exp.toNat) 1
  else ofRatio? digits (pow10 (-exp).toNat)

end Weft.Number
