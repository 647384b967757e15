import Weft.Number.Binary64

/-!
# Shorter floating point formats

A format has a sign bit, some bits of exponent and some bits of fraction. `widen` reads a number of a
shorter format as a double precision number, and `narrow?` finds the number of the shorter format with
the same value, if there is one.
-/

namespace Weft.Number

/-- The bits of exponent and of fraction of a floating point format. -/
structure FloatFormat where
  exponent : Nat
  fraction : Nat
deriving DecidableEq, Repr

namespace FloatFormat

/-- Half precision. -/
def half : FloatFormat := ⟨5, 10⟩

/-- Single precision. -/
def single : FloatFormat := ⟨8, 23⟩

/-- The exponent field of the number one. -/
def bias (f : FloatFormat) : Nat := pow2 (f.exponent - 1) - 1

/-- The double precision number with the value of a number of a shorter format. A number that is none
becomes quiet. -/
def widen (f : FloatFormat) (bits : Nat) : Binary64 :=
  let sign := bits / pow2 (f.exponent + f.fraction) % 2
  let field := bits / pow2 f.fraction % pow2 f.exponent
  let part := bits % pow2 f.fraction
  let (wideField, widePart) :=
    if field = pow2 f.exponent - 1 then
      (2047, if part = 0 then 0 else part * pow2 (52 - f.fraction) ||| pow2 51)
    else if field = 0 then
      let top := Nat.log2 part
      if part = 0 then (0, 0)
      else (top + 1024 - f.bias - f.fraction, (part - pow2 top) * pow2 (52 - top))
    else (field + 1023 - f.bias, part * pow2 (52 - f.fraction))
  ⟨(sign * pow2 63 + wideField * pow2 52 + widePart).toUInt64⟩

/-- The bits to try for a double precision number: its exponent and the top of its fraction. -/
def candidate (f : FloatFormat) (x : Binary64) : Nat :=
  let sign := if x.negative then pow2 (f.exponent + f.fraction) else 0
  let field := (x.exponentField : Int) - 1023 + f.bias
  let magnitude :=
    if 0 < field then field.toNat * pow2 f.fraction + x.fraction / pow2 (52 - f.fraction)
    else x.significand / pow2 (53 - f.fraction + (-field).toNat)
  sign + magnitude

/-- The bits of the number of a shorter format that has the value of a finite number, if there is one. -/
def narrow? (f : FloatFormat) (x : Binary64) : Option Nat :=
  if f.candidate x < pow2 (1 + f.exponent + f.fraction) ∧ f.widen (f.candidate x) = x then
    some (f.candidate x)
  else none

/-- The shorter number is read back as the number it was made from. -/
theorem widen_of_narrow? {f : FloatFormat} {x : Binary64} {bits : Nat} (h : f.narrow? x = some bits) :
    f.widen bits = x := by
  unfold narrow? at h
  split at h
  · next hc => exact (Option.some.inj h) ▸ hc.2
  · simp at h

end FloatFormat

end Weft.Number
