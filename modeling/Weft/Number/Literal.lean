import Weft.Number.Binary64

/-!
# Number literals

The values of the integer and floating point literals of the language.
-/

namespace Weft.Number

/-- The value of a digit in a base up to sixteen. -/
def digitValue? (base : Nat) (c : Char) : Option Nat :=
  let v :=
    if '0' ≤ c ∧ c ≤ '9' then c.toNat - '0'.toNat
    else if 'a' ≤ c ∧ c ≤ 'f' then c.toNat - 'a'.toNat + 10
    else if 'A' ≤ c ∧ c ≤ 'F' then c.toNat - 'A'.toNat + 10
    else base
  if v < base then some v else none

/-- The value of a string of digits in a base, continuing from a value. -/
def digits? (base : Nat) (acc : Nat) : List Char → Option Nat
  | [] => some acc
  | c :: cs => do digits? base (acc * base + (← digitValue? base c)) cs

/-- The magnitude of an integer literal. A literal that starts with a zero and another digit is octal. -/
def magnitude? (text : String) : Option Nat :=
  match text.toList with
  | [] => none
  | '0' :: x :: cs =>
    if x = 'x' ∨ x = 'X' then (if cs.isEmpty then none else digits? 16 0 cs)
    else digits? 8 0 (x :: cs)
  | cs => digits? 10 0 cs

/-- The value of an integer literal, which has to fit into 64 bits with a sign. -/
def integer? (text : String) : Option Int := do
  let n ← magnitude? text
  if n < pow2 63 then some (n : Int) else none

/-- A signed exponent with at least one digit. -/
def exponent? : List Char → Option Int
  | '+' :: d :: ds => (digits? 10 0 (d :: ds)).map Int.ofNat
  | '-' :: d :: ds => (digits? 10 0 (d :: ds)).map (fun n => -(n : Int))
  | d :: ds => (digits? 10 0 (d :: ds)).map Int.ofNat
  | [] => none

/-- The value of a floating point literal: digits, a point with digits, and an exponent, of which the
last two may be missing. A value beyond the largest number is refused; one below the smallest is
zero. -/
def float? (text : String) : Option Binary64 := do
  let cs := text.toList
  let isMark := fun c : Char => c = 'e' || c = 'E'
  let mantissa := cs.takeWhile (fun c => !isMark c)
  let whole := mantissa.takeWhile (· ≠ '.')
  let fraction := (mantissa.dropWhile (· ≠ '.')).drop 1
  let exp ← match cs.dropWhile (fun c => !isMark c) with
    | [] => some 0
    | _ :: ds => exponent? ds
  if whole.isEmpty && fraction.isEmpty then none
  else Binary64.ofDecimal? (← digits? 10 0 (whole ++ fraction)) (exp - fraction.length)

end Weft.Number
