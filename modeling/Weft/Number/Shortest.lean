import Weft.Number.Binary64

/-!
# Shortest decimal text of a number

The digits written for a number are the fewest that read back as the same number, and of those the
nearest to it. `Writing` says where positional writing ends.
-/

namespace Weft.Number

/-- A positive decimal: `digits * 10 ^ exp`. -/
structure Decimal where
  digits : Nat
  exp : Int
deriving DecidableEq, Repr

/-- The magnitude of a finite number as a fraction. -/
def Binary64.ratio (x : Binary64) : Nat × Nat := scaleDown x.significand 1 (-x.exponent)

/-- The interval of magnitudes that round to a finite positive number, as two fractions over one
denominator: half way to each neighbour. The neighbour below is nearer when the significand is the
least of its binade. -/
def Binary64.interval (x : Binary64) : Nat × Nat × Nat :=
  let low := if x.significand = pow2 52 ∧ 1 < x.exponentField then 4 * x.significand - 1
    else 4 * x.significand - 2
  let (lo, den) := scaleDown low 1 (2 - x.exponent)
  let (hi, _) := scaleDown (4 * x.significand + 2) 1 (2 - x.exponent)
  (lo, hi, den)

/-- Whether a decimal reads back as the number: it lies inside the interval, the ends included when the
significand is even. -/
def Binary64.reads (x : Binary64) (d : Decimal) : Bool :=
  let (lo, hi, den) := x.interval
  let (n, m) := if 0 ≤ d.exp then (d.digits * pow10 d.exp.toNat, 1)
    else (d.digits, pow10 (-d.exp).toNat)
  if x.significand % 2 = 0 then lo * m ≤ n * den && n * den ≤ hi * m
  else lo * m < n * den && n * den < hi * m

/-- The multiple of `10 ^ exp` below or at the magnitude. -/
def Binary64.floorAt (x : Binary64) (exp : Int) : Nat :=
  let (n, d) := x.ratio
  if 0 ≤ exp then n / (d * pow10 exp.toNat) else n * pow10 (-exp).toNat / d

/-- Whether the magnitude lies nearer to the multiple above than to the multiple `low` below. -/
def Binary64.nearerAbove (x : Binary64) (low : Nat) (exp : Int) : Bool :=
  let (n, d) := x.ratio
  if 0 ≤ exp then (2 * low + 1) * (d * pow10 exp.toNat) < 2 * n
  else (2 * low + 1) * d < 2 * (n * pow10 (-exp).toNat)

/-- The neighbour on the grid of `10 ^ exp` that reads back, the nearer one if both do. -/
def Binary64.onGrid? (x : Binary64) (exp : Int) : Option Decimal :=
  let low := x.floorAt exp
  let below : Decimal := ⟨low, exp⟩
  let above : Decimal := ⟨low + 1, exp⟩
  match x.reads below, x.reads above with
  | true, true => some (if x.nearerAbove low exp then above else below)
  | true, false => some below
  | false, true => some above
  | false, false => none

/-- The decimal exponent of the leading digit of the magnitude. -/
def Binary64.leadingExponent (x : Binary64) : Int :=
  let (n, d) := x.ratio
  if d ≤ n then (decimalLength (n / d) : Int) - 1
  else
    let k := decimalLength (d / n)
    if n * pow10 (k - 1) = d then 1 - (k : Int) else -(k : Int)

/-- Try the grids of `left` and more digits below the leading exponent. -/
def Binary64.search (x : Binary64) (lead : Int) : Nat → Nat → Decimal
  | 0, n => ⟨x.floorAt (lead - n), lead - n⟩
  | fuel + 1, n =>
    match x.onGrid? (lead - n) with
    | some d => d
    | none => x.search lead fuel (n + 1)

/-- The shortest decimal that reads back as a finite number other than zero; seventeen digits always
suffice. -/
def Binary64.shortest (x : Binary64) : Decimal := x.search x.leadingExponent 17 0

/-- The decimal digits of a number without the zeros at its end, with their count. -/
def dropTrailingZeros (ds : List Char) : List Char :=
  (ds.reverse.dropWhile (· = '0')).reverse

/-- Where positional writing ends: the decimal exponents from `least` up to but not `most` are written
without an exponent. -/
structure Writing where
  least : Int
  most : Int

/-- Listings write numbers from a ten-thousandth up to a million without an exponent. -/
def Writing.listing : Writing := ⟨-4, 6⟩

/-- An exponent with its sign and at least two digits. -/
def exponentText (e : Int) : String :=
  let ds := Nat.toDigits 10 e.natAbs
  (if e < 0 then "e-" else "e+") ++ String.ofList (if ds.length < 2 then '0' :: ds else ds)

/-- Digits with the decimal point after `point` of them. -/
def positional (ds : List Char) (point : Int) : String :=
  if point ≤ 0 then "0." ++ String.ofList (List.replicate (-point).toNat '0' ++ ds)
  else if (ds.length : Int) ≤ point then
    String.ofList (ds ++ List.replicate (point.toNat - ds.length) '0')
  else String.ofList (ds.take point.toNat) ++ "." ++ String.ofList (ds.drop point.toNat)

/-- The text of a number: the shortest digits, positional or with an exponent. -/
def Binary64.text (f : Writing) (x : Binary64) : String :=
  if x.isNaN then "NaN"
  else if x.isInfinite then (if x.negative then "-Inf" else "+Inf")
  else
    let sign := if x.negative then "-" else ""
    if x.significand = 0 then sign ++ "0"
    else
      let d := x.shortest
      let all := Nat.toDigits 10 d.digits
      let e := (all.length : Int) - 1 + d.exp
      let ds := dropTrailingZeros all
      if e < f.least ∨ f.most ≤ e then
        let body := match ds with
          | [] => ""
          | [c] => String.singleton c
          | c :: cs => String.singleton c ++ "." ++ String.ofList cs
        sign ++ body ++ exponentText e
      else sign ++ positional ds (e + 1)

end Weft.Number
