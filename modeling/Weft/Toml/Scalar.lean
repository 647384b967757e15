import Weft.Number.Binary64
import Weft.Number.Literal
import Weft.Toml

/-!
# Numbers and times in settings

What a word without quotes means: a truth value, an integer of 64 bits in one of four bases, a number with
a fraction or an exponent, or a date, a time of day or both.
-/

namespace Weft.Toml

/-- Whether an underline stands only between digits, and there are digits. -/
def spacedDigits (digit : Char → Bool) : List Char → Bool
  | [] => false
  | [c] => digit c
  | c :: '_' :: rest => digit c && spacedDigits digit rest
  | c :: rest => digit c && spacedDigits digit rest

/-- The value of digits in a base, without the underlines between them. -/
def digitsIn (base : Nat) (cs : List Char) : Nat :=
  (cs.filter (· ≠ '_')).foldl (fun n c => n * base + (Number.digitValue? 16 c).getD 0) 0

/-- Whether a character is a digit of a base. -/
def isDigitIn (base : Nat) (c : Char) : Bool := (Number.digitValue? base c).isSome

/-- A word without its sign, and whether the sign was a minus. -/
def signed : List Char → Bool × List Char
  | '-' :: cs => (true, cs)
  | '+' :: cs => (false, cs)
  | cs => (false, cs)

/-- Whether digits start with a zero that means nothing. -/
def paddedZero : List Char → Bool
  | '0' :: _ :: _ => true
  | _ => false

/-- An integer, if it fits in 64 bits. -/
def fitting (n : Int) : Option Value :=
  if -(Number.pow2 63) ≤ n ∧ n < Number.pow2 63 then some (.int n) else none

/-- The integer that a word spells in another base than ten. -/
def based? : List Char → Option Value
  | '0' :: 'x' :: cs => if spacedDigits (isDigitIn 16) cs then fitting (digitsIn 16 cs) else none
  | '0' :: 'o' :: cs => if spacedDigits (isDigitIn 8) cs then fitting (digitsIn 8 cs) else none
  | '0' :: 'b' :: cs => if spacedDigits (isDigitIn 2) cs then fitting (digitsIn 2 cs) else none
  | _ => none

/-- The integer that a word spells in base ten. -/
def decimal? (cs : List Char) : Option Value :=
  let (minus, ds) := signed cs
  if spacedDigits Char.isDigit ds && !paddedZero ds then
    fitting (if minus then -(digitsIn 10 ds : Int) else digitsIn 10 ds)
  else none

/-- Whether a word spells a number with a fraction or an exponent that is not beyond all others. -/
def isFloat (cs : List Char) : Bool :=
  let (_, ds) := signed cs
  if ds = "inf".toList ∨ ds = "nan".toList then true
  else
    let whole := ds.takeWhile fun c => c.isDigit || c = '_'
    let rest := ds.dropWhile fun c => c.isDigit || c = '_'
    let (fraction, rest) : Option (List Char) × List Char := match rest with
      | '.' :: r => (some (r.takeWhile fun c => c.isDigit || c = '_'),
          r.dropWhile fun c => c.isDigit || c = '_')
      | r => (none, r)
    let exponent := match rest with
      | 'e' :: r | 'E' :: r => some r
      | _ => none
    let (down, e) := signed (exponent.getD ['0'])
    let size : Int := if down then -(digitsIn 10 e : Int) else digitsIn 10 e
    let digits := whole ++ fraction.getD []
    let shift := ((fraction.getD []).filter (· ≠ '_')).length
    spacedDigits Char.isDigit whole && !paddedZero whole
      && (fraction.map (spacedDigits Char.isDigit)).getD true
      && (exponent.isSome || rest.isEmpty) && (fraction.isSome || exponent.isSome)
      && spacedDigits Char.isDigit e
      && (Number.Binary64.ofDecimal? (digitsIn 10 digits) (size - shift)).isSome

/-- The number that two digits spell, if it does not exceed a bound. -/
def twoDigits (most : Nat) (a b : Char) : Option Nat :=
  if a.isDigit && b.isDigit then
    let n := digitsIn 10 [a, b]
    if n ≤ most then some n else none
  else none

/-- The days of a month. -/
def daysIn (year month : Nat) : Nat :=
  if month = 2 then (if year % 4 = 0 ∧ (year % 100 ≠ 0 ∨ year % 400 = 0) then 29 else 28)
  else if month = 4 ∨ month = 6 ∨ month = 9 ∨ month = 11 then 30
  else 31

/-- What stands behind a date. -/
def afterDate? : List Char → Option (List Char)
  | a :: b :: c :: d :: '-' :: e :: f :: '-' :: g :: h :: rest => do
    let century ← twoDigits 99 a b
    let year ← twoDigits 99 c d
    let month ← twoDigits 12 e f
    let day ← twoDigits 31 g h
    if month = 0 ∨ day = 0 ∨ daysIn (century * 100 + year) month < day then none else some rest
  | _ => none

/-- What stands behind a time of day. The seconds may be left out. -/
def afterTime? : List Char → Option (List Char)
  | a :: b :: ':' :: c :: d :: rest => do
    let _ ← twoDigits 23 a b
    let _ ← twoDigits 59 c d
    match rest with
    | ':' :: e :: f :: rest => do
      let _ ← twoDigits 59 e f
      match rest with
      | '.' :: g :: rest => if g.isDigit then some (rest.dropWhile Char.isDigit) else none
      | rest => some rest
    | rest => some rest
  | _ => none

/-- Whether a text is a distance from the standard time, or empty. -/
def isOffset : List Char → Bool
  | [] | ['Z'] | ['z'] => true
  | [s, a, b, ':', c, d] =>
    (s = '+' || s = '-') && (twoDigits 24 a b).isSome && (twoDigits 60 c d).isSome
  | _ => false

/-- Whether a text is a date, a time of day, or both. -/
def isTime (cs : List Char) : Bool :=
  match afterDate? cs with
  | some [] => true
  | some (t :: rest) => (t = 'T' || t = 't' || t = ' ') && ((afterTime? rest).map isOffset).getD false
  | none => afterTime? cs == some []

/-- The value that a word without quotes means. -/
def scalar? (cs : List Char) : Option Value :=
  if cs = "true".toList then some (.bool true)
  else if cs = "false".toList then some (.bool false)
  else (based? cs).or <| (decimal? cs).or <|
    if isFloat cs then some .float else if isTime cs then some .time else none

end Weft.Toml
