/-!
# Packed argument counts

A call tells its callee how many arguments it pushed and which parameters with a default value it left
out. Both are packed into one word: the count in the low six bits, and above it one bit for each parameter
with a default value.
-/

namespace Weft.Typed

/-- How many arguments a call pushes, and which default values the callee has to compute. -/
structure Arguments where
  word : UInt32
deriving DecidableEq, Repr, Inhabited

/-- Why a number does not fit the packed form. -/
inductive ArgumentsError where
  | count (n : Int)
  | defaultIndex (i : Int)
deriving DecidableEq, Repr

/-- The text of the problem. -/
def ArgumentsError.message : ArgumentsError → String
  | count n => s!"argument count {n} out of range"
  | defaultIndex i => s!"default argument index {i} out of range"

namespace Arguments

/-- No arguments, and no default value left to the callee. -/
def empty : Arguments := ⟨0⟩

/-- The most arguments that a call can push. -/
def maxCount : Nat := 63

/-- The most default values that a function can have. -/
def maxDefaults : Nat := 26

/-- The bits of the count. -/
def countMask : UInt32 := 63

/-- The bit of a default value. -/
def defaultBit (i : Nat) : UInt32 := (1 : UInt32) <<< (6 + i).toUInt32

/-- How many arguments the call pushes. -/
def count (a : Arguments) : Nat := (a.word &&& countMask).toNat

/-- Set the number of arguments. -/
def withCount (a : Arguments) (n : Int) : Except ArgumentsError Arguments :=
  if n < 0 ∨ (maxCount : Int) < n then .error (.count n)
  else .ok ⟨(a.word &&& ~~~countMask) ||| n.toNat.toUInt32⟩

/-- Leave a default value to the callee. -/
def useDefault (a : Arguments) (i : Int) : Except ArgumentsError Arguments :=
  if i < 0 ∨ (maxDefaults : Int) ≤ i then .error (.defaultIndex i)
  else .ok ⟨a.word ||| defaultBit i.toNat⟩

/-- Whether a default value is left to the callee. -/
def defaultUsed (a : Arguments) (i : Int) : Bool :=
  if i < 0 ∨ (maxDefaults : Int) ≤ i then false
  else a.word &&& defaultBit i.toNat != 0

/-- The word as an operand of an instruction, which is signed. -/
def operand (a : Arguments) : Int := a.word.toInt32.toInt

end Arguments

end Weft.Typed
