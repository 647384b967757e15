/-!
# Operators

The unary and binary operators of expressions, with the precedence of the binary ones.
-/

namespace Weft

/-- The unary operators. -/
inductive UnaryOp where
  | neg | not
deriving DecidableEq, Repr, Inhabited

/-- The binary operators, in the order of their numbers. -/
inductive BinaryOp where
  | add | sub | mul | div | mod | lt | le | gt | ge | eq | ne | and | or
deriving DecidableEq, Repr, Inhabited

namespace UnaryOp

/-- The operator as it is written. -/
def text : UnaryOp → String
  | neg => "-"
  | not => "!"

/-- The unary operators by the way they are written. -/
def ofText? : String → Option UnaryOp
  | "-" => some neg
  | "!" => some not
  | _ => none

/-- The text of the operator with a number; every number but zero is the second operator. -/
def textOfNumber (n : Int) : String := if n = 0 then neg.text else not.text

end UnaryOp

namespace BinaryOp

/-- The operator as it is written. -/
def text : BinaryOp → String
  | add => "+"
  | sub => "-"
  | mul => "*"
  | div => "/"
  | mod => "%"
  | lt => "<"
  | le => "<="
  | gt => ">"
  | ge => ">="
  | eq => "=="
  | ne => "!="
  | and => "&&"
  | or => "||"

/-- Every binary operator, in the order of their numbers. -/
def all : List BinaryOp := [add, sub, mul, div, mod, lt, le, gt, ge, eq, ne, and, or]

/-- The binary operators by the way they are written. -/
def ofText? (s : String) : Option BinaryOp := all.find? (fun op => op.text = s)

/-- The text of the operator with a number. -/
def textOfNumber (n : Int) : String :=
  if n < 0 then "?" else
  match all[n.toNat]? with
  | some op => op.text
  | none => "?"

/-- How tightly an operator binds; a higher number binds tighter. -/
def precedence : BinaryOp → Nat
  | or => 1
  | and => 2
  | eq | ne => 3
  | lt | le | gt | ge => 4
  | add | sub => 5
  | mul | div | mod => 6

end BinaryOp

/-- The operators of assignments: a plain one and those that update the target. -/
inductive AssignOp where
  | set
  | update (op : BinaryOp)
deriving DecidableEq, Repr, Inhabited

/-- The operator as it is written. -/
def AssignOp.text : AssignOp → String
  | set => "="
  | update op => op.text ++ "="

end Weft
