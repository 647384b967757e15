import Weft.Tree

/-!
# Control flow and effects as they are written

Whether a list of statements returns on every path, which part of an expression has an effect, and the
conditions of a chain of `if` and `else if` in order.
-/

namespace Weft.Tree

mutual

/-- Whether a statement returns on every path. Loops and parallel blocks never count. -/
def Stmt.returns : Stmt → Bool
  | .ret _ _ => true
  | .block ⟨_, stmts⟩ => someReturns stmts
  | .words _ .seq ⟨_, stmts⟩ => someReturns stmts
  | .cond i => i.returns
  | _ => false

/-- Whether both branches of a condition return. -/
def If.returns : If → Bool
  | ⟨_, _, ⟨_, stmts⟩, other⟩ => someReturns stmts && other.returns

/-- Whether what follows a condition returns. -/
def Else.returns : Else → Bool
  | .nothing => false
  | .elseIf i => i.returns
  | .block ⟨_, stmts⟩ => someReturns stmts

/-- Whether one of a list of statements returns on every path. -/
def someReturns : List Stmt → Bool
  | [] => false
  | s :: rest => s.returns || someReturns rest

end

mutual

/-- The first call, construction or lambda in an expression. An expression without one can be evaluated
twice. -/
def Expr.effect? : Expr → Option Span
  | .chain ⟨_, root, items⟩ => root.effect?.or (firstItemEffect? items)
  | .paren _ x | .unary _ _ x | .cast _ _ x | .asType _ x _ | .isType _ x _ => x.effect?
  | .binary _ _ x y => x.effect?.or y.effect?
  | .collection _ elems => firstEffect? elems
  | .new span _ _ => some span
  | .lambda ⟨span, _, _, _, _⟩ => some span
  | .int _ _ | .float _ _ | .string _ _ | .bool _ _ | .null _ => none

/-- The first effect of what a chain starts with. -/
def Root.effect? : Root → Option Span
  | .name _ _ | .this _ | .base _ => none
  | .paren _ x => x.effect?
  | .lambda ⟨span, _, _, _, _⟩ => some span

/-- The effect of a step of a chain. -/
def Item.effect? : Item → Option Span
  | .call ⟨span, _⟩ => some span
  | .member _ _ => none
  | .index _ x => x.effect?

/-- The first effect in a list of expressions. -/
def firstEffect? : List Expr → Option Span
  | [] => none
  | x :: xs => x.effect?.or (firstEffect? xs)

/-- The first effect in the steps of a chain. -/
def firstItemEffect? : List Item → Option Span
  | [] => none
  | x :: xs => x.effect?.or (firstItemEffect? xs)

end

mutual

/-- The conditions of a chain of `if` and `else if`, each with its block. -/
def If.arms : If → List (Expr × Block)
  | ⟨_, cond, body, other⟩ => (cond, body) :: other.arms

/-- The conditions in what follows a condition. -/
def Else.arms : Else → List (Expr × Block)
  | .elseIf i => i.arms
  | .nothing | .block _ => []

end

mutual

/-- The block of the last `else`. -/
def If.last? : If → Option Block
  | ⟨_, _, _, other⟩ => other.last?

/-- The last block in what follows a condition. -/
def Else.last? : Else → Option Block
  | .elseIf i => i.last?
  | .nothing => none
  | .block b => some b

end

end Weft.Tree
