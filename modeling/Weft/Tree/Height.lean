import Weft.Tree

/-!
# Nesting

How deep the phrases of a program are nested. A phrase is higher than every expression and statement
inside it, so a computation that goes down one level at a time needs no more levels than the height.
-/

namespace Weft.Tree

mutual

/-- The height of an expression. -/
def Expr.height : Expr → Nat
  | .int _ _ | .float _ _ | .string _ _ | .bool _ _ | .null _ => 1
  | .paren _ x | .unary _ _ x | .cast _ _ x | .asType _ x _ | .isType _ x _ => x.height + 1
  | .lambda fn => fn.height + 1
  | .chain c => c.height + 1
  | .binary _ _ x y => max x.height y.height + 1
  | .new _ _ inits => initsHeight inits + 1
  | .collection _ elems => exprsHeight elems + 1

/-- The height of the parts of a chain. -/
def Chain.height : Chain → Nat
  | ⟨_, root, items⟩ => max root.height (itemsHeight items)

/-- The height of what a chain starts with. -/
def Root.height : Root → Nat
  | .name _ _ | .this _ | .base _ => 0
  | .paren _ x => x.height
  | .lambda fn => fn.height

/-- The height of a step of a chain. -/
def Item.height : Item → Nat
  | .call c => c.height
  | .member _ _ => 0
  | .index _ x => x.height

/-- The height of the arguments of a call. -/
def Call.height : Call → Nat
  | ⟨_, args⟩ => argsHeight args

/-- The height of an argument. -/
def Arg.height : Arg → Nat
  | ⟨_, _, _, value⟩ => value.height

/-- The height of the value of a field. -/
def FieldInit.height : FieldInit → Nat
  | ⟨_, _, value⟩ => value.height

/-- The height of the parts of a lambda. -/
def Lambda.height : Lambda → Nat
  | ⟨_, _, _, params, body⟩ => max (paramsHeight params) body.height

/-- The height of the default value of a parameter. -/
def Param.height : Param → Nat
  | ⟨_, _, _, _, none⟩ => 0
  | ⟨_, _, _, _, some x⟩ => x.height

/-- The height of the value of a declaration. -/
def VarDecl.height : VarDecl → Nat
  | ⟨_, _, _, none⟩ => 0
  | ⟨_, _, _, some x⟩ => x.height

/-- The height of the statements of a block. -/
def Block.height : Block → Nat
  | ⟨_, stmts⟩ => stmtsHeight stmts

/-- The height of the parts of a condition. -/
def If.height : If → Nat
  | ⟨_, cond, body, other⟩ => max cond.height (max body.height other.height)

/-- The height of what follows a condition. -/
def Else.height : Else → Nat
  | .nothing => 0
  | .elseIf i => i.height
  | .block b => b.height

/-- The height of a statement. -/
def Stmt.height : Stmt → Nat
  | .block b => b.height + 1
  | .var d => d.height + 1
  | .expr _ x => x.height + 1
  | .assign _ targets _ value => max (exprsHeight targets) value.height + 1
  | .ret _ values => exprsHeight values + 1
  | .brk _ | .cont _ | .yield _ => 1
  | .cond i => i.height + 1
  | .whileLoop _ x body => max x.height body.height + 1
  | .doLoop _ body x => max body.height x.height + 1
  | .forLoop _ init cond post body =>
    max (max (stmtHeight? init) (exprHeight? cond)) (max (stmtHeight? post) body.height) + 1
  | .yieldCall _ x | .yieldWhile _ x => x.height + 1
  | .words _ _ body => body.height + 1

/-- The height of an expression that may be absent. -/
def exprHeight? : Option Expr → Nat
  | none => 0
  | some x => x.height

/-- The height of a statement that may be absent. -/
def stmtHeight? : Option Stmt → Nat
  | none => 0
  | some s => s.height

/-- The height of a list of expressions. -/
def exprsHeight : List Expr → Nat
  | [] => 0
  | x :: xs => max x.height (exprsHeight xs)

/-- The height of the steps of a chain. -/
def itemsHeight : List Item → Nat
  | [] => 0
  | x :: xs => max x.height (itemsHeight xs)

/-- The height of a list of arguments. -/
def argsHeight : List Arg → Nat
  | [] => 0
  | x :: xs => max x.height (argsHeight xs)

/-- The height of the values of fields. -/
def initsHeight : List FieldInit → Nat
  | [] => 0
  | x :: xs => max x.height (initsHeight xs)

/-- The height of the default values of parameters. -/
def paramsHeight : List Param → Nat
  | [] => 0
  | x :: xs => max x.height (paramsHeight xs)

/-- The height of a list of statements. -/
def stmtsHeight : List Stmt → Nat
  | [] => 0
  | x :: xs => max x.height (stmtsHeight xs)

end

end Weft.Tree
