import Weft.Number.Binary64
import Weft.Operator
import Weft.Position

/-!
# Written programs

The tree of a source file as it is written: declarations, statements, expressions and types, each with
its span. Names are not resolved and types are not checked here.
-/

namespace Weft.Tree

/-- A type as it is written. -/
inductive TypeExpr where
  | named (span : Span) (path : List String)
  | array (span : Span) (elem : TypeExpr)
  | map (span : Span) (key value : TypeExpr)
  | func (span : Span) (coro : Bool) (returns : List TypeExpr) (params : List (Bool × TypeExpr))
deriving Inhabited

/-- The words that open a block of their own. -/
inductive BlockWord where
  | seq | paral | paralAll | defer
deriving DecidableEq, Repr, Inhabited

/-- The word as it is written. -/
def BlockWord.text : BlockWord → String
  | seq => "seq"
  | paral => "paral"
  | paralAll => "paral_all"
  | defer => "defer"

mutual

/-- An expression. -/
inductive Expr where
  | int (span : Span) (value : Int)
  | float (span : Span) (value : Number.Binary64)
  | string (span : Span) (value : String)
  | bool (span : Span) (value : Bool)
  | null (span : Span)
  | paren (span : Span) (x : Expr)
  | lambda (fn : Lambda)
  | chain (c : Chain)
  | unary (span : Span) (op : UnaryOp) (x : Expr)
  | binary (span : Span) (op : BinaryOp) (x y : Expr)
  | cast (span : Span) (type : TypeExpr) (x : Expr)
  | asType (span : Span) (x : Expr) (type : TypeExpr)
  | isType (span : Span) (x : Expr) (type : TypeExpr)
  | new (span : Span) (type : TypeExpr) (inits : List FieldInit)
  | collection (span : Span) (elems : List Expr)

/-- A root followed by calls, members and indexes. -/
structure Chain where
  span : Span
  root : Root
  items : List Item

/-- What a chain starts with. -/
inductive Root where
  | name (span : Span) (name : String)
  | this (span : Span)
  | base (span : Span)
  | paren (span : Span) (x : Expr)
  | lambda (fn : Lambda)

/-- One step of a chain. -/
inductive Item where
  | call (c : Call)
  | member (span : Span) (name : String)
  | index (span : Span) (x : Expr)

/-- The arguments of a call with their parentheses. -/
structure Call where
  span : Span
  args : List Arg

/-- An argument of a call; `name` is set when it is passed by name. -/
structure Arg where
  span : Span
  ref : Bool
  name : Option String
  value : Expr

/-- The value that a construction gives to a field. -/
structure FieldInit where
  span : Span
  name : String
  value : Expr

/-- A function without a name. -/
structure Lambda where
  span : Span
  coro : Bool
  returns : List TypeExpr
  params : List Param
  body : Block

/-- A parameter of a function. -/
structure Param where
  span : Span
  ref : Bool
  type : TypeExpr
  name : String
  default : Option Expr

/-- A declaration of variables. A variable without a type takes that of its value. -/
structure VarDecl where
  span : Span
  fileLocal : Bool
  vars : List (String × Option TypeExpr)
  init : Option Expr

/-- Statements between braces. -/
structure Block where
  span : Span
  stmts : List Stmt

/-- A condition with what follows it. -/
structure If where
  span : Span
  cond : Expr
  body : Block
  other : Else

/-- What follows a condition that does not hold. -/
inductive Else where
  | nothing
  | elseIf (i : If)
  | block (b : Block)

/-- A statement. -/
inductive Stmt where
  | block (b : Block)
  | var (d : VarDecl)
  | expr (span : Span) (x : Expr)
  | assign (span : Span) (targets : List Expr) (op : AssignOp) (value : Expr)
  | ret (span : Span) (values : List Expr)
  | brk (span : Span)
  | cont (span : Span)
  | cond (i : If)
  | whileLoop (span : Span) (cond : Expr) (body : Block)
  | doLoop (span : Span) (body : Block) (cond : Expr)
  | forLoop (span : Span) (init : Option Stmt) (cond : Option Expr) (post : Option Stmt) (body : Block)
  | yield (span : Span)
  | yieldCall (span : Span) (call : Expr)
  | yieldWhile (span : Span) (cond : Expr)
  | words (span : Span) (word : BlockWord) (body : Block)

end

/-- A function, a method, or a method of an interface, which has no body. -/
structure FuncDecl where
  span : Span
  fileLocal : Bool
  coro : Bool
  virtual : Bool
  override : Bool
  name : String
  returns : List TypeExpr
  params : List Param
  body : Option Block

/-- A field of a class. -/
structure FieldDecl where
  span : Span
  type : TypeExpr
  name : String

/-- A class. -/
structure ClassDecl where
  span : Span
  fileLocal : Bool
  name : String
  bases : List TypeExpr
  fields : List FieldDecl
  methods : List FuncDecl

/-- An interface. -/
structure InterfaceDecl where
  span : Span
  name : String
  bases : List TypeExpr
  methods : List FuncDecl

/-- An item of an enumeration. -/
structure EnumItem where
  span : Span
  name : String
  value : Int

/-- An enumeration. -/
structure EnumDecl where
  span : Span
  name : String
  items : List EnumItem

/-- A declaration of a file or of a namespace. -/
inductive Decl where
  | space (span : Span) (path : List String) (decls : List Decl)
  | func (d : FuncDecl)
  | cls (d : ClassDecl)
  | iface (d : InterfaceDecl)
  | enumeration (d : EnumDecl)
  | var (d : VarDecl)

/-- An import of another module. -/
structure Import where
  span : Span
  path : String

/-- A source file. -/
structure File where
  path : String
  span : Span
  imports : List Import
  decls : List Decl

/-- The span of a type. -/
def TypeExpr.span : TypeExpr → Span
  | named s _ | array s _ | map s _ _ | func s _ _ _ => s

/-- The span of an expression. -/
def Expr.span : Expr → Span
  | int s _ | float s _ | string s _ | bool s _ | null s | paren s _ | unary s _ _ | binary s _ _ _
  | cast s _ _ | asType s _ _ | isType s _ _ | new s _ _ | collection s _ => s
  | lambda fn => fn.span
  | chain c => c.span

/-- The span of a step of a chain. -/
def Item.span : Item → Span
  | call c => c.span
  | member s _ | index s _ => s

mutual

/-- A type written without superfluous blanks. -/
def TypeExpr.text : TypeExpr → String
  | .named _ path => ".".intercalate path
  | .array _ elem => "[]" ++ elem.text
  | .map _ key value => "[" ++ key.text ++ "]" ++ value.text
  | .func _ coro returns params =>
    (if coro then "coro " else "") ++ "func " ++ ",".intercalate (texts returns) ++
      "(" ++ ",".intercalate (paramTexts params) ++ ")"

/-- The texts of a list of types. -/
def texts : List TypeExpr → List String
  | [] => []
  | t :: ts => t.text :: texts ts

/-- The texts of the parameters of a function type. -/
def paramTexts : List (Bool × TypeExpr) → List String
  | [] => []
  | (ref, t) :: ps => ((if ref then "ref " else "") ++ t.text) :: paramTexts ps

end

end Weft.Tree
