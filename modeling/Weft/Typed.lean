import Weft.Number.Binary64
import Weft.Operator
import Weft.Position
import Weft.Symbol
import Weft.Typed.Arguments

/-!
# Typed programs

The tree of a program after its names are resolved and its types are checked. Every access says what it
reads, writes or calls, so that each node alone decides which instructions it becomes.
-/

namespace Weft.Typed

/-- What a call node does. -/
inductive CallKind where
  | readVar | writeVar | readGlobal | writeGlobal | readField | writeField | initField | func | funcRef
  | method | methodVirtual | methodIface | arrayGet | arraySet | mapGet | mapSet | funcPtr | varRef
deriving DecidableEq, Repr, Inhabited

namespace CallKind

/-- Every kind in the order of their numbers. -/
def all : List CallKind :=
  [readVar, writeVar, readGlobal, writeGlobal, readField, writeField, initField, func, funcRef, method,
   methodVirtual, methodIface, arrayGet, arraySet, mapGet, mapSet, funcPtr, varRef]

/-- The name of a kind. -/
def name : CallKind → String
  | readVar => "read_var"
  | writeVar => "write_var"
  | readGlobal => "read_global"
  | writeGlobal => "write_global"
  | readField => "read_field"
  | writeField => "write_field"
  | initField => "init_field"
  | func => "func"
  | funcRef => "func_ref"
  | method => "method"
  | methodVirtual => "method_virtual"
  | methodIface => "method_iface"
  | arrayGet => "arr_idx"
  | arraySet => "arr_idx_w"
  | mapGet => "map_idx"
  | mapSet => "map_idx_w"
  | funcPtr => "func_ptr"
  | varRef => "var_ref"

/-- Whether a kind stores a value. -/
def isWrite : CallKind → Bool
  | writeVar | writeGlobal | writeField | initField | arraySet | mapSet => true
  | _ => false

/-- Whether a kind invokes a function. -/
def isCall : CallKind → Bool
  | func | method | methodVirtual | methodIface | funcPtr => true
  | _ => false

/-- The name of the kind with a number. -/
def nameOfNumber (n : Nat) : String :=
  match all[n]? with
  | some k => k.name
  | none => s!"CallKind({n})"

end CallKind

/-- What a block does with its statements. -/
inductive BlockKind where
  | seq | cond | whileLoop | doLoop | body | paral | paralAll | defer
deriving DecidableEq, Repr, Inhabited

namespace BlockKind

/-- Every kind in the order of their numbers. -/
def all : List BlockKind := [seq, cond, whileLoop, doLoop, body, paral, paralAll, defer]

/-- The name of a kind. -/
def name : BlockKind → String
  | seq => "seq"
  | cond => "if"
  | whileLoop => "while"
  | doLoop => "do_while"
  | body => "func"
  | paral => "paral"
  | paralAll => "paral_all"
  | defer => "defer"

/-- Whether a kind is a loop. -/
def isLoop : BlockKind → Bool
  | whileLoop | doLoop => true
  | _ => false

/-- The name of the kind with a number. -/
def nameOfNumber (n : Nat) : String :=
  match all[n]? with
  | some k => k.name
  | none => "block?"

end BlockKind

/-- The blocks that hold a list of statements. -/
inductive Grouping where
  | seq | paral | paralAll | defer
deriving DecidableEq, Repr, Inhabited

namespace Grouping

/-- The kind of block of a grouping. -/
def kind : Grouping → BlockKind
  | seq => .seq
  | paral => .paral
  | paralAll => .paralAll
  | defer => .defer

/-- Whether the statements run in parallel. -/
def isParallel : Grouping → Bool
  | paral | paralAll => true
  | seq | defer => false

end Grouping

/-- The value of a literal. -/
inductive Literal where
  | int (value : Int)
  | float (value : Number.Binary64)
  | string (value : String)
  | bool (value : Bool)
  | null
deriving DecidableEq, Repr, Inhabited

/-- The three ways to use a type on a value: convert it, convert it or give null, and test it. -/
inductive CastKind where
  | explicit | asType | isType
deriving DecidableEq, Repr, Inhabited

/-- The number of a cast. -/
def CastKind.number : CastKind → Nat
  | explicit => 0
  | asType => 1
  | isType => 2

/-- What an access reads, writes or calls. Native properties and methods of collections have a slot
instead of a symbol. -/
inductive Access where
  | readVar (v : LocalVar)
  | writeVar (v : LocalVar)
  | varRef (v : LocalVar)
  | readGlobal (g : GlobalId)
  | writeGlobal (g : GlobalId)
  | readField (f : FieldId)
  | readNative (slot : Int)
  | writeField (f : FieldId)
  | initField (f : FieldId)
  | func (f : FuncId)
  | funcRef (f : FuncId)
  | method (f : FuncId)
  | methodNative (slot : Int)
  | methodVirtual (f : FuncId)
  | methodIface (f : FuncId)
  | arrayGet
  | arraySet
  | mapGet
  | mapSet
  | funcPtr
deriving Inhabited

/-- The kind of an access. -/
def Access.kind : Access → CallKind
  | readVar _ => .readVar
  | writeVar _ => .writeVar
  | varRef _ => .varRef
  | readGlobal _ => .readGlobal
  | writeGlobal _ => .writeGlobal
  | readField _ | readNative _ => .readField
  | writeField _ => .writeField
  | initField _ => .initField
  | func _ => .func
  | funcRef _ => .funcRef
  | method _ | methodNative _ => .method
  | methodVirtual _ => .methodVirtual
  | methodIface _ => .methodIface
  | arrayGet => .arrayGet
  | arraySet => .arraySet
  | mapGet => .mapGet
  | mapSet => .mapSet
  | funcPtr => .funcPtr

/-- Where a function is called, what the callee is called and whether it is a coroutine. -/
structure CallSite where
  span : Span
  name : String
  coro : Bool
deriving DecidableEq, Repr, Inhabited

/-- A variable that a lambda captures: its slot in the enclosing frame and in the frame of the lambda.
A variable is shared unless it is copied. -/
structure Upval where
  name : String
  src : Nat
  dst : Nat
  copied : Bool
deriving DecidableEq, Repr, Inhabited

mutual

/-- An expression. The type is unknown where a problem was reported. -/
inductive Expr where
  | literal (line : Nat) (value : Literal) (type : Ty)
  | unary (line : Nat) (op : UnaryOp) (type : Option Ty) (x : Expr)
  | binary (line : Nat) (op : BinaryOp) (type : Option Ty) (x y : Expr)
  | chain (c : Chain)
  | call (c : Call)
  | cast (line : Nat) (kind : CastKind) (type : Option Ty) (x : Expr)
  | new (line : Nat) (type : Option Ty) (inits : List Call)
  | collection (line : Nat) (type : Ty) (items : List Append)
  | lambda (fn : Lambda)

/-- Accesses one after the other; the value is that of the last one. A yielded chain ends in a call that
the coroutine waits for. -/
structure Chain where
  line : Nat
  type : Option Ty
  yielded : Bool
  links : List Expr

/-- One access. The arguments, indexes and stored values are its children, a stored value the last of
them. A write without a value stores what is on the stack. -/
structure Call where
  line : Nat
  access : Access
  name : String
  type : Option Ty
  args : Arguments
  site : Option CallSite
  children : List Expr

/-- One more element or entry of a collection. -/
inductive Append where
  | element (line : Nat) (x : Expr)
  | entry (line : Nat) (key value : Expr)

/-- A function without a name. -/
structure Lambda where
  line : Nat
  sig : Signature
  upvals : List Upval
  frame : Frame

/-- The number of slots of a function, its parameters, and its body with the line where it starts. -/
structure Frame where
  slots : Nat
  params : List VarDecl
  line : Nat
  body : List Stmt

/-- A local variable or a parameter with its first or default value. -/
structure VarDecl where
  line : Nat
  var : LocalVar
  init : Option Expr

/-- A statement. -/
inductive Stmt where
  | expr (x : Expr)
  | discard (line : Nat) (count : Nat) (x : Expr)
  | var (d : VarDecl)
  | ret (line : Nat) (count : Nat) (values : List Expr)
  | brk (line : Nat)
  | cont (line : Nat)
  | yield (line : Nat)
  | block (b : Block)

/-- A block. A conditional has one body for each condition and may have one more. The part of a loop
after its body runs before the next test of the condition. -/
inductive Block where
  | group (line : Nat) (kind : Grouping) (stmts : List Stmt)
  | cond (line : Nat) (arms : List Arm) (other : Option Block)
  | whileLoop (line : Nat) (test : Expr) (body : Block) (post : Option Block)
  | doLoop (line : Nat) (body : Block) (test : Expr)

/-- A condition and what is run when it holds. -/
structure Arm where
  test : Expr
  body : Block

end

instance : Inhabited Expr := ⟨.literal 0 .null .null⟩

/-- A function or method. It has no frame before its body is checked. -/
structure FuncDecl where
  line : Nat
  symbol : FuncId
  frame : Option Frame

/-- A declaration of a file. -/
inductive Decl where
  | importing (line : Nat) (name : String)
  | func (d : FuncDecl)
  | cls (line : Nat) (symbol : ClassId) (methods : List FuncDecl)
  | global (line : Nat) (symbol : GlobalId) (init : Option Expr)

/-- The typed tree of a file, its imports first. -/
structure Program where
  name : String
  decls : List Decl

/-- A literal without a value. -/
def nullLiteral (line : Nat) : Expr := .literal line .null .null

/-- A truth value. -/
def boolLiteral (line : Nat) (b : Bool) : Expr := .literal line (.bool b) .bool

/-- The line of an expression. -/
def Expr.line : Expr → Nat
  | literal l _ _ | unary l _ _ _ | binary l _ _ _ _ | cast l _ _ _ | new l _ _ | collection l _ _ => l
  | chain c => c.line
  | call c => c.line
  | lambda fn => fn.line

/-- The line of a block. -/
def Block.line : Block → Nat
  | group l _ _ | cond l _ _ | whileLoop l _ _ _ | doLoop l _ _ => l

/-- The line of a statement. -/
def Stmt.line : Stmt → Nat
  | expr x => x.line
  | discard l _ _ | ret l _ _ | brk l | cont l | yield l => l
  | var d => d.line
  | block b => b.line

/-- The line of a declaration. -/
def Decl.line : Decl → Nat
  | importing l _ | cls l _ _ | global l _ _ => l
  | func d => d.line

/-- The type of an expression. A test gives a truth value whatever type it tests for. -/
def Expr.type : Expr → Option Ty
  | literal _ _ t | collection _ t _ => some t
  | unary _ _ t _ | binary _ _ t _ _ | new _ t _ => t
  | cast _ .isType t _ => t.map fun _ => .bool
  | cast _ _ t _ => t
  | chain c => c.type
  | call c => c.type
  | lambda fn => some (.func fn.sig)

/-- Store a value by the last access of a chain, if that is a write. -/
def Chain.store (c : Chain) (value : Expr) : Chain :=
  match c.links.getLast? with
  | some (.call w) =>
    if w.access.kind.isWrite then
      { c with links := c.links.dropLast ++ [.call { w with children := w.children ++ [value] }] }
    else c
  | _ => c

end Weft.Typed
