import Weft.Number.Literal
import Weft.Tree
import Weft.Tree.Cursor

/-!
# Reading programs

A recursive descent reader. A `Grammar` holds a reader for each phrase that may contain itself;
`Grammar.step` builds the readers of one more level of nesting from those of the levels below, and calls
a lower level only after it has read a token. A text of `n` tokens therefore never needs more than `n + 1`
levels, which is the number that `read` builds.
-/

namespace Weft.Tree

open Parse

/-- The readers of the phrases that may contain themselves. `binary` reads an expression whose operators
bind tighter than a number. -/
structure Grammar where
  type : Parse TypeExpr
  unary : Parse Expr
  binary : Nat → Parse Expr
  block : Parse Block
  cond : Parse If
  stmt : Parse Stmt
  decl : Parse Decl

namespace Grammar

/-- An expression inside other phrases. -/
def expr (g : Grammar) : Parse Expr := g.binary 0

/-! ## Types -/

/-- The names after the first of a dotted name. A point that no name follows is left alone. -/
def dottedRest : Nat → Parse (List String)
  | 0 => return []
  | n + 1 => do
    if (← sees .dot) && (← seesNext .ident) then
      advance
      let t ← current
      advance
      return t.text :: (← dottedRest n)
    else return []

/-- A parameter of a function type. -/
def paramType (g : Grammar) : Parse (Bool × TypeExpr) := do
  let ref ← accept .kwRef
  return (ref, ← g.type)

/-- The return types before the parameters of a function type or of a lambda. -/
def returnTypes (g : Grammar) : Parse (List TypeExpr) := do
  if ← sees .lparen then return [] else commaList g.type

/-- A type. -/
def typeStep (g : Grammar) : Parse TypeExpr := do
  let start ← here
  let t ← current
  match t.kind with
  | .lbracket =>
    advance
    if ← accept .rbracket then
      let elem ← g.type
      return .array (← spanFrom start) elem
    let key ← g.type
    let _ ← expect .rbracket
    let value ← g.type
    return .map (← spanFrom start) key value
  | .kwCoro | .kwFunc =>
    let coro ← accept .kwCoro
    let _ ← expect .kwFunc
    let returns ← g.returnTypes
    let _ ← expect .lparen
    let params ← listUntil .rparen g.paramType
    let _ ← expect .rparen
    return .func (← spanFrom start) coro returns params
  | .ident =>
    advance
    let more ← dottedRest (← rounds)
    return .named (← spanFrom start) (t.text :: more)
  | _ => fail (.expectedType t)

/-- Whether the tokens at the cursor start a declaration of variables with a type: a type, a name, and
one of the tokens that may follow the name. The cursor does not move. -/
def startsVarDecl (g : Grammar) : Parse Bool := do
  let k := (← current).kind
  if k ∈ [Kind.ident, .lbracket, .kwFunc, .kwCoro] then
    let found ← lookahead do
      let _ ← g.typeStep
      let next := (← get).following.kind
      return (← sees .ident) && decide (next ∈ [Kind.assign, .semicolon, .comma])
    return found.getD false
  else return false

/-! ## Expressions -/

/-- A parameter of a function. -/
def param (g : Grammar) : Parse Param := do
  let start ← here
  let ref ← accept .kwRef
  let type ← g.type
  let name ← expectName
  let default ← if ← accept .assign then some <$> g.expr else pure none
  return { span := ← spanFrom start, ref, type, name, default }

/-- The parameters of a function with their parentheses. -/
def params (g : Grammar) : Parse (List Param) := do
  let _ ← expect .lparen
  let ps ← listUntil .rparen g.param
  let _ ← expect .rparen
  return ps

/-- A function without a name. -/
def lambda (g : Grammar) : Parse Lambda := do
  let start ← here
  let coro ← accept .kwCoro
  let _ ← expect .kwFunc
  let returns ← g.returnTypes
  let ps ← g.params
  let body ← g.block
  return { span := ← spanFrom start, coro, returns, params := ps, body }

/-- An integer literal with its span. A literal without a value is noted where it stands. -/
def integer : Parse (Span × Int) := do
  let t ← current
  if t.kind = .int then
    match Number.integer? t.text with
    | some v =>
      advance
      return (t.span, v)
    | none => fail (.badInteger t.text)
  else fail (.expected .int t)

/-- An argument of a call. -/
def argument (g : Grammar) : Parse Arg := do
  let start ← here
  let ref ← accept .kwRef
  let name ← if (← sees .ident) && (← seesNext .colon) then do
      let t ← current
      advance
      advance
      pure (some t.text)
    else pure none
  let value ← g.expr
  return { span := ← spanFrom start, ref, name, value }

/-- The steps of a chain, as many as there are. -/
def chainItems (g : Grammar) : Nat → Parse (List Item)
  | 0 => return []
  | n + 1 => do
    let start ← here
    match (← current).kind with
    | .lparen =>
      advance
      let args ← listUntil .rparen g.argument
      let _ ← expect .rparen
      let item := Item.call ⟨← spanFrom start, args⟩
      return item :: (← g.chainItems n)
    | .dot =>
      advance
      let name ← expectName
      let item := Item.member (← spanFrom start) name
      return item :: (← g.chainItems n)
    | .lbracket =>
      advance
      let x ← g.expr
      let _ ← expect .rbracket
      let item := Item.index (← spanFrom start) x
      return item :: (← g.chainItems n)
    | _ => return []

/-- A chain with a root that has been read. -/
def chain (g : Grammar) (start : Pos) (root : Root) : Parse Expr := do
  let items ← g.chainItems (← rounds)
  return .chain ⟨← spanFrom start, root, items⟩

/-- A chain if steps follow the root, or else the root alone. -/
def chainOr (g : Grammar) (start : Pos) (root : Root) (alone : Expr) : Parse Expr := do
  match ← g.chainItems (← rounds) with
  | [] => return alone
  | items => return .chain ⟨← spanFrom start, root, items⟩

/-- The value that a construction gives to a field. -/
def fieldInit (g : Grammar) : Parse FieldInit := do
  let start ← here
  let name ← expectName
  let _ ← expect .colon
  let value ← g.expr
  return { span := ← spanFrom start, name, value }

/-- An operand: a literal, a chain, a construction or a collection. -/
def operand (g : Grammar) : Parse Expr := do
  let start ← here
  let t ← current
  match t.kind with
  | .int =>
    let (span, v) ← integer
    return .int span v
  | .float =>
    match Number.float? t.text with
    | some v =>
      advance
      return .float (← spanFrom start) v
    | none => fail (.badFloat t.text)
  | .string =>
    advance
    return .string (← spanFrom start) t.text
  | .kwTrue | .kwFalse =>
    advance
    return .bool (← spanFrom start) (t.kind = .kwTrue)
  | .kwNull =>
    advance
    return .null (← spanFrom start)
  | .ident =>
    advance
    g.chain start (.name (← spanFrom start) t.text)
  | .kwThis =>
    advance
    g.chain start (.this (← spanFrom start))
  | .kwBase =>
    advance
    g.chain start (.base (← spanFrom start))
  | .lparen =>
    advance
    let x ← g.expr
    let _ ← expect .rparen
    let span ← spanFrom start
    g.chainOr start (.paren span x) (.paren span x)
  | .kwCoro | .kwFunc =>
    let fn ← g.lambda
    g.chainOr start (.lambda fn) (.lambda fn)
  | .kwNew =>
    advance
    let type ← g.type
    let inits ← if ← accept .lbrace then do
        let inits ← listUntil .rbrace g.fieldInit
        let _ ← expect .rbrace
        pure inits
      else pure []
    return .new (← spanFrom start) type inits
  | .lbracket =>
    advance
    let elems ← listUntil .rbracket g.expr
    let _ ← expect .rbracket
    return .collection (← spanFrom start) elems
  | _ => fail (.unexpected t)

/-- The tokens that may start the operand of a cast. -/
def castOperand : List Kind :=
  [.ident, .int, .float, .string, .kwTrue, .kwFalse, .kwNull, .kwThis, .kwBase, .kwNew]

/-- A type in parentheses in front of an operand; otherwise the cursor does not move. -/
def castType (g : Grammar) : Parse (Option TypeExpr) :=
  attempt do
    let _ ← expect .lparen
    let t ← g.type
    let _ ← expect .rparen
    if (← current).kind ∈ castOperand then return t else failure

/-- An operand with the operators in front of it. -/
def unaryStep (g : Grammar) : Parse Expr := do
  let start ← here
  match (← current).kind with
  | .minus =>
    advance
    let x ← g.unary
    return .unary (← spanFrom start) .neg x
  | .not =>
    advance
    let x ← g.unary
    return .unary (← spanFrom start) .not x
  | .lparen =>
    match ← g.castType with
    | some t =>
      let x ← g.unary
      return .cast (← spanFrom start) t x
    | none => g.operand
  | _ => g.operand

/-- What a token between two operands asks for. -/
inductive Infix where
  | op (op : BinaryOp)
  | isType
  | asType
deriving DecidableEq, Repr

/-- The infix that a token stands for. -/
def Infix.ofKind? : Kind → Option Infix
  | .plus => some (.op .add)
  | .minus => some (.op .sub)
  | .star => some (.op .mul)
  | .slash => some (.op .div)
  | .percent => some (.op .mod)
  | .lt => some (.op .lt)
  | .le => some (.op .le)
  | .gt => some (.op .gt)
  | .ge => some (.op .ge)
  | .eq => some (.op .eq)
  | .ne => some (.op .ne)
  | .andAnd => some (.op .and)
  | .orOr => some (.op .or)
  | .kwIs => some .isType
  | .kwAs => some .asType
  | _ => none

/-- How tightly an infix binds. -/
def Infix.precedence : Infix → Nat
  | op o => o.precedence
  | isType | asType => 4

/-- The operators that follow an operand and bind tighter than a number, from left to right. -/
def binaryRest (g : Grammar) (least : Nat) (x : Expr) : Nat → Parse Expr
  | 0 => return x
  | n + 1 => do
    match Infix.ofKind? (← current).kind with
    | none => return x
    | some i =>
      if i.precedence ≤ least then return x
      advance
      let start := x.span.start
      match i with
      | .isType =>
        let t ← g.type
        g.binaryRest least (.isType (← spanFrom start) x t) n
      | .asType =>
        let t ← g.type
        g.binaryRest least (.asType (← spanFrom start) x t) n
      | .op op =>
        let y ← g.binary op.precedence
        g.binaryRest least (.binary (← spanFrom start) op x y) n

/-- An expression whose operators bind tighter than a number. -/
def binaryStep (g : Grammar) (least : Nat) : Parse Expr := do
  let x ← g.unaryStep
  g.binaryRest least x (← rounds)

/-- An expression. -/
def exprStep (g : Grammar) : Parse Expr := g.binaryStep 0

/-! ## Statements -/

/-- A variable of a declaration: `var` or a type, and the name. -/
def declared (g : Grammar) : Parse (String × Option TypeExpr) := do
  let type ← if ← accept .kwVar then pure none else some <$> g.typeStep
  return (← expectName, type)

/-- A declaration of variables, with its semicolon if asked for. -/
def varDecl (g : Grammar) (start : Pos) (fileLocal semicolon : Bool) : Parse VarDecl := do
  let vars ← commaList g.declared
  let init ← if ← accept .assign then some <$> g.expr else pure none
  if semicolon then
    let _ ← expect .semicolon
  return { span := ← spanFrom start, fileLocal, vars, init }

/-- The assignment operator that a token stands for. -/
def assignOp? : Kind → Option AssignOp
  | .assign => some .set
  | .plusAssign => some (.update .add)
  | .minusAssign => some (.update .sub)
  | .mulAssign => some (.update .mul)
  | .divAssign => some (.update .div)
  | _ => none

/-- A declaration, an assignment or an expression, without a semicolon. -/
def simpleStmt (g : Grammar) : Parse Stmt := do
  let start ← here
  if (← sees .kwVar) || (← g.startsVarDecl) then
    return .var (← g.varDecl start false false)
  let targets ← commaList g.exprStep
  match assignOp? (← current).kind with
  | some op =>
    advance
    let value ← g.expr
    if 1 < targets.length ∧ op ≠ .set then fail .compoundTargets
    return .assign (← spanFrom start) targets op value
  | none =>
    match targets with
    | [x] => return .expr (← spanFrom start) x
    | _ => fail (.expectedAssign (← current))

/-- A condition in parentheses. -/
def parenCond (g : Grammar) : Parse Expr := do
  let _ ← expect .lparen
  let x ← g.expr
  let _ ← expect .rparen
  return x

/-- Statements between braces. -/
def blockStep (g : Grammar) : Parse Block := do
  let start ← here
  let _ ← expect .lbrace
  let stmts ← blockItems g.stmt
  let _ ← expect .rbrace
  return ⟨← spanFrom start, stmts⟩

/-- A condition with what follows it. -/
def condStep (g : Grammar) : Parse If := do
  let start ← here
  let _ ← expect .kwIf
  let cond ← g.parenCond
  let body ← g.block
  let other ← if ← accept .kwElse then
      if ← sees .kwIf then Else.elseIf <$> g.cond else Else.block <$> g.block
    else pure Else.nothing
  return { span := ← spanFrom start, cond, body, other }

/-- A part of a loop header that may be missing. -/
def optionalUntil {α : Type} (close : Kind) (p : Parse α) : Parse (Option α) := do
  if ← sees close then return none else some <$> p

/-- A loop with a header of three parts. -/
def forLoop (g : Grammar) : Parse Stmt := do
  let start ← here
  let _ ← expect .kwFor
  let _ ← expect .lparen
  let init ← optionalUntil .semicolon g.simpleStmt
  let _ ← expect .semicolon
  let cond ← optionalUntil .semicolon g.expr
  let _ ← expect .semicolon
  let post ← optionalUntil .rparen g.simpleStmt
  let _ ← expect .rparen
  let body ← g.block
  return .forLoop (← spanFrom start) init cond post body

/-- The block word that a token stands for. -/
def blockWord? : Kind → Option BlockWord
  | .kwSeq => some .seq
  | .kwParal => some .paral
  | .kwParalAll => some .paralAll
  | .kwDefer => some .defer
  | _ => none

/-- What follows `yield`. -/
def yieldRest (g : Grammar) (start : Pos) : Parse Stmt := do
  if ← accept .semicolon then return .yield (← spanFrom start)
  if ← accept .kwWhile then
    let cond ← g.parenCond
    let _ ← expect .semicolon
    return .yieldWhile (← spanFrom start) cond
  let call ← g.expr
  let _ ← expect .semicolon
  return .yieldCall (← spanFrom start) call

/-- A statement. -/
def stmtStep (g : Grammar) : Parse Stmt := do
  let start ← here
  let k := (← current).kind
  match k with
  | .lbrace => return .block (← g.blockStep)
  | .kwVar => return .var (← g.varDecl start false true)
  | .kwReturn =>
    advance
    let values ← if ← sees .semicolon then pure [] else commaList g.expr
    let _ ← expect .semicolon
    return .ret (← spanFrom start) values
  | .kwBreak =>
    advance
    let _ ← expect .semicolon
    return .brk (← spanFrom start)
  | .kwContinue =>
    advance
    let _ ← expect .semicolon
    return .cont (← spanFrom start)
  | .kwIf => return .cond (← g.condStep)
  | .kwWhile =>
    advance
    let cond ← g.parenCond
    let body ← g.block
    return .whileLoop (← spanFrom start) cond body
  | .kwDo =>
    advance
    let body ← g.block
    let _ ← expect .kwWhile
    let cond ← g.parenCond
    let _ ← expect .semicolon
    return .doLoop (← spanFrom start) body cond
  | .kwFor => g.forLoop
  | .kwYield =>
    advance
    g.yieldRest start
  | _ =>
    match blockWord? k with
    | some w =>
      advance
      let body ← g.block
      return .words (← spanFrom start) w body
    | none =>
      let s ← g.simpleStmt
      let _ ← expect .semicolon
      return s

/-! ## Declarations -/

/-- The words in front of a declaration. -/
structure Modifiers where
  isStatic : Bool := false
  isVirtual : Bool := false
  isOverride : Bool := false

/-- Read the words in front of a declaration, in any order and number. -/
def modifiers (m : Modifiers) : Nat → Parse Modifiers
  | 0 => return m
  | n + 1 => do
    if ← accept .kwStatic then modifiers { m with isStatic := true } n
    else if ← accept .kwVirtual then modifiers { m with isVirtual := true } n
    else if ← accept .kwOverride then modifiers { m with isOverride := true } n
    else return m

/-- Whether the token at the cursor starts a function. -/
def seesFunc : Parse Bool := return (← sees .kwFunc) || (← sees .kwCoro)

/-- Whether a function, and not a variable of a function type, starts at the cursor. -/
def startsFunc (g : Grammar) : Parse Bool := do
  if ← seesFunc then return !(← g.startsVarDecl) else return false

/-- The return types and the name of a function. -/
def funcHeader (g : Grammar) : Parse (List TypeExpr × String) := do
  if (← sees .ident) && (← seesNext .lparen) then
    let t ← current
    advance
    return ([], t.text)
  let returns ← commaList g.type
  return (returns, ← expectName)

/-- A function with a body, or without one in an interface. -/
def funcDecl (g : Grammar) (start : Pos) (m : Modifiers) (withBody : Bool) : Parse FuncDecl := do
  let coro ← accept .kwCoro
  let _ ← expect .kwFunc
  let (returns, name) ← g.funcHeader
  let ps ← g.params
  let body ← if withBody then some <$> g.block else do
    let _ ← expect .semicolon
    pure none
  return { span := ← spanFrom start, fileLocal := m.isStatic, coro, virtual := m.isVirtual,
           override := m.isOverride, name, returns, params := ps, body }

/-- The types after a colon. -/
def bases (g : Grammar) : Parse (List TypeExpr) := do
  if ← accept .colon then commaList g.type else return []

/-- A member of a class. -/
def classMember (g : Grammar) : Parse (FieldDecl ⊕ FuncDecl) := do
  let start ← here
  let m ← modifiers {} (← rounds)
  if m.isStatic then fail .staticMember
  if ← g.startsFunc then return .inr (← g.funcDecl start m true)
  if m.isVirtual || m.isOverride then fail (.expectedFunc (← current))
  let type ← g.type
  let name ← expectName
  let _ ← expect .semicolon
  return .inl { span := ← spanFrom start, type, name }

/-- A class, from its keyword on. -/
def classDecl (g : Grammar) (start : Pos) (fileLocal : Bool) : Parse ClassDecl := do
  let _ ← expect .kwClass
  let name ← expectName
  let bases ← g.bases
  let _ ← expect .lbrace
  let members ← blockItems g.classMember
  let _ ← expect .rbrace
  return { span := ← spanFrom start, fileLocal, name, bases,
           fields := members.filterMap Sum.getLeft?, methods := members.filterMap Sum.getRight? }

/-- A method of an interface. -/
def interfaceMember (g : Grammar) : Parse FuncDecl := do
  let start ← here
  let m ← modifiers {} (← rounds)
  if m.isStatic || m.isVirtual || m.isOverride then fail .interfaceModifier
  g.funcDecl start m false

/-- An interface. -/
def interfaceDecl (g : Grammar) : Parse InterfaceDecl := do
  let start ← here
  let _ ← expect .kwInterface
  let name ← expectName
  let bases ← g.bases
  let _ ← expect .lbrace
  let methods ← blockItems g.interfaceMember
  let _ ← expect .rbrace
  return { span := ← spanFrom start, name, bases, methods }

/-- An item of an enumeration. -/
def enumItem : Parse EnumItem := do
  let start ← here
  let name ← expectName
  let _ ← expect .assign
  let negative ← accept .minus
  let (_, v) ← integer
  return { span := ← spanFrom start, name, value := if negative then -v else v }

/-- An enumeration. -/
def enumDecl : Parse EnumDecl := do
  let start ← here
  let _ ← expect .kwEnum
  let name ← expectName
  let _ ← expect .lbrace
  let items ← listUntil .rbrace enumItem
  let _ ← expect .rbrace
  return { span := ← spanFrom start, name, items }

/-- A namespace with its declarations. -/
def spaceDecl (g : Grammar) : Parse Decl := do
  let start ← here
  let _ ← expect .kwNamespace
  let path ← items .dot expectName (← rounds)
  let _ ← expect .lbrace
  let decls ← blockItems g.decl
  let _ ← expect .rbrace
  return .space (← spanFrom start) path decls

/-- A declaration that words may stand in front of. -/
def plainDecl (g : Grammar) : Parse Decl := do
  let start ← here
  let m ← modifiers {} (← rounds)
  if ← sees .kwClass then
    if m.isVirtual || m.isOverride then fail .classModifier
    return .cls (← g.classDecl start m.isStatic)
  if ← g.startsFunc then return .func (← g.funcDecl start m true)
  if m.isVirtual || m.isOverride then fail (.expectedFunc (← current))
  return .var (← g.varDecl start m.isStatic true)

/-- A declaration. -/
def declStep (g : Grammar) : Parse Decl := do
  match (← current).kind with
  | .kwNamespace => g.spaceDecl
  | .kwInterface => return .iface (← g.interfaceDecl)
  | .kwEnum => return .enumeration (← enumDecl)
  | _ => g.plainDecl

/-! ## Levels of nesting -/

/-- The readers of one more level of nesting. -/
def step (g : Grammar) : Grammar where
  type := g.typeStep
  unary := g.unaryStep
  binary := g.binaryStep
  block := g.blockStep
  cond := g.condStep
  stmt := g.stmtStep
  decl := g.declStep

/-- The readers that refuse every text. -/
def empty : Grammar where
  type := failure
  unary := failure
  binary := fun _ => failure
  block := failure
  cond := failure
  stmt := failure
  decl := failure

/-- The readers for a number of levels of nesting. -/
def levels : Nat → Grammar
  | 0 => empty
  | n + 1 => (levels n).step

end Grammar

/-- Run a reader of enough levels on a source text. -/
def read {α : Type} (file : String) (src : Bytes) (p : Grammar → Parse α) : Option α × Cursor :=
  let c := Cursor.start file src
  p (Grammar.levels (c.rest.length + 1)) c

/-- An import. -/
def importDecl : Parse Import := do
  let start ← here
  let _ ← expect .kwImport
  let t ← expect .string
  let _ ← expect .semicolon
  return { span := ← spanFrom start, path := t.text }

/-- An import or a declaration of a file. -/
def fileItem (g : Grammar) : Parse (Import ⊕ Decl) := do
  if ← sees .kwImport then return .inl (← importDecl) else return .inr (← g.decl)

/-- A source file, from the token at the cursor to the end. -/
def file (path : String) (g : Grammar) : Parse File := do
  let start ← here
  let items ← repeatUntil [.eof] (guarded (fileItem g)) (← rounds)
  let stop := (← current).span.stop
  return { path, span := ⟨start, stop⟩, imports := items.filterMap Sum.getLeft?,
           decls := items.filterMap Sum.getRight? }

/-- The tree of a source file with the problems found. Declarations that cannot be read are left out. -/
def parseFile (path : String) (src : Bytes) : File × List Diagnostic :=
  match read path src (file path) with
  | (some f, c) => (f, c.problems)
  | (none, c) => (⟨path, default, [], []⟩, c.problems)

/-- The expression at the start of a source text, if it can be read, with the problems found. -/
def parseExpression (path : String) (src : Bytes) : Option Expr × List Diagnostic :=
  let (x, c) := read path src Grammar.expr
  (x, c.problems)

/-- The type that a source text spells, or the problems found. -/
def parseType (src : Bytes) : Except (List Diagnostic) TypeExpr :=
  let whole := fun g : Grammar => do
    let t ← g.type
    if ← sees .eof then return t else fail (.afterType (← current))
  match read "" src whole with
  | (some t, c) => if c.problems.isEmpty then .ok t else .error c.problems
  | (none, c) => .error c.problems

end Weft.Tree
