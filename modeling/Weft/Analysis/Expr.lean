import Weft.Analysis.Chain
import Weft.Tree.Flow

/-!
# Expressions

The analysis of one level of an expression, given the analyses of the levels below it.
-/

namespace Weft.Analysis

/-! ## Functions -/

/-- The most slots that a function can have. -/
def maxSlots : Nat := 127

/-- Declare the parameters of a function, each in the next slot. -/
def declareParams : List Tree.Param → List (Bool × Ty) → Analysis (List Typed.VarDecl)
  | p :: ps, (_, t) :: ts => do
    if p.name = "this" then report p.span .thisParam
    let x ← declare p.name t p.ref
    return { line := p.span.start.line, var := x, init := none } :: (← declareParams ps ts)
  | _, _ => return []

/-- Analyze the default values of parameters. -/
def defaultValues (v : Visit) : List Tree.Param → List (Bool × Ty) → List Typed.VarDecl →
    Analysis (List Typed.VarDecl)
  | p :: ps, (_, t) :: ts, d :: ds => do
    match p.default with
    | none => return d :: (← defaultValues v ps ts ds)
    | some x =>
      let (value, type) ← v.expr x (some t)
      checkAssignable x.span type (some t)
      return { d with init := some value } :: (← defaultValues v ps ts ds)
  | _, _, ds => return ds

/-- Analyze statements one after the other. -/
def stmts (v : Visit) (ss : List Tree.Stmt) : Analysis (List Typed.Stmt) := do
  return (← ss.mapM v.stmt).flatten

/-- The parameters and the statements of the body around the current place. -/
def frame (v : Visit) (params : List Tree.Param) (b : Tree.Block) :
    Analysis (List Typed.VarDecl × List Typed.Stmt) := do
  let types := (← body).sig.params
  let decls ← declareParams params types
  let decls ← defaultValues v params types decls
  return (decls, ← stmts v b.stmts)

/-- Check a body that has been analyzed: its slots, that it returns, and that a coroutine yields. -/
def checkBody (span : Span) (name : String) (b : Body) (block : Tree.Block) : Analysis Unit := do
  if maxSlots < b.slots then report span (.tooManyLocals name)
  if !b.sig.returns.is .void && !Tree.someReturns block.stmts then report span .returnMissing
  if b.sig.coro && !b.hasYield then report span (.yieldMissing name)

/-- A function without a name. -/
def lambda (v : Visit) (fn : Tree.Lambda) : Analysis (Typed.Expr × Option Ty) := do
  let sig ← resolveSignature fn.coro fn.returns fn.params
  let ((params, ss), b) ← inBody (.empty sig) (frame v fn.params fn.body)
  checkBody fn.span "lambda" b fn.body
  let frame := { slots := b.slots, params, line := fn.body.span.start.line, body := ss }
  return (.lambda { line := fn.span.start.line, sig, upvals := b.upvals, frame }, some (.func sig))

/-! ## Operators and casts -/

/-- A unary operation. -/
def unary (v : Visit) (span : Span) (op : UnaryOp) (x : Tree.Expr) :
    Analysis (Typed.Expr × Option Ty) := do
  let (x, t) ← v.expr x none
  let node := fun t => (Typed.Expr.unary span.start.line op t x, t)
  match t with
  | none => return node none
  | some t =>
    match op.result (← store) t with
    | .ok t => return node (some t)
    | .error e =>
      report span (.operator e)
      return node none

/-- A binary operation. -/
def binary (v : Visit) (span : Span) (op : BinaryOp) (x y : Tree.Expr) :
    Analysis (Typed.Expr × Option Ty) := do
  let (x, l) ← v.expr x none
  let (y, r) ← v.expr y none
  let node := fun t => (Typed.Expr.binary span.start.line op t x y, t)
  match l, r with
  | some l, some r =>
    match op.result (← store) l r with
    | .ok t => return node (some t)
    | .error e =>
      report span (.operator e)
      return node none
  | _, _ => return node none

/-- A cast or a test of a type. -/
def cast (v : Visit) (span : Span) (kind : Typed.CastKind) (x : Tree.Expr) (type : Tree.TypeExpr) :
    Analysis (Typed.Expr × Option Ty) := do
  let (x, src) ← v.expr x none
  let dst ← resolveType false type
  let node := Typed.Expr.cast span.start.line kind dst x
  match src, dst with
  | some src, some dst =>
    let s ← store
    if !src.castable s dst then report span (.badCast (src.typeName s) (dst.typeName s))
    match kind with
    | .isType => return (node, some .bool)
    | .asType =>
      if !dst.isReference then report type.span (.asValueType (dst.typeName s))
      return (node, some dst)
    | .explicit => return (node, some dst)
  | _, _ => return (node, none)

/-! ## Construction -/

/-- The values of the fields of a new instance. -/
def initFields (v : Visit) (c : ClassId) : List String → List Tree.FieldInit → Analysis (List Typed.Call)
  | _, [] => return []
  | seen, i :: rest => do
    let s ← store
    match s.classMember? c i.name with
    | some (.field f) =>
      if i.name ∈ seen then report i.span (.fieldTwice i.name)
      let type := (s.field f).type
      let (x, t) ← v.expr i.value type
      checkAssignable i.value.span t type
      let call : Typed.Call :=
        { line := i.value.span.start.line, access := .initField f, name := i.name, type,
          args := .empty, site := none, children := [x] }
      return call :: (← initFields v c (i.name :: seen) rest)
    | _ =>
      report i.span (.noField (s.cls c).typeName i.name)
      initFields v c seen rest

/-- A new instance of a class, or an empty collection. -/
def new (v : Visit) (span : Span) (type : Tree.TypeExpr) (inits : List Tree.FieldInit) :
    Analysis (Typed.Expr × Option Ty) := do
  let t ← resolveType false type
  let node := fun calls => Typed.Expr.new span.start.line t calls
  match t with
  | none => return (node [], none)
  | some (.cls c) => return (node (← initFields v c [] inits), t)
  | some (.array _) | some (.map _ _) =>
    if !inits.isEmpty then report span .initsWithoutClass
    return (node [], t)
  | some t =>
    report type.span (.notCreatable (← typeName t))
    return (node [], none)

/-- The elements of an array of known type. -/
def arrayElements (v : Visit) (elem : Ty) (xs : List Tree.Expr) : Analysis (List Typed.Append) :=
  xs.mapM fun x => do
    let (e, t) ← v.expr x (some elem)
    checkAssignable x.span t (some elem)
    return .element x.span.start.line e

/-- The entries of a map of known type. -/
def mapEntries (v : Visit) (key value : Ty) : List Tree.Expr → Analysis (List Typed.Append)
  | [] => return []
  | x :: rest => do
    match x with
    | .collection span [kx, vx] =>
      let (k, kt) ← v.expr kx (some key)
      checkAssignable kx.span kt (some key)
      let (e, vt) ← v.expr vx (some value)
      checkAssignable vx.span vt (some value)
      return .entry span.start.line k e :: (← mapEntries v key value rest)
    | _ =>
      report x.span .badMapEntry
      mapEntries v key value rest

/-- Whether the type of a first element can be that of all elements. -/
def decidesElement (t : Ty) : Bool := !t.is .null && t.valueCount == 1

/-- The elements of a collection whose first element decides the type. -/
def inferredElements (v : Visit) : List Tree.Expr → Analysis (List Typed.Append × Ty)
  | [] => return ([], .any)
  | x :: rest => do
    let (e, t) ← v.expr x none
    let elem := t.filter decidesElement
    let more ← rest.mapM fun x => do
      let (e, t) ← v.expr x elem
      if elem.isSome then checkAssignable x.span t elem
      return Typed.Append.element x.span.start.line e
    return (.element x.span.start.line e :: more, elem.getD .any)

/-- A collection of the expected type, or an array of the type of its first element. -/
def collection (v : Visit) (span : Span) (xs : List Tree.Expr) (expect : Option Ty) :
    Analysis (Typed.Expr × Option Ty) := do
  let (items, t) ← match expect with
    | some (.array elem) => do pure (← arrayElements v elem xs, Ty.array elem)
    | some (.map key value) => do pure (← mapEntries v key value xs, Ty.map key value)
    | _ => do
      let (items, elem) ← inferredElements v xs
      pure (items, Ty.array elem)
  return (.collection span.start.line t items, some t)

/-- An expression, given the analyses of the phrases inside it. -/
def exprStep (v : Visit) (x : Tree.Expr) (expect : Option Ty) : Analysis (Typed.Expr × Option Ty) := do
  let literal := fun (span : Span) (value : Typed.Literal) (t : Ty) =>
    (Typed.Expr.literal span.start.line value t, some t)
  match x with
  | .int span n => return literal span (.int n) .int
  | .float span x => return literal span (.float x) .float
  | .string span s => return literal span (.string s) .string
  | .bool span b => return literal span (.bool b) .bool
  | .null span => return literal span .null .null
  | .paren _ x => v.expr x expect
  | .lambda fn => lambda v fn
  | .chain c =>
    let (c, t) ← chain v (lambda v) .read c
    return (.chain c, t)
  | .unary span op x => unary v span op x
  | .binary span op x y => binary v span op x y
  | .cast span type x => cast v span .explicit x type
  | .asType span x type => cast v span .asType x type
  | .isType span x type => cast v span .isType x type
  | .new span type inits => new v span type inits
  | .collection span xs => collection v span xs expect

end Weft.Analysis
