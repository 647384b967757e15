import Weft.Analysis.Expr
import Weft.Tree.Height

/-!
# Statements

The analysis of one level of a statement, and of a whole body by as many levels as it is high.
-/

namespace Weft.Analysis

/-! ## Blocks, conditions and jumps -/

/-- The statements of a block, in a scope of their own. -/
def blockStmts (v : Visit) (b : Tree.Block) : Analysis (List Typed.Stmt) := inBlock (stmts v b.stmts)

/-- A block of a kind. -/
def group (v : Visit) (kind : Typed.Grouping) (b : Tree.Block) : Analysis Typed.Block := do
  return .group b.span.start.line kind (← blockStmts v b)

/-- The body of a loop. -/
def loopBody (v : Visit) (b : Tree.Block) : Analysis Typed.Block := inside .loop (group v .seq b)

/-- A condition. -/
def condition (v : Visit) (x : Tree.Expr) : Analysis Typed.Expr := do
  let (c, t) ← v.expr x (some .bool)
  match t with
  | some t => if !t.is .bool then report x.span (.badCondition (← typeName t))
  | none => pure ()
  return c

/-- Report a jump that no loop encloses or that would leave a defer block. -/
def checkJump (span : Span) (word : String) : Analysis Unit := do
  let (inLoop, crossesDefer) := (← body).loopState
  if !inLoop then report span (.notInLoop word)
  else if crossesDefer then report span (.leavesDefer word)

/-- A chain of conditions. -/
def conditions (v : Visit) (i : Tree.If) : Analysis Typed.Block := do
  let arms ← i.arms.mapM fun (x, b) => do
    let test ← condition v x
    return ({ test, body := ← group v .seq b } : Typed.Arm)
  let other ← i.last?.mapM (group v .seq)
  return .cond i.span.start.line arms other

/-- The first or the last statement of a counting loop, if there is one. -/
def loopStmt (v : Visit) : Option Tree.Stmt → Analysis (List Typed.Stmt)
  | some s => v.stmt s
  | none => return []

/-- The condition of a counting loop. Without one, it goes on. -/
def loopTest (v : Visit) (line : Nat) : Option Tree.Expr → Analysis Typed.Expr
  | some x => condition v x
  | none => return Typed.boolLiteral line true

/-- A counting loop: a block that holds the first statement and a loop with the last statement after its
body. -/
def forLoop (v : Visit) (span : Span) (init : Option Tree.Stmt) (cond : Option Tree.Expr)
    (post : Option Tree.Stmt) (b : Tree.Block) : Analysis Typed.Stmt := inBlock do
  let line := span.start.line
  let first ← loopStmt v init
  let test ← loopTest v line cond
  let inner ← loopBody v b
  let after ← loopStmt v post
  let loop := Typed.Block.whileLoop line test inner (some (.group line .seq after))
  return .block (.group line .seq (first ++ [.block loop]))

/-- The kind of block that a word opens. -/
def groupingOf : Tree.BlockWord → Typed.Grouping
  | .seq => .seq
  | .paral => .paral
  | .paralAll => .paralAll
  | .defer => .defer

/-- A block that a word opens. -/
def wordBlock (v : Visit) (w : Tree.BlockWord) (b : Tree.Block) : Analysis Typed.Block :=
  match w with
  | .defer => inside .defer (group v .defer b)
  | w => group v (groupingOf w) b

/-! ## Calls as statements -/

/-- A chain that ends in a call. -/
def callChain? : Tree.Expr → Option Tree.Chain
  | .chain c =>
    match c.items.getLast? with
    | some (.call _) => some c
    | _ => none
  | _ => none

/-- A chain as a statement that drops its values. -/
def discard (c : Typed.Chain) (t : Option Ty) : Typed.Stmt :=
  match (t.map Ty.valueCount).getD 0 with
  | 0 => .expr (.chain c)
  | n => .discard c.line n (.chain c)

/-- A statement that yields, which only coroutines may have. -/
def yielding (span : Span) (m : Analysis (List Typed.Stmt)) : Analysis (List Typed.Stmt) := do
  if !(← body).sig.coro then report span .yieldOutsideCoro
  updateBody ({ · with hasYield := true })
  m

/-- A return. -/
def returnStmt (v : Visit) (span : Span) (values : List Tree.Expr) : Analysis Typed.Stmt := do
  let b ← body
  if b.around.contains .defer then report span .returnInDefer
  let want := b.sig.returns
  let line := span.start.line
  match values with
  | [] =>
    if !want.is .void then report span .returnValueMissing
    return .ret line 0 []
  | [x] =>
    if want.is .void then
      report span .returnValueUnexpected
      return .ret line 0 []
    let (y, t) ← v.expr x (some want)
    checkAssignable x.span t (some want)
    return .ret line want.valueCount [y]
  | xs =>
    if want.is .void then
      report span .returnValueUnexpected
      return .ret line 0 []
    let items := match want with
      | .tuple items => items
      | _ => []
    if items.length ≠ xs.length then
      report span (.returnCount want.valueCount xs.length)
      return .ret line 0 []
    let ys ← (xs.zip items).mapM fun (x, item) => do
      let (y, t) ← v.expr x (some item)
      checkAssignable x.span t (some item)
      return y
    return .ret line xs.length ys

/-! ## Variables -/

/-- Declare a local variable. An unknown type becomes `any`. -/
def declareLocal (span : Span) (name : String) (t : Option Ty) : Analysis LocalVar := do
  if ((← body).find? name).isSome then report span (.variableRedefined name)
  declare name (t.getD .any) false

/-- The type of a single variable without a written type. -/
def inferType (d : Tree.VarDecl) (name : String) (t : Option Ty) : Analysis (Option Ty) := do
  match d.init, t with
  | none, _ =>
    report d.span (.untypedVariable name)
    return none
  | some _, none => return none
  | some x, some t =>
    if t.is .null then
      report x.span .inferFromNull
      return none
    else if t.valueCount ≠ 1 then
      report x.span (.inferFrom (← typeName t))
      return none
    else return some t

/-- The types of as many values as there are variables. -/
def valueTypes (span : Span) (n : Nat) : Option Ty → Analysis (Option (List Ty))
  | none => return none
  | some t => do
    let items := match t with
      | .tuple items => items
      | _ => []
    if items.length = n then return some items
    report span (.valueCount n (← typeName t))
    return none

/-- Store what is on the stack in a variable. -/
def storeLocal (line : Nat) (x : LocalVar) : Typed.Stmt :=
  .expr (.chain { line, type := x.type, yielded := false,
                  links := [access line (.writeVar x) x.name x.type []] })

/-- The type of a variable, from a written type or from a value of known type. -/
def variableType (d : Tree.VarDecl) (name : String) (written : Option Tree.TypeExpr) (t item : Option Ty) :
    Analysis (Option Ty) := do
  match written, item with
  | none, some item => return some item
  | none, none =>
    report d.span (.notInferred name)
    return t
  | some _, item =>
    checkAssignable ((d.init.map (·.span)).getD d.span) item t
    return t

/-- Declare several variables. `items` are the types of their values, if they are known. -/
def declareVars (d : Tree.VarDecl) : Nat → List ((String × Option Tree.TypeExpr) × Option Ty) →
    Option (List Ty) → Analysis (List LocalVar)
  | _, [], _ => return []
  | i, ((name, written), t) :: rest, items => do
    let t ← variableType d name written t (items.bind (·[i]?))
    let x ← declareLocal d.span name t
    return x :: (← declareVars d (i + 1) rest items)

/-- The type of a single variable. -/
def singleType (d : Tree.VarDecl) (name : String) (written : Option Tree.TypeExpr) (t initType : Option Ty) :
    Analysis (Option Ty) := do
  match written with
  | none => inferType d name initType
  | some _ =>
    checkAssignable ((d.init.map (·.span)).getD d.span) initType t
    return t

/-- The type that is written for a variable, if one is. -/
def writtenType (te : Option Tree.TypeExpr) : Analysis (Option Ty) := return (← te.mapM (resolveType false)).join

/-- A declaration of local variables. -/
def varStmt (v : Visit) (d : Tree.VarDecl) : Analysis (List Typed.Stmt) := do
  let line := d.span.start.line
  let types ← d.vars.mapM fun (_, te) => writtenType te
  let expect := match types with
    | [t] => t
    | _ => none
  let init ← d.init.mapM (v.expr · expect)
  let initType := init.bind Prod.snd
  match d.vars, types with
  | [(name, written)], [t] =>
    let t ← singleType d name written t initType
    let x ← declareLocal d.span name t
    return [.var { line, var := x, init := init.map Prod.fst }]
  | _, _ =>
    let items ← d.init.mapM fun x => valueTypes x.span d.vars.length initType
    let xs ← declareVars d 0 (d.vars.zip types) items.join
    let decls := xs.map fun x => Typed.Stmt.var { line, var := x, init := none }
    match init with
    | none => return decls
    | some (value, _) => return decls ++ [.expr value] ++ xs.reverse.map (storeLocal line)

/-! ## Assignments -/

/-- A chain, with the lambdas inside it. -/
def chainOf (v : Visit) (m : Mode) (c : Tree.Chain) : Analysis (Typed.Chain × Option Ty) :=
  chain v (lambda v) m c

/-- A plain assignment. The target comes first, so that its type can guide the value. -/
def setStmt (v : Visit) (target : Tree.Chain) (value : Tree.Expr) : Analysis (List Typed.Stmt) := do
  let (c, t) ← chainOf v (.write none) target
  let (x, xt) ← v.expr value t
  checkAssignable value.span xt t
  return [.expr (.chain (c.store x))]

/-- The type of an update, which has to fit the target. -/
def updateType (span : Span) (op : BinaryOp) : Option Ty → Option Ty → Analysis (Option Ty)
  | some l, some r => do
    match op.result (← store) l r with
    | .ok t =>
      checkAssignable span (some t) (some l)
      return some t
    | .error e =>
      report span (.operator e)
      return none
  | _, _ => return none

/-- An assignment that updates its target, which is read and then written. It may not call anything,
because it is evaluated twice. -/
def updateStmt (v : Visit) (span : Span) (op : BinaryOp) (target : Tree.Chain) (value : Tree.Expr) :
    Analysis (List Typed.Stmt) := do
  match (Tree.Expr.chain target).effect? with
  | some at' =>
    report at' .compoundWithCall
    return []
  | none =>
    let (c, l) ← chainOf v .read target
    let (x, r) ← v.expr value none
    let t ← updateType span op l r
    let sum := Typed.Expr.binary span.start.line op t (.chain c) x
    let (c, _) ← chainOf v (.write (some sum)) target
    return [.expr (.chain c)]

/-- The targets of an assignment of several values, up to the first that is no variable. -/
def targets (v : Visit) : Nat → List Tree.Expr → Option (List Ty) → Analysis (Option (List Typed.Stmt))
  | _, [], _ => return some []
  | i, x :: rest, items => do
    match x with
    | .chain ⟨span, .name s name, []⟩ =>
      let (c, t) ← chainOf v (.write none) ⟨span, .name s name, []⟩
      match items.bind (·[i]?) with
      | some item => checkAssignable x.span (some item) t
      | none => pure ()
      return (← targets v (i + 1) rest items).map (.expr (.chain c) :: ·)
    | _ =>
      report x.span .targetNotVariable
      return none

/-- An assignment of several values. -/
def multiStmt (v : Visit) (span : Span) (xs : List Tree.Expr) (op : AssignOp) (value : Tree.Expr) :
    Analysis (List Typed.Stmt) := do
  match op with
  | .update _ =>
    report span .compoundTargets
    return []
  | .set =>
    let (x, t) ← v.expr value none
    let items ← valueTypes value.span xs.length t
    match ← targets v 0 xs items with
    | none => return []
    | some writes => return .expr x :: writes.reverse

/-- An assignment. -/
def assignStmt (v : Visit) (span : Span) (xs : List Tree.Expr) (op : AssignOp) (value : Tree.Expr) :
    Analysis (List Typed.Stmt) := do
  match xs with
  | [.chain target] =>
    match op with
    | .set => setStmt v target value
    | .update op => updateStmt v span op target value
  | [x] =>
    report x.span .badTarget
    return []
  | xs => multiStmt v span xs op value

/-- A statement, given the analyses of the phrases inside it. -/
def stmtStep (v : Visit) (s : Tree.Stmt) : Analysis (List Typed.Stmt) := do
  match s with
  | .block b => return [.block (← group v .seq b)]
  | .var d => varStmt v d
  | .expr span x =>
    match callChain? x with
    | none =>
      report span .notStatement
      return []
    | some c =>
      let (c, t) ← chainOf v .read c
      return [discard c t]
  | .assign span xs op value => assignStmt v span xs op value
  | .ret span values => return [← returnStmt v span values]
  | .brk span =>
    checkJump span "break"
    return [.brk span.start.line]
  | .cont span =>
    checkJump span "continue"
    return [.cont span.start.line]
  | .cond i => return [.block (← conditions v i)]
  | .whileLoop span x b =>
    let test ← condition v x
    return [.block (.whileLoop span.start.line test (← loopBody v b) none)]
  | .doLoop span b x =>
    let inner ← loopBody v b
    return [.block (.doLoop span.start.line inner (← condition v x))]
  | .forLoop span init cond post b => return [← forLoop v span init cond post b]
  | .yield span => yielding span (return [.yield span.start.line])
  | .yieldWhile span x => yielding span do
    let line := span.start.line
    let test ← condition v x
    return [.block (.whileLoop line test (.group line .seq [.yield line]) none)]
  | .yieldCall span x => yielding span do
    match callChain? x with
    | none =>
      report x.span .yieldNeedsCall
      return []
    | some c =>
      let (c, t) ← chainOf v .read c
      return [discard { c with yielded := true } t]
  | .words _ w b => return [.block (← wordBlock v w b)]

/-- The analyses of phrases of at most a height. -/
def visit : Nat → Visit
  | 0 => { expr := fun x _ => return (Typed.nullLiteral x.span.start.line, none), stmt := fun _ => return [] }
  | n + 1 => { expr := exprStep (visit n), stmt := stmtStep (visit n) }

end Weft.Analysis
