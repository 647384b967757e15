import Weft.Proofs.Analysis.TrustedUnits
import Weft.Proofs.Renaming.Stores

/-!
# Programs of renamed symbols

Typed programs and units with other identities for the symbols that they refer to. Nothing else in them changes.
-/

namespace Weft.Typed

variable (σ : Renaming)

/-- An access with other identities. -/
def Access.rename : Access → Access
  | readVar v => .readVar (v.rename σ)
  | writeVar v => .writeVar (v.rename σ)
  | varRef v => .varRef (v.rename σ)
  | readGlobal g => .readGlobal (σ.global g)
  | writeGlobal g => .writeGlobal (σ.global g)
  | readField f => .readField (σ.field f)
  | readNative slot => .readNative slot
  | writeField f => .writeField (σ.field f)
  | initField f => .initField (σ.field f)
  | func f => .func (σ.func f)
  | funcRef f => .funcRef (σ.func f)
  | method f => .method (σ.func f)
  | methodNative slot => .methodNative slot
  | methodVirtual f => .methodVirtual (σ.func f)
  | methodIface f => .methodIface (σ.func f)
  | arrayGet => .arrayGet
  | arraySet => .arraySet
  | mapGet => .mapGet
  | mapSet => .mapSet
  | funcPtr => .funcPtr

@[simp] theorem Access.kind_rename (a : Access) : (a.rename σ).kind = a.kind := by cases a <;> rfl

mutual

/-- An expression with other identities. -/
def Expr.rename : Expr → Expr
  | .literal line v t => .literal line v (t.rename σ)
  | .unary line op t x => .unary line op (t.map (Ty.rename σ)) x.rename
  | .binary line op t x y => .binary line op (t.map (Ty.rename σ)) x.rename y.rename
  | .chain c => .chain c.rename
  | .call c => .call c.rename
  | .cast line kind t x => .cast line kind (t.map (Ty.rename σ)) x.rename
  | .new line t inits => .new line (t.map (Ty.rename σ)) (renameCalls inits)
  | .collection line t items => .collection line (t.rename σ) (renameAppends items)
  | .lambda fn => .lambda fn.rename

/-- A chain with other identities. -/
def Chain.rename : Chain → Chain
  | ⟨line, t, yielded, links⟩ => ⟨line, t.map (Ty.rename σ), yielded, renameExprs links⟩

/-- A call with other identities. -/
def Call.rename : Call → Call
  | ⟨line, a, name, t, args, site, children⟩ =>
    ⟨line, a.rename σ, name, t.map (Ty.rename σ), args, site, renameExprs children⟩

/-- An element or entry with other identities. -/
def Append.rename : Append → Append
  | .element line x => .element line x.rename
  | .entry line k v => .entry line k.rename v.rename

/-- A lambda with other identities. -/
def Lambda.rename : Lambda → Lambda
  | ⟨line, sig, upvals, fr⟩ => ⟨line, sig.rename σ, upvals, fr.rename⟩

/-- A frame with other identities. -/
def Frame.rename : Frame → Frame
  | ⟨slots, ps, line, body⟩ => ⟨slots, renameVars ps, line, renameStmts body⟩

/-- A variable with other identities. -/
def VarDecl.rename : VarDecl → VarDecl
  | ⟨line, v, none⟩ => ⟨line, v.rename σ, none⟩
  | ⟨line, v, some x⟩ => ⟨line, v.rename σ, some x.rename⟩

/-- A statement with other identities. -/
def Stmt.rename : Stmt → Stmt
  | .expr x => .expr x.rename
  | .discard line n x => .discard line n x.rename
  | .var d => .var d.rename
  | .ret line n values => .ret line n (renameExprs values)
  | .brk line => .brk line
  | .cont line => .cont line
  | .yield line => .yield line
  | .block b => .block b.rename

/-- A block with other identities. -/
def Block.rename : Block → Block
  | .group line kind ss => .group line kind (renameStmts ss)
  | .cond line arms none => .cond line (renameArms arms) none
  | .cond line arms (some b) => .cond line (renameArms arms) (some b.rename)
  | .whileLoop line test body none => .whileLoop line test.rename body.rename none
  | .whileLoop line test body (some post) => .whileLoop line test.rename body.rename (some post.rename)
  | .doLoop line body test => .doLoop line body.rename test.rename

/-- Expressions with other identities. -/
def renameExprs : List Expr → List Expr
  | [] => []
  | x :: xs => x.rename :: renameExprs xs

/-- Calls with other identities. -/
def renameCalls : List Call → List Call
  | [] => []
  | c :: cs => c.rename :: renameCalls cs

/-- Elements and entries with other identities. -/
def renameAppends : List Append → List Append
  | [] => []
  | a :: as => a.rename :: renameAppends as

/-- Variables with other identities. -/
def renameVars : List VarDecl → List VarDecl
  | [] => []
  | d :: ds => d.rename :: renameVars ds

/-- Statements with other identities. -/
def renameStmts : List Stmt → List Stmt
  | [] => []
  | s :: ss => s.rename :: renameStmts ss

/-- Branches with other identities. -/
def renameArms : List Arm → List Arm
  | [] => []
  | ⟨test, body⟩ :: arms => ⟨test.rename, body.rename⟩ :: renameArms arms

end

/-- A branch with other identities. -/
def Arm.rename (a : Arm) : Arm := ⟨a.test.rename σ, a.body.rename σ⟩

section Lists

theorem renameExprs_eq_map (xs : List Expr) : renameExprs σ xs = xs.map (Expr.rename σ) := by
  induction xs with
  | nil => rfl
  | cons x xs ih => rw [renameExprs, List.map_cons, ih]

theorem renameCalls_eq_map (cs : List Call) : renameCalls σ cs = cs.map (Call.rename σ) := by
  induction cs with
  | nil => rfl
  | cons c cs ih => rw [renameCalls, List.map_cons, ih]

theorem renameAppends_eq_map (as : List Append) : renameAppends σ as = as.map (Append.rename σ) := by
  induction as with
  | nil => rfl
  | cons a as ih => rw [renameAppends, List.map_cons, ih]

theorem renameVars_eq_map (ds : List VarDecl) : renameVars σ ds = ds.map (VarDecl.rename σ) := by
  induction ds with
  | nil => rfl
  | cons d ds ih => rw [renameVars, List.map_cons, ih]

theorem renameStmts_eq_map (ss : List Stmt) : renameStmts σ ss = ss.map (Stmt.rename σ) := by
  induction ss with
  | nil => rfl
  | cons s ss ih => rw [renameStmts, List.map_cons, ih]

theorem renameArms_eq_map (arms : List Arm) : renameArms σ arms = arms.map (Arm.rename σ) := by
  induction arms with
  | nil => rfl
  | cons a arms ih =>
    obtain ⟨test, body⟩ := a
    rw [renameArms, List.map_cons, ih]
    rfl

end Lists

/-! ## Phrases -/

namespace Expr

@[simp] theorem rename_literal (line : Nat) (v : Literal) (t : Ty) :
    (Expr.literal line v t).rename σ = .literal line v (t.rename σ) := rfl

@[simp] theorem rename_unary (line : Nat) (op : UnaryOp) (t : Option Ty) (x : Expr) :
    (Expr.unary line op t x).rename σ = .unary line op (t.map (Ty.rename σ)) (x.rename σ) := rfl

@[simp] theorem rename_binary (line : Nat) (op : BinaryOp) (t : Option Ty) (x y : Expr) :
    (Expr.binary line op t x y).rename σ = .binary line op (t.map (Ty.rename σ)) (x.rename σ) (y.rename σ) := rfl

@[simp] theorem rename_chain (c : Chain) : (Expr.chain c).rename σ = .chain (c.rename σ) := rfl

@[simp] theorem rename_call (c : Call) : (Expr.call c).rename σ = .call (c.rename σ) := rfl

@[simp] theorem rename_cast (line : Nat) (kind : CastKind) (t : Option Ty) (x : Expr) :
    (Expr.cast line kind t x).rename σ = .cast line kind (t.map (Ty.rename σ)) (x.rename σ) := rfl

@[simp] theorem rename_new (line : Nat) (t : Option Ty) (inits : List Call) :
    (Expr.new line t inits).rename σ = .new line (t.map (Ty.rename σ)) (inits.map (Call.rename σ)) := by
  rw [rename, renameCalls_eq_map]

@[simp] theorem rename_collection (line : Nat) (t : Ty) (items : List Append) :
    (Expr.collection line t items).rename σ = .collection line (t.rename σ) (items.map (Append.rename σ)) := by
  rw [rename, renameAppends_eq_map]

@[simp] theorem rename_lambda (fn : Lambda) : (Expr.lambda fn).rename σ = .lambda (fn.rename σ) := rfl

end Expr

@[simp] theorem Chain.rename_mk (line : Nat) (t : Option Ty) (yielded : Bool) (links : List Expr) :
    (Chain.mk line t yielded links).rename σ =
      ⟨line, t.map (Ty.rename σ), yielded, links.map (Expr.rename σ)⟩ := by
  rw [Chain.rename, renameExprs_eq_map]

@[simp] theorem Call.rename_mk (line : Nat) (a : Access) (name : String) (t : Option Ty) (args : Arguments)
    (site : Option CallSite) (children : List Expr) :
    (Call.mk line a name t args site children).rename σ =
      ⟨line, a.rename σ, name, t.map (Ty.rename σ), args, site, children.map (Expr.rename σ)⟩ := by
  rw [Call.rename, renameExprs_eq_map]

@[simp] theorem Append.rename_element (line : Nat) (x : Expr) :
    (Append.element line x).rename σ = .element line (x.rename σ) := rfl

@[simp] theorem Append.rename_entry (line : Nat) (k v : Expr) :
    (Append.entry line k v).rename σ = .entry line (k.rename σ) (v.rename σ) := rfl

@[simp] theorem Lambda.rename_mk (line : Nat) (sig : Signature) (upvals : List Upval) (fr : Frame) :
    (Lambda.mk line sig upvals fr).rename σ = ⟨line, sig.rename σ, upvals, fr.rename σ⟩ := rfl

@[simp] theorem Frame.rename_mk (slots : Nat) (ps : List VarDecl) (line : Nat) (body : List Stmt) :
    (Frame.mk slots ps line body).rename σ = ⟨slots, ps.map (VarDecl.rename σ), line, body.map (Stmt.rename σ)⟩ := by
  rw [rename, renameVars_eq_map, renameStmts_eq_map]

@[simp] theorem VarDecl.rename_mk (line : Nat) (v : LocalVar) (init : Option Expr) :
    (VarDecl.mk line v init).rename σ = ⟨line, v.rename σ, init.map (Expr.rename σ)⟩ := by
  cases init <;> rw [rename] <;> rfl

namespace Stmt

@[simp] theorem rename_expr (x : Expr) : (Stmt.expr x).rename σ = .expr (x.rename σ) := rfl

@[simp] theorem rename_discard (line n : Nat) (x : Expr) :
    (Stmt.discard line n x).rename σ = .discard line n (x.rename σ) := rfl

@[simp] theorem rename_var (d : VarDecl) : (Stmt.var d).rename σ = .var (d.rename σ) := rfl

@[simp] theorem rename_ret (line n : Nat) (values : List Expr) :
    (Stmt.ret line n values).rename σ = .ret line n (values.map (Expr.rename σ)) := by
  rw [rename, renameExprs_eq_map]

@[simp] theorem rename_brk (line : Nat) : (Stmt.brk line).rename σ = .brk line := rfl

@[simp] theorem rename_cont (line : Nat) : (Stmt.cont line).rename σ = .cont line := rfl

@[simp] theorem rename_yield (line : Nat) : (Stmt.yield line).rename σ = .yield line := rfl

@[simp] theorem rename_block (b : Block) : (Stmt.block b).rename σ = .block (b.rename σ) := rfl

end Stmt

namespace Block

@[simp] theorem rename_group (line : Nat) (kind : Grouping) (ss : List Stmt) :
    (Block.group line kind ss).rename σ = .group line kind (ss.map (Stmt.rename σ)) := by
  rw [rename, renameStmts_eq_map]

@[simp] theorem rename_cond (line : Nat) (arms : List Arm) (other : Option Block) :
    (Block.cond line arms other).rename σ = .cond line (arms.map (Arm.rename σ)) (other.map (Block.rename σ)) := by
  cases other <;> rw [rename, renameArms_eq_map] <;> rfl

@[simp] theorem rename_whileLoop (line : Nat) (test : Expr) (body : Block) (post : Option Block) :
    (Block.whileLoop line test body post).rename σ =
      .whileLoop line (test.rename σ) (body.rename σ) (post.map (Block.rename σ)) := by
  cases post <;> rw [rename] <;> rfl

@[simp] theorem rename_doLoop (line : Nat) (body : Block) (test : Expr) :
    (Block.doLoop line body test).rename σ = .doLoop line (body.rename σ) (test.rename σ) := rfl

end Block

@[simp] theorem Arm.rename_mk (test : Expr) (body : Block) :
    (Arm.mk test body).rename σ = ⟨test.rename σ, body.rename σ⟩ := rfl

/-! ## Programs -/

/-- A function with other identities. -/
def FuncDecl.rename (d : FuncDecl) : FuncDecl :=
  { d with symbol := σ.func d.symbol, frame := d.frame.map (Frame.rename σ) }

/-- A declaration with other identities. -/
def Decl.rename : Decl → Decl
  | .importing line name => .importing line name
  | .func d => .func (d.rename σ)
  | .cls line c methods => .cls line (σ.cls c) (methods.map (FuncDecl.rename σ))
  | .global line g init => .global line (σ.global g) (init.map (Expr.rename σ))

/-- A program with other identities. -/
def Program.rename (p : Program) : Program := { p with decls := p.decls.map (Decl.rename σ) }

/-! ## Lines and types -/

@[simp] theorem Expr.line_rename (x : Expr) : (x.rename σ).line = x.line := by
  cases x with
  | chain c =>
    obtain ⟨line, t, yielded, links⟩ := c
    simp [Expr.line]
  | call c =>
    obtain ⟨line, a, name, t, args, site, children⟩ := c
    simp [Expr.line]
  | lambda fn =>
    obtain ⟨line, sig, upvals, fr⟩ := fn
    simp [Expr.line]
  | _ => simp [Expr.line]

@[simp] theorem Block.line_rename (b : Block) : (b.rename σ).line = b.line := by cases b <;> simp [Block.line]

@[simp] theorem Stmt.line_rename (s : Stmt) : (s.rename σ).line = s.line := by
  cases s with
  | var d =>
    obtain ⟨line, v, init⟩ := d
    simp [Stmt.line]
  | _ => simp [Stmt.line]

@[simp] theorem Decl.line_rename (d : Decl) : (d.rename σ).line = d.line := by cases d <;> rfl

/-- A value is stored by the same access. -/
@[simp] theorem Chain.store_rename (c : Chain) (x : Expr) :
    (c.rename σ).store (x.rename σ) = (c.store x).rename σ := by
  obtain ⟨line, t, yielded, links⟩ := c
  unfold Chain.store
  simp only [Chain.rename_mk, List.getLast?_map]
  cases links.getLast? with
  | none => simp
  | some y =>
    cases y with
    | call w =>
      obtain ⟨line', a, name, t', args, site, children⟩ := w
      simp only [Option.map_some, Expr.rename_call, Call.rename_mk, Access.kind_rename]
      split
      · simp [List.map_dropLast]
      · simp
    | _ => simp

/-! ## Labelled trees -/

/-- A label with other identities. -/
def Label.rename : Label → Label
  | func f slots => .func (σ.func f) slots
  | cls c => .cls (σ.cls c)
  | var v => .var (v.rename σ)
  | global g => .global (σ.global g)
  | chain t yielded => .chain (t.map (Ty.rename σ)) yielded
  | call a name t args site => .call (a.rename σ) name (t.map (Ty.rename σ)) args site
  | cast kind t => .cast kind (t.map (Ty.rename σ))
  | new t => .new (t.map (Ty.rename σ))
  | collection t => .collection (t.rename σ)
  | l => l

mutual

/-- A labelled tree with other identities. -/
def Node.rename : Node → Node
  | ⟨line, label, kids⟩ => ⟨line, label.rename σ, renameForest kids⟩

/-- Labelled trees with other identities. -/
def renameForest : List Node → List Node
  | [] => []
  | n :: ns => n.rename :: renameForest ns

end

theorem renameForest_append (ns ms : List Node) : renameForest σ (ns ++ ms) = renameForest σ ns ++ renameForest σ ms := by
  induction ns with
  | nil => rfl
  | cons n ns ih => rw [List.cons_append, renameForest, renameForest, ih, List.cons_append]

section Nodes

mutual

theorem Expr.node_rename : (x : Expr) → (x.rename σ).node = x.node.rename σ
  | .literal .. => by simp only [Expr.rename, Expr.node, Node.rename, renameForest, Label.rename]
  | .unary _ _ _ x => by
    simp only [Expr.rename, Expr.node, Node.rename, renameForest, Label.rename, Expr.node_rename x]
  | .binary _ _ _ x y => by
    simp only [Expr.rename, Expr.node, Node.rename, renameForest, Label.rename, Expr.node_rename x, Expr.node_rename y]
  | .chain c => by simp only [Expr.rename, Expr.node, Chain.node_rename c]
  | .call c => by simp only [Expr.rename, Expr.node, Call.node_rename c]
  | .cast _ _ _ x => by
    simp only [Expr.rename, Expr.node, Node.rename, renameForest, Label.rename, Expr.node_rename x]
  | .new _ _ inits => by simp only [Expr.rename, Expr.node, Node.rename, Label.rename, callNodes_rename inits]
  | .collection _ _ items => by simp only [Expr.rename, Expr.node, Node.rename, Label.rename, appendNodes_rename items]
  | .lambda fn => by simp only [Expr.rename, Expr.node, Lambda.node_rename fn]

theorem Chain.node_rename : (c : Chain) → (c.rename σ).node = c.node.rename σ
  | ⟨_, _, _, links⟩ => by simp only [Chain.rename, Chain.node, Node.rename, Label.rename, exprNodes_rename links]

theorem Call.node_rename : (c : Call) → (c.rename σ).node = c.node.rename σ
  | ⟨_, _, _, _, _, _, children⟩ => by
    simp only [Call.rename, Call.node, Node.rename, Label.rename, exprNodes_rename children]

theorem Append.node_rename : (a : Append) → (a.rename σ).node = a.node.rename σ
  | .element _ x => by
    simp only [Append.rename, Append.node, Node.rename, renameForest, Label.rename, Expr.node_rename x]
  | .entry _ k v => by
    simp only [Append.rename, Append.node, Node.rename, renameForest, Label.rename, Expr.node_rename k,
      Expr.node_rename v]

theorem Lambda.node_rename : (fn : Lambda) → (fn.rename σ).node = fn.node.rename σ
  | ⟨_, _, _, ⟨_, ps, _, body⟩⟩ => by
    simp only [Lambda.rename, Frame.rename, Lambda.node, Node.rename, renameForest, Label.rename,
      varNodes_rename ps, stmtNodes_rename body]

theorem VarDecl.node_rename : (d : VarDecl) → (d.rename σ).node = d.node.rename σ
  | ⟨_, _, none⟩ => by simp only [VarDecl.rename, VarDecl.node, Node.rename, renameForest, Label.rename]
  | ⟨_, _, some x⟩ => by
    simp only [VarDecl.rename, VarDecl.node, Node.rename, renameForest, Label.rename, Expr.node_rename x]

theorem Stmt.node_rename : (s : Stmt) → (s.rename σ).node = s.node.rename σ
  | .expr x => by simp only [Stmt.rename, Stmt.node, Expr.node_rename x]
  | .discard _ _ x => by
    simp only [Stmt.rename, Stmt.node, Node.rename, renameForest, Label.rename, Expr.node_rename x]
  | .var d => by simp only [Stmt.rename, Stmt.node, VarDecl.node_rename d]
  | .ret _ _ values => by simp only [Stmt.rename, Stmt.node, Node.rename, Label.rename, exprNodes_rename values]
  | .brk _ => by simp only [Stmt.rename, Stmt.node, Node.rename, renameForest, Label.rename]
  | .cont _ => by simp only [Stmt.rename, Stmt.node, Node.rename, renameForest, Label.rename]
  | .yield _ => by simp only [Stmt.rename, Stmt.node, Node.rename, renameForest, Label.rename]
  | .block b => by simp only [Stmt.rename, Stmt.node, Block.node_rename b]

theorem Block.node_rename : (b : Block) → (b.rename σ).node = b.node.rename σ
  | .group _ _ ss => by simp only [Block.rename, Block.node, Node.rename, Label.rename, stmtNodes_rename ss]
  | .cond _ arms none => by simp only [Block.rename, Block.node, Node.rename, Label.rename, armNodes_rename arms]
  | .cond _ arms (some b) => by
    simp only [Block.rename, Block.node, Node.rename, Label.rename, armNodes_rename arms, renameForest_append,
      renameForest, Block.node_rename b]
  | .whileLoop _ test body none => by
    simp only [Block.rename, Block.node, Node.rename, renameForest, Label.rename, Expr.node_rename test,
      Block.node_rename body]
  | .whileLoop _ test body (some post) => by
    simp only [Block.rename, Block.node, Node.rename, renameForest, Label.rename, Expr.node_rename test,
      Block.node_rename body, Block.node_rename post]
  | .doLoop _ body test => by
    simp only [Block.rename, Block.node, Node.rename, renameForest, Label.rename, Expr.node_rename test,
      Block.node_rename body]

theorem exprNodes_rename : (xs : List Expr) → exprNodes (renameExprs σ xs) = renameForest σ (exprNodes xs)
  | [] => rfl
  | x :: xs => by rw [renameExprs, exprNodes, exprNodes, renameForest, Expr.node_rename x, exprNodes_rename xs]

theorem callNodes_rename : (cs : List Call) → callNodes (renameCalls σ cs) = renameForest σ (callNodes cs)
  | [] => rfl
  | c :: cs => by rw [renameCalls, callNodes, callNodes, renameForest, Call.node_rename c, callNodes_rename cs]

theorem appendNodes_rename : (as : List Append) → appendNodes (renameAppends σ as) = renameForest σ (appendNodes as)
  | [] => rfl
  | a :: as => by
    rw [renameAppends, appendNodes, appendNodes, renameForest, Append.node_rename a, appendNodes_rename as]

theorem varNodes_rename : (ds : List VarDecl) → varNodes (renameVars σ ds) = renameForest σ (varNodes ds)
  | [] => rfl
  | d :: ds => by rw [renameVars, varNodes, varNodes, renameForest, VarDecl.node_rename d, varNodes_rename ds]

theorem stmtNodes_rename : (ss : List Stmt) → stmtNodes (renameStmts σ ss) = renameForest σ (stmtNodes ss)
  | [] => rfl
  | s :: ss => by rw [renameStmts, stmtNodes, stmtNodes, renameForest, Stmt.node_rename s, stmtNodes_rename ss]

theorem armNodes_rename : (arms : List Arm) → armNodes (renameArms σ arms) = renameForest σ (armNodes arms)
  | [] => rfl
  | ⟨test, body⟩ :: arms => by
    rw [renameArms, armNodes, armNodes, renameForest, renameForest, Expr.node_rename test, Block.node_rename body,
      armNodes_rename arms]

end

mutual

theorem Node.preorder_rename : (n : Node) → (n.rename σ).preorder = n.preorder.map (Node.rename σ)
  | ⟨line, label, kids⟩ => by
    rw [Node.rename, Node.preorder, Node.preorder, List.map_cons, forestPreorder_rename kids, Node.rename]

/-- The trees below renamed ones. -/
theorem forestPreorder_rename : (ns : List Node) →
    forestPreorder (renameForest σ ns) = (forestPreorder ns).map (Node.rename σ)
  | [] => rfl
  | n :: ns => by
    rw [renameForest, forestPreorder, forestPreorder, List.map_append, Node.preorder_rename n,
      forestPreorder_rename ns]

end

end Nodes

end Weft.Typed

/-! ## Units of renamed symbols

A unit refers to the symbols that it declares, to the namespaces it is analyzed in, and to what its trees use.
-/

namespace Weft

section Renamed

variable (σ : Renaming)

/-- A module with other identities. -/
def Module.rename (m : Module) : Module :=
  { m with space := σ.space m.space, globals := m.globals.map (Option.map σ.global) }

/-- What waits for its type, with other identities. -/
def Pending.rename : Pending → Pending
  | .global g t => .global (σ.global g) t
  | .field f t => .field (σ.field f) t
  | .func f t => .func (σ.func f) t
  | .classBase c super t => .classBase (σ.cls c) super t
  | .interfaceBase i t => .interfaceBase (σ.iface i) t

namespace Analysis

/-- A method with other identities. -/
def Method.rename (m : Method) : Method :=
  { m with symbol := σ.func m.symbol, frame := m.frame.map (Typed.Frame.rename σ) }

/-- A declaration with other identities. -/
def Item.rename : Item → Item
  | .func sc m => .func (sc.rename σ) (m.rename σ)
  | .cls sc d c methods => .cls (sc.rename σ) d (σ.cls c) (methods.map (Method.rename σ))
  | .iface sc d i methods => .iface (sc.rename σ) d (σ.iface i) (methods.map (Method.rename σ))
  | .global sc d type g init => .global (sc.rename σ) d type (σ.global g) (init.map (Typed.Expr.rename σ))

/-- An import with another identity. -/
def Imported.rename (i : Imported) : Imported := { i with space := σ.space i.space }

/-- What a unit is made from, with other identities. -/
def Source.rename : Source → Source
  | .fresh tree items imports => .fresh tree (items.map (Item.rename σ)) (imports.map (Imported.rename σ))
  | .cached record imports pending => .cached record imports (pending.map (Pending.rename σ))

/-- A unit with other identities. -/
def FileUnit.rename (u : FileUnit) : FileUnit := { u with module := u.module.rename σ, source := u.source.rename σ }

theorem FileUnit.clean_rename {u : FileUnit} (hu : u.Clean) : (u.rename σ).Clean := ⟨hu.diags, hu.unbroken⟩

theorem FileUnit.typedMethod_rename (m : Method) :
    FileUnit.typedMethod (m.rename σ) = (FileUnit.typedMethod m).rename σ := rfl

theorem FileUnit.typedItem_rename (i : Item) :
    FileUnit.typedItem (i.rename σ) = (FileUnit.typedItem i).map (Typed.Decl.rename σ) := by
  cases i with
  | cls sc d c methods =>
    simp [FileUnit.typedItem, Item.rename, Typed.Decl.rename, Function.comp_def, FileUnit.typedMethod_rename]
  | _ => rfl

/-- The typed tree of a unit with other identities. -/
theorem FileUnit.program?_rename (u : FileUnit) : (u.rename σ).program? = u.program?.map (Typed.Program.rename σ) := by
  obtain ⟨file, module, diags, broken, source⟩ := u
  cases source with
  | cached record imports pending => rfl
  | fresh tree items imports =>
    have hitems : (items.map (Item.rename σ)).filterMap FileUnit.typedItem =
        (items.filterMap FileUnit.typedItem).map (Typed.Decl.rename σ) := by
      rw [List.filterMap_map, List.map_filterMap]
      exact congrArg (List.filterMap · items) (funext (FileUnit.typedItem_rename σ))
    simp only [FileUnit.rename, Source.rename, FileUnit.program?, Option.map_some, Typed.Program.rename,
      List.map_append, hitems, List.map_map]
    rfl

end Analysis

end Renamed

end Weft
