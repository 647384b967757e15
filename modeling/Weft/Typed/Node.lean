import Weft.Number.Shortest
import Weft.Text.Quoted
import Weft.Type.Check
import Weft.Typed

/-!
# Typed programs as labelled trees

What all nodes of a typed program have in common: a label, a line and children in order. Listings of a
program and searches through all of it are written on this view.
-/

namespace Weft.Typed

/-- What a node is, apart from its children. -/
inductive Label where
  | module (name : String)
  | importing (name : String)
  | func (f : FuncId) (slots : Nat)
  | lambda (slots : Nat) (upvals : List Upval)
  | params
  | cls (c : ClassId)
  | var (v : LocalVar)
  | global (g : GlobalId)
  | block (kind : BlockKind)
  | ret (count : Nat)
  | brk
  | cont
  | yield
  | discard (count : Nat)
  | literal (value : Literal)
  | unary (op : UnaryOp)
  | binary (op : BinaryOp)
  | chain (type : Option Ty) (yielded : Bool)
  | call (access : Access) (name : String) (type : Option Ty) (args : Arguments) (site : Option CallSite)
  | cast (kind : CastKind) (type : Option Ty)
  | new (type : Option Ty)
  | collection (type : Ty)
  | append

/-- A labelled tree. -/
structure Node where
  line : Nat
  label : Label
  kids : List Node

mutual

/-- An expression as a labelled tree. -/
def Expr.node : Expr → Node
  | .literal l v _ => ⟨l, .literal v, []⟩
  | .unary l op _ x => ⟨l, .unary op, [x.node]⟩
  | .binary l op _ x y => ⟨l, .binary op, [x.node, y.node]⟩
  | .chain c => c.node
  | .call c => c.node
  | .cast l k t x => ⟨l, .cast k t, [x.node]⟩
  | .new l t inits => ⟨l, .new t, callNodes inits⟩
  | .collection l t items => ⟨l, .collection t, appendNodes items⟩
  | .lambda fn => fn.node

/-- A chain as a labelled tree. -/
def Chain.node : Chain → Node
  | ⟨l, t, yielded, links⟩ => ⟨l, .chain t yielded, exprNodes links⟩

/-- An access as a labelled tree. -/
def Call.node : Call → Node
  | ⟨l, access, name, t, args, site, children⟩ => ⟨l, .call access name t args site, exprNodes children⟩

/-- An element or entry of a collection as a labelled tree. -/
def Append.node : Append → Node
  | .element l x => ⟨l, .append, [x.node]⟩
  | .entry l k v => ⟨l, .append, [k.node, v.node]⟩

/-- A lambda as a labelled tree. -/
def Lambda.node : Lambda → Node
  | ⟨l, _, upvals, ⟨slots, params, bodyLine, body⟩⟩ =>
    ⟨l, .lambda slots upvals,
      [⟨0, .params, varNodes params⟩, ⟨bodyLine, .block .body, stmtNodes body⟩]⟩

/-- A variable as a labelled tree. -/
def VarDecl.node : VarDecl → Node
  | ⟨l, v, none⟩ => ⟨l, .var v, []⟩
  | ⟨l, v, some x⟩ => ⟨l, .var v, [x.node]⟩

/-- A statement as a labelled tree. -/
def Stmt.node : Stmt → Node
  | .expr x => x.node
  | .discard l n x => ⟨l, .discard n, [x.node]⟩
  | .var d => d.node
  | .ret l n values => ⟨l, .ret n, exprNodes values⟩
  | .brk l => ⟨l, .brk, []⟩
  | .cont l => ⟨l, .cont, []⟩
  | .yield l => ⟨l, .yield, []⟩
  | .block b => b.node

/-- A block as a labelled tree. -/
def Block.node : Block → Node
  | .group l k stmts => ⟨l, .block k.kind, stmtNodes stmts⟩
  | .cond l arms none => ⟨l, .block .cond, armNodes arms⟩
  | .cond l arms (some b) => ⟨l, .block .cond, armNodes arms ++ [b.node]⟩
  | .whileLoop l test body none => ⟨l, .block .whileLoop, [test.node, body.node]⟩
  | .whileLoop l test body (some post) => ⟨l, .block .whileLoop, [test.node, body.node, post.node]⟩
  | .doLoop l body test => ⟨l, .block .doLoop, [body.node, test.node]⟩

/-- The trees of expressions. -/
def exprNodes : List Expr → List Node
  | [] => []
  | x :: xs => x.node :: exprNodes xs

/-- The trees of accesses. -/
def callNodes : List Call → List Node
  | [] => []
  | x :: xs => x.node :: callNodes xs

/-- The trees of elements and entries. -/
def appendNodes : List Append → List Node
  | [] => []
  | x :: xs => x.node :: appendNodes xs

/-- The trees of variables. -/
def varNodes : List VarDecl → List Node
  | [] => []
  | x :: xs => x.node :: varNodes xs

/-- The trees of statements. -/
def stmtNodes : List Stmt → List Node
  | [] => []
  | x :: xs => x.node :: stmtNodes xs

/-- The trees of conditions and their bodies, one after the other. -/
def armNodes : List Arm → List Node
  | [] => []
  | ⟨test, body⟩ :: arms => test.node :: body.node :: armNodes arms

end

/-- The children of a function: its parameters and its body. -/
def Frame.nodes (f : Frame) : List Node :=
  [⟨0, .params, varNodes f.params⟩, ⟨f.line, .block .body, stmtNodes f.body⟩]

/-- A function as a labelled tree. -/
def FuncDecl.node (d : FuncDecl) : Node :=
  match d.frame with
  | none => ⟨d.line, .func d.symbol 0, []⟩
  | some f => ⟨d.line, .func d.symbol f.slots, f.nodes⟩

/-- A declaration as a labelled tree. -/
def Decl.node : Decl → Node
  | importing l name => ⟨l, .importing name, []⟩
  | func d => d.node
  | cls l c methods => ⟨l, .cls c, methods.map FuncDecl.node⟩
  | global l g init => ⟨l, .global g, init.toList.map Expr.node⟩

/-- A program as a labelled tree. -/
def Program.node (p : Program) : Node := ⟨1, .module p.name, p.decls.map Decl.node⟩

/-- The text of a literal. -/
def Literal.text : Literal → String
  | int v => toString v
  | float v => v.text .listing
  | string v => Text.quote v
  | bool v => if v then "true" else "false"
  | null => "null"

/-- A captured variable with its two slots. -/
def Upval.text (u : Upval) : String := s!" up({u.name} {u.src}->{u.dst})"

/-- The text of a label. -/
def Label.text (s : Store) : Label → String
  | module name => "module " ++ name
  | importing name => "import " ++ name
  | func f slots => "func " ++ (s.func f).fullName ++ s!" locals={slots}"
  | lambda slots upvals => s!"lambda locals={slots}" ++ String.join (upvals.map Upval.text)
  | params => "params"
  | cls c => "class " ++ (s.cls c).typeName
  | var v => "var " ++ (if v.ref then "ref " else "") ++ typeNameOr s v.type ++ " " ++ v.name
  | global g => "var " ++ typeNameOr s (s.global g).type ++ " " ++ (s.global g).name
  | block kind => "block " ++ kind.name
  | ret n => s!"return {n}"
  | brk => "break"
  | cont => "continue"
  | yield => "yield"
  | discard n => s!"discard {n}"
  | literal v => "lit " ++ v.text
  | unary op => "unary " ++ op.text
  | binary op => "binary " ++ op.text
  | chain t _ => "chain " ++ typeNameOr s t
  | call access name _ args _ => "call " ++ access.kind.name ++ " " ++ name ++ s!" args={args.count}"
  | cast kind t => s!"cast {kind.number} " ++ typeNameOr s t
  | new t => "new " ++ typeNameOr s t
  | collection t => "collection " ++ t.typeName s
  | append => "append"

mutual

/-- A tree and the trees below it, parents first. -/
def Node.preorder : Node → List Node
  | ⟨line, label, kids⟩ => ⟨line, label, kids⟩ :: forestPreorder kids

/-- The trees of a list and those below them. -/
def forestPreorder : List Node → List Node
  | [] => []
  | n :: ns => n.preorder ++ forestPreorder ns

end

mutual

/-- A tree as lines, each indented by its depth. -/
def Node.listing (s : Store) (depth : Nat) : Node → List String
  | ⟨_, label, kids⟩ =>
    (String.ofList (List.replicate (2 * depth) ' ') ++ label.text s) :: forestListing s (depth + 1) kids

/-- The lines of a list of trees. -/
def forestListing (s : Store) (depth : Nat) : List Node → List String
  | [] => []
  | n :: ns => n.listing s depth ++ forestListing s depth ns

end

end Weft.Typed
