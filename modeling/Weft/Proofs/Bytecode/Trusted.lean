import Mathlib
import Weft.Bytecode.Compile

/-!
# What the compiler trusts

The compiler does not check the tree of a program again. It relies on every variable having a slot of its frame,
on the limit of slots, on the types of casts, constructions and declarations being known, on jumps standing in
loops, and on methods of interfaces belonging to one.
-/

namespace Weft

/-- A variable has a slot of a frame with a number of slots. -/
def LocalVar.InFrame (slots : Nat) (v : LocalVar) : Prop := 0 ≤ v.slot ∧ v.slot < slots

theorem LocalVar.InFrame.mono {v : LocalVar} {m n : Nat} (h : v.InFrame m) (hmn : m ≤ n) : v.InFrame n :=
  ⟨h.1, Int.lt_of_lt_of_le h.2 (Int.ofNat_le.mpr hmn)⟩

/-- A function is a method of an interface. -/
def Store.OfInterface (s : Store) (f : FuncId) : Prop := ∃ i, (s.func f).owner = some (.iface i)

namespace Typed

/-- The most slots that an operand can name. -/
def maxFrame : Nat := 127

/-- What the compiler relies on in an access. `iface` says which functions are methods of interfaces. -/
def Access.Trusted (iface : FuncId → Prop) (slots : Nat) : Access → Prop
  | readVar v | writeVar v | varRef v => v.InFrame slots
  | methodIface f => iface f
  | _ => True

mutual

/-- What the compiler relies on in an expression of a frame with a number of slots. -/
def Expr.Trusted (iface : FuncId → Prop) (slots : Nat) : Expr → Prop
  | .literal .. => True
  | .unary _ _ _ x => x.Trusted iface slots
  | .binary _ _ _ x y => x.Trusted iface slots ∧ y.Trusted iface slots
  | .chain ⟨_, _, _, links⟩ => trustedExprs iface slots links
  | .call c => c.Trusted iface slots
  | .cast _ _ t x => t.isSome = true ∧ x.Trusted iface slots
  | .new _ t inits => t.isSome = true ∧ trustedCalls iface slots inits
  | .collection _ _ items => trustedAppends iface slots items
  | .lambda fn => fn.Trusted iface slots

/-- What the compiler relies on in a list of expressions. -/
def trustedExprs (iface : FuncId → Prop) (slots : Nat) : List Expr → Prop
  | [] => True
  | x :: xs => x.Trusted iface slots ∧ trustedExprs iface slots xs

/-- What the compiler relies on in an access and its children. -/
def Call.Trusted (iface : FuncId → Prop) (slots : Nat) : Call → Prop
  | ⟨_, a, _, _, _, _, children⟩ => a.Trusted iface slots ∧ trustedExprs iface slots children

/-- What the compiler relies on in a list of accesses. -/
def trustedCalls (iface : FuncId → Prop) (slots : Nat) : List Call → Prop
  | [] => True
  | c :: cs => c.Trusted iface slots ∧ trustedCalls iface slots cs

/-- What the compiler relies on in the elements and entries of a collection. -/
def trustedAppends (iface : FuncId → Prop) (slots : Nat) : List Append → Prop
  | [] => True
  | .element _ x :: rest => x.Trusted iface slots ∧ trustedAppends iface slots rest
  | .entry _ k v :: rest => k.Trusted iface slots ∧ v.Trusted iface slots ∧ trustedAppends iface slots rest

/-- What the compiler relies on in a lambda of a frame with a number of slots. -/
def Lambda.Trusted (iface : FuncId → Prop) (slots : Nat) : Lambda → Prop
  | ⟨_, _, upvals, frame⟩ => (∀ u ∈ upvals, u.src < slots ∧ u.dst < frame.slots) ∧ frame.Trusted iface

/-- What the compiler relies on in a function. -/
def Frame.Trusted (iface : FuncId → Prop) : Frame → Prop
  | ⟨slots, params, _, body⟩ =>
    slots ≤ maxFrame ∧ params.length ≤ slots ∧ trustedParams iface slots params ∧ trustedStmts iface slots false body

/-- What the compiler relies on in parameters and their default values. -/
def trustedParams (iface : FuncId → Prop) (slots : Nat) : List VarDecl → Prop
  | [] => True
  | ⟨_, v, none⟩ :: rest => v.InFrame slots ∧ trustedParams iface slots rest
  | ⟨_, v, some x⟩ :: rest => v.InFrame slots ∧ x.Trusted iface slots ∧ trustedParams iface slots rest

/-- What the compiler relies on in a statement. `loop` says that a loop of the frame is around it. -/
def Stmt.Trusted (iface : FuncId → Prop) (slots : Nat) (loop : Bool) : Stmt → Prop
  | .expr x | .discard _ _ x => x.Trusted iface slots
  | .var ⟨_, v, none⟩ => v.InFrame slots ∧ v.type.isSome = true
  | .var ⟨_, v, some x⟩ => v.InFrame slots ∧ x.Trusted iface slots
  | .ret _ _ values => trustedExprs iface slots values
  | .brk _ | .cont _ => loop = true
  | .yield _ => True
  | .block b => b.Trusted iface slots loop

/-- What the compiler relies on in a list of statements. -/
def trustedStmts (iface : FuncId → Prop) (slots : Nat) (loop : Bool) : List Stmt → Prop
  | [] => True
  | x :: xs => x.Trusted iface slots loop ∧ trustedStmts iface slots loop xs

/-- What the compiler relies on in a block. -/
def Block.Trusted (iface : FuncId → Prop) (slots : Nat) (loop : Bool) : Block → Prop
  | .group _ _ ss => trustedStmts iface slots loop ss
  | .cond _ arms none => trustedArms iface slots loop arms
  | .cond _ arms (some b) => trustedArms iface slots loop arms ∧ b.Trusted iface slots loop
  | .whileLoop _ test body none => test.Trusted iface slots ∧ body.Trusted iface slots true
  | .whileLoop _ test body (some post) =>
    test.Trusted iface slots ∧ body.Trusted iface slots true ∧ post.Trusted iface slots true
  | .doLoop _ body test => body.Trusted iface slots true ∧ test.Trusted iface slots

/-- What the compiler relies on in the branches of a condition. -/
def trustedArms (iface : FuncId → Prop) (slots : Nat) (loop : Bool) : List Arm → Prop
  | [] => True
  | ⟨test, body⟩ :: arms => test.Trusted iface slots ∧ body.Trusted iface slots loop ∧ trustedArms iface slots loop arms

end

/-- What the compiler relies on in a declaration. -/
def Decl.Trusted (iface : FuncId → Prop) : Decl → Prop
  | .importing .. | .global _ _ none => True
  | .global _ _ (some x) => x.Trusted iface maxFrame
  | .func d => ∃ f, d.frame = some f ∧ f.Trusted iface
  | .cls _ _ methods => ∀ d ∈ methods, ∃ f, d.frame = some f ∧ f.Trusted iface

/-- What the compiler relies on in a program. -/
def Program.Trusted (iface : FuncId → Prop) (p : Program) : Prop := ∀ d ∈ p.decls, d.Trusted iface

end Typed

end Weft
