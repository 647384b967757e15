import Weft.Proofs.Bytecode.Trusted

/-!
# Variables in scope

What each frame of a typed tree mentions and which variables are declared where it does, which variable a name
stands for there, and what it means that frames and the captures of lambdas are consistent with that.
-/

namespace Weft.Typed

/-! ## What a frame declares and mentions -/

/-- A variable that is read, written or passed by reference, or a lambda that is made. -/
inductive Mention where
  | var (v : LocalVar)
  | lambda (fn : Lambda)

/-- The variable of an access. -/
def Access.mentions : Access → List Mention
  | readVar v | writeVar v | varRef v => [.var v]
  | _ => []

mutual

/-- The mentions of an expression. Those inside a lambda belong to another frame. -/
def Expr.mentions : Expr → List Mention
  | .literal .. => []
  | .unary _ _ _ x | .cast _ _ _ x => x.mentions
  | .binary _ _ _ x y => x.mentions ++ y.mentions
  | .chain ⟨_, _, _, links⟩ => exprsMentions links
  | .call c => c.mentions
  | .new _ _ inits => callsMentions inits
  | .collection _ _ items => appendsMentions items
  | .lambda fn => [.lambda fn]

/-- The mentions of expressions. -/
def exprsMentions : List Expr → List Mention
  | [] => []
  | x :: xs => x.mentions ++ exprsMentions xs

/-- The mentions of an access and its children. -/
def Call.mentions : Call → List Mention
  | ⟨_, a, _, _, _, _, children⟩ => a.mentions ++ exprsMentions children

/-- The mentions of accesses. -/
def callsMentions : List Call → List Mention
  | [] => []
  | c :: cs => c.mentions ++ callsMentions cs

/-- The mentions of elements and entries. -/
def appendsMentions : List Append → List Mention
  | [] => []
  | .element _ x :: rest => x.mentions ++ appendsMentions rest
  | .entry _ k v :: rest => k.mentions ++ v.mentions ++ appendsMentions rest

end

/-- The mentions of the first or default value of a variable. -/
def VarDecl.mentions (d : VarDecl) : List Mention := (d.init.map Expr.mentions).getD []

/-- A mention with the variables of its frame that are declared where it stands, innermost first. -/
structure Located where
  vars : List LocalVar
  mention : Mention

/-- Mentions at one place. -/
def located (vars : List LocalVar) (ms : List Mention) : List Located := ms.map (Located.mk vars)

/-- The variables that a statement declares in the block that it stands in. -/
def Stmt.declared : Stmt → List LocalVar
  | .var d => [d.var]
  | _ => []

/-- The variables that statements declare in the block that they stand in, the last one first. -/
def stmtsDeclared : List Stmt → List LocalVar
  | [] => []
  | x :: xs => stmtsDeclared xs ++ x.declared

mutual

/-- The variables that a statement declares, also in the blocks inside it. -/
def Stmt.locals : Stmt → List LocalVar
  | .var d => [d.var]
  | .block b => b.locals
  | _ => []

/-- The variables that statements declare, also in the blocks inside them. -/
def stmtsLocals : List Stmt → List LocalVar
  | [] => []
  | x :: xs => x.locals ++ stmtsLocals xs

/-- The variables that are declared inside a block. -/
def Block.locals : Block → List LocalVar
  | .group _ _ ss => stmtsLocals ss
  | .cond _ arms none => armsLocals arms
  | .cond _ arms (some b) => armsLocals arms ++ b.locals
  | .whileLoop _ _ body none => body.locals
  | .whileLoop _ _ body (some post) => body.locals ++ post.locals
  | .doLoop _ body _ => body.locals

/-- The variables that are declared inside branches. -/
def armsLocals : List Arm → List LocalVar
  | [] => []
  | ⟨_, body⟩ :: arms => body.locals ++ armsLocals arms

end

mutual

/-- The mentions of a statement, given the variables that are declared before it. A declaration is in scope
after it, so its first value is outside. -/
def Stmt.located (vars : List LocalVar) : Stmt → List Located
  | .expr x | .discard _ _ x => Typed.located vars x.mentions
  | .var d => Typed.located vars d.mentions
  | .ret _ _ values => Typed.located vars (exprsMentions values)
  | .block b => b.located vars
  | .brk _ | .cont _ | .yield _ => []

/-- The mentions of statements, each with the variables that the statements before it declare. -/
def stmtsLocated (vars : List LocalVar) : List Stmt → List Located
  | [] => []
  | x :: xs => x.located vars ++ stmtsLocated (x.declared ++ vars) xs

/-- The mentions of a block. -/
def Block.located (vars : List LocalVar) : Block → List Located
  | .group _ _ ss => stmtsLocated vars ss
  | .cond _ arms none => armsLocated vars arms
  | .cond _ arms (some b) => armsLocated vars arms ++ b.located vars
  | .whileLoop _ test body none => Typed.located vars test.mentions ++ body.located vars
  | .whileLoop _ test body (some post) => Typed.located vars test.mentions ++ body.located vars ++ post.located vars
  | .doLoop _ body test => body.located vars ++ Typed.located vars test.mentions

/-- The mentions of branches. -/
def armsLocated (vars : List LocalVar) : List Arm → List Located
  | [] => []
  | ⟨test, body⟩ :: arms => Typed.located vars test.mentions ++ body.located vars ++ armsLocated vars arms

end

/-- The parameters of a function as variables. -/
def Frame.paramVars (f : Frame) : List LocalVar := f.params.map VarDecl.var

/-- The mentions of a function. All parameters are declared before their default values. `this` is what is
declared before the parameters. -/
def Frame.located (this : List LocalVar) (f : Frame) : List Located :=
  Typed.located (f.paramVars.reverse ++ this) (f.params.flatMap VarDecl.mentions) ++
    stmtsLocated (f.paramVars.reverse ++ this) f.body

/-! ## Names -/

/-- What a frame shows of its variables at a place: those that are declared there, innermost first, and those
that it captures. -/
structure FrameScope where
  vars : List LocalVar
  upvals : List Upval

/-- The variable that a name stands for in frames, innermost first: the innermost declaration, or else the
capture of what the name stands for in the enclosing frames. -/
def visible : List FrameScope → String → Option LocalVar
  | [], _ => none
  | s :: outer, name =>
    (s.vars.find? (·.name = name)).or <|
      (s.upvals.find? (·.name = name)).bind fun u => (visible outer name).map ({ · with slot := u.dst })

/-- The slots of all variables of a function. -/
def Frame.varSlots (this : List LocalVar) (upvals : List Upval) (f : Frame) : List Int :=
  (this ++ f.paramVars ++ stmtsLocals f.body).map (·.slot) ++ upvals.map fun u => (u.dst : Int)

/-- Each variable of a function has a slot of its own, and there are not too many slots. -/
structure Frame.Slotted (this : List LocalVar) (upvals : List Upval) (f : Frame) : Prop where
  distinct : (f.varSlots this upvals).Nodup
  inFrame : ∀ i ∈ f.varSlots this upvals, 0 ≤ i ∧ i < f.slots
  few : f.slots ≤ maxFrame

/-- The captures of a lambda where it is made: one for each name, taken from the slot of the variable that the
name stands for there. -/
structure Captured (scopes : List FrameScope) (upvals : List Upval) : Prop where
  once : (upvals.map Upval.name).Nodup
  source : ∀ u ∈ upvals, ∃ v, visible scopes u.name = some v ∧ v.slot = u.src

/-- A mentioned variable is the one that its name stands for. A lambda captures what its names stand for where
it is made, and its frame is consistent in turn. -/
inductive Mention.Scoped : List FrameScope → Mention → Prop where
  | var {scopes : List FrameScope} {v : LocalVar} (h : visible scopes v.name = some v) : Scoped scopes (.var v)
  | lambda {scopes : List FrameScope} {fn : Lambda} (captured : Captured scopes fn.upvals)
      (slotted : fn.frame.Slotted [] fn.upvals)
      (inner : ∀ m ∈ fn.frame.located [], Scoped (⟨m.vars, fn.upvals⟩ :: scopes) m.mention) : Scoped scopes (.lambda fn)

/-- The frame of a function is consistent, and so are the lambdas inside it. -/
structure Frame.Scoped (this : List LocalVar) (f : Frame) : Prop where
  slotted : f.Slotted this []
  inner : ∀ m ∈ f.located this, m.mention.Scoped [⟨m.vars, []⟩]

/-- The variable `this` of the methods of a class. -/
def thisVar (c : ClassId) : LocalVar := { name := "this", type := some (.cls c), slot := 0, ref := false }

/-- The frames of a declaration are consistent. The initial value of a global variable declares nothing. -/
def Decl.Scoped : Decl → Prop
  | .importing .. => True
  | .func d => ∀ f, d.frame = some f → f.Scoped []
  | .cls _ c methods => ∀ d ∈ methods, ∀ f, d.frame = some f → f.Scoped [thisVar c]
  | .global _ _ init => ∀ x, init = some x → ∀ m ∈ x.mentions, m.Scoped [⟨[], []⟩]

/-! ## Laws -/

section Mentions

variable {vars : List LocalVar}

theorem exprsMentions_eq (xs : List Expr) : exprsMentions xs = xs.flatMap Expr.mentions := by
  induction xs with
  | nil => rfl
  | cons x xs ih => rw [exprsMentions, ih, List.flatMap_cons]

theorem exprsMentions_append (xs ys : List Expr) : exprsMentions (xs ++ ys) = exprsMentions xs ++ exprsMentions ys := by
  simp only [exprsMentions_eq, List.flatMap_append]

theorem mem_exprsMentions {xs : List Expr} {m : Mention} : m ∈ exprsMentions xs ↔ ∃ x ∈ xs, m ∈ x.mentions := by
  rw [exprsMentions_eq, List.mem_flatMap]

theorem located_append (ms ns : List Mention) : located vars (ms ++ ns) = located vars ms ++ located vars ns :=
  List.map_append

theorem stmtsDeclared_append (xs ys : List Stmt) : stmtsDeclared (xs ++ ys) = stmtsDeclared ys ++ stmtsDeclared xs := by
  induction xs with
  | nil => simp [stmtsDeclared]
  | cons x xs ih => rw [List.cons_append, stmtsDeclared, stmtsDeclared, ih, List.append_assoc]

theorem stmtsLocals_append (xs ys : List Stmt) : stmtsLocals (xs ++ ys) = stmtsLocals xs ++ stmtsLocals ys := by
  induction xs with
  | nil => rfl
  | cons x xs ih => rw [List.cons_append, stmtsLocals, stmtsLocals, ih, List.append_assoc]

/-- Statements after others are in the scope of what those declare. -/
theorem stmtsLocated_append (xs ys : List Stmt) :
    stmtsLocated vars (xs ++ ys) = stmtsLocated vars xs ++ stmtsLocated (stmtsDeclared xs ++ vars) ys := by
  induction xs generalizing vars with
  | nil => rfl
  | cons x xs ih =>
    rw [List.cons_append, stmtsLocated, stmtsLocated, ih, stmtsDeclared, List.append_assoc, List.append_assoc]

end Mentions

section Visible

variable {scopes scopes' : List FrameScope} {name : String} {v : LocalVar}

theorem visible_cons {s : FrameScope} : visible (s :: scopes) name = some v ↔ s.vars.find? (·.name = name) = some v ∨
    s.vars.find? (·.name = name) = none ∧ ∃ u src, s.upvals.find? (·.name = name) = some u ∧
      visible scopes name = some src ∧ v = { src with slot := u.dst } := by
  rw [visible, Option.or_eq_some_iff]
  simp only [Option.bind_eq_some_iff, Option.map_eq_some_iff]
  grind

theorem visible_name (h : visible scopes name = some v) : v.name = name := by
  induction scopes generalizing v with
  | nil => cases h
  | cons s outer ih =>
    rcases visible_cons.mp h with h | ⟨-, u, src, -, hsrc, rfl⟩
    · simpa using List.find?_some h
    · exact ih (v := src) hsrc

/-- Every name that stands for a variable in some frames stands for the same one in others. -/
def Extends (scopes scopes' : List FrameScope) : Prop :=
  ∀ ⦃name v⦄, visible scopes name = some v → visible scopes' name = some v

theorem Extends.refl (scopes : List FrameScope) : Extends scopes scopes := fun _ _ h => h

theorem Extends.trans {scopes'' : List FrameScope} (h : Extends scopes scopes') (h' : Extends scopes' scopes'') :
    Extends scopes scopes'' := fun _ _ hv => h' (h hv)

/-- A frame that captures more than before still shows what it did. -/
theorem Extends.capture {vars : List LocalVar} {upvals upvals' : List Upval} (hu : upvals <+: upvals')
    (h : Extends scopes scopes') : Extends (⟨vars, upvals⟩ :: scopes) (⟨vars, upvals'⟩ :: scopes') := by
  intro name v hv
  obtain ⟨more, rfl⟩ := hu
  rcases visible_cons.mp hv with hv | ⟨hnone, u, src, hu, hsrc, hv⟩
  · exact visible_cons.mpr (.inl hv)
  · exact visible_cons.mpr (.inr ⟨hnone, u, src, by rw [List.find?_append, hu, Option.some_or], h hsrc, hv⟩)

/-- A frame that declares a name which stood for nothing still shows what it did. -/
theorem Extends.declare {vars : List LocalVar} {upvals : List Upval}
    (hv : visible (⟨vars, upvals⟩ :: scopes) v.name = none) :
    Extends (⟨vars, upvals⟩ :: scopes) (⟨v :: vars, upvals⟩ :: scopes) := by
  intro name x hx
  have hne : v.name ≠ name := by
    rintro rfl
    rw [hv] at hx
    cases hx
  rw [visible] at hx ⊢
  rwa [List.find?_cons_of_neg (by simpa using hne)]

theorem Captured.mono {upvals : List Upval} (h : Captured scopes upvals) (hs : Extends scopes scopes') :
    Captured scopes' upvals := by
  refine ⟨h.once, fun u hu => ?_⟩
  obtain ⟨v, hv, hslot⟩ := h.source u hu
  exact ⟨v, hs hv, hslot⟩

/-- A captured name stands for a variable. -/
theorem Captured.visible_ne_none {vars : List LocalVar} {upvals : List Upval} (h : Captured scopes upvals) {u : Upval}
    (hu : u ∈ upvals) : visible (⟨vars, upvals⟩ :: scopes) u.name ≠ none := by
  obtain ⟨v, hv, -⟩ := h.source u hu
  have hfind : (upvals.find? (·.name = u.name)).isSome := List.find?_isSome.mpr ⟨u, hu, by simp⟩
  obtain ⟨w, hw⟩ := Option.isSome_iff_exists.mp hfind
  simp [visible, hv, hw]

theorem Mention.Scoped.mono {m : Mention} (h : m.Scoped scopes) (hs : Extends scopes scopes') : m.Scoped scopes' := by
  induction h generalizing scopes' with
  | var h => exact .var (hs h)
  | lambda captured slotted inner ih =>
    exact .lambda (captured.mono hs) slotted fun m hm => ih m hm (hs.capture (List.prefix_refl _))

end Visible

end Weft.Typed
