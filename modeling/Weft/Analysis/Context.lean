import Weft.Analysis.Problem
import Weft.Diagnostic
import Weft.Typed

/-!
# The state of an analysis

What is known while the bodies of a file are analyzed: the scope in which names are looked up, the
functions that enclose the current place with their variables, and the problems found so far.
-/

namespace Weft

namespace Analysis

/-! ## Scopes of names -/

/-- Where names are looked up: in the namespaces that enclose a declaration, innermost first, each with
its path in the file, and then in the root namespace of the file. -/
structure Scope where
  root : NamespaceId
  levels : List (List String × NamespaceId)

namespace Scope

/-- The scope of a file. -/
def file (root : NamespaceId) : Scope := ⟨root, []⟩

/-- The namespace that declarations go to. -/
def own (sc : Scope) : NamespaceId :=
  match sc.levels with
  | [] => sc.root
  | (_, n) :: _ => n

/-- The path of the namespace that declarations go to. -/
def path (sc : Scope) : List String :=
  match sc.levels with
  | [] => []
  | (p, _) :: _ => p

/-- The scope inside a namespace. -/
def nested (sc : Scope) (n : NamespaceId) (names : List String) : Scope :=
  { sc with levels := (sc.path ++ names, n) :: sc.levels }

/-- A namespace as it is seen from its file: together with the namespaces of its path in all modules
that the file imports. -/
def view (s : Store) (sc : Scope) (path : List String) (own : NamespaceId) : View :=
  match s.resolvePath (s.resolve sc.root) path with
  | .ok f => (s.viewOf? f).getD (s.space own).view
  | .error _ => (s.space own).view

/-- Look a name up, innermost namespace first. -/
def lookup (s : Store) (sc : Scope) : Lookup := fun name =>
  (sc.levels.findSome? fun (path, own) => s.resolveIn (sc.view s path own) name).or
    (s.resolve sc.root name)

end Scope

/-! ## Functions -/

/-- What encloses a statement and matters to jumps. -/
inductive Enclosing where
  | loop | defer
deriving DecidableEq, Repr

/-- A function, a lambda or the initial value of a global variable while it is analyzed: the variables of
its blocks, innermost first, the next free slot, the loops and defer blocks around the current statement,
innermost first, whether it has a yield, its signature, the class of a method, and what it captures. -/
structure Body where
  blocks : List (List (String × LocalVar))
  slots : Nat
  around : List Enclosing
  hasYield : Bool
  sig : Signature
  cls : Option ClassId
  upvals : List Typed.Upval

namespace Body

/-- A body without variables. -/
def empty (sig : Signature) : Body :=
  { blocks := [[]], slots := 0, around := [], hasYield := false, sig, cls := none, upvals := [] }

/-- Add a variable to the innermost block. -/
def add (b : Body) (v : LocalVar) : Body :=
  match b.blocks with
  | [] => { b with blocks := [[(v.name, v)]], slots := b.slots + 1 }
  | vs :: rest => { b with blocks := ((v.name, v) :: vs) :: rest, slots := b.slots + 1 }

/-- The body of a method starts with the variable `this`. -/
def method (sig : Signature) (c : ClassId) : Body :=
  { (empty sig).add { name := "this", type := some (.cls c), slot := 0, ref := false } with cls := some c }

/-- The variable of a body with a name, innermost block first. -/
def find? (b : Body) (name : String) : Option LocalVar := b.blocks.findSome? (·.lookup name)

/-- Add a variable to the outermost block. -/
def addOutermost (v : LocalVar) : List (List (String × LocalVar)) → List (List (String × LocalVar))
  | [] => [[(v.name, v)]]
  | [vs] => [(v.name, v) :: vs]
  | vs :: rest => vs :: addOutermost v rest

/-- Capture a variable of the enclosing body. Only `this` is copied. -/
def capture (b : Body) (src : LocalVar) : LocalVar × Body :=
  let v : LocalVar := { src with slot := b.slots }
  let up : Typed.Upval :=
    { name := src.name, src := src.slot.toNat, dst := b.slots, copied := src.name = "this" }
  (v, { b with blocks := addOutermost v b.blocks, slots := b.slots + 1, upvals := b.upvals ++ [up] })

/-- Whether the current statement is in a loop, and whether a defer block lies between them. -/
def loopState (b : Body) : Bool × Bool :=
  let inner := b.around.takeWhile (· ≠ .loop)
  (b.around.contains .loop, inner.contains .defer)

end Body

/-- Find a variable in the bodies around a place, innermost first. Every body between the place and the
variable captures it. -/
def findVar (name : String) : List Body → Option (LocalVar × List Body)
  | [] => none
  | b :: outer =>
    match b.find? name with
    | some v => some (v, b :: outer)
    | none =>
      match findVar name outer with
      | none => none
      | some (src, outer) =>
        let (v, b) := b.capture src
        some (v, b :: outer)

/-! ## The monad -/

/-- The file and the scope of a declaration. -/
structure Place where
  file : String
  scope : Scope

/-- The symbols, and the bodies around the current place, innermost first. -/
structure State where
  store : Store
  bodies : List Body

/-- A value and the problems that were found before it. -/
structure Reported (α : Type) where
  value : α
  problems : List Diagnostic

instance : Monad Reported where
  pure a := ⟨a, []⟩
  bind x f :=
    let y := f x.value
    ⟨y.value, x.problems ++ y.problems⟩

end Analysis

/-- An analysis of a declaration. It breaks off when the arguments of a call cannot be packed. -/
abbrev Analysis :=
  ReaderT Analysis.Place (ExceptT Typed.ArgumentsError (StateT Analysis.State Analysis.Reported))

namespace Analysis

/-- Report a problem. -/
def report (span : Span) (p : Problem) : Analysis Unit := fun place st =>
  let d : Diagnostic :=
    { kind := .semanticError, file := place.file, range := span.range, message := p.message }
  ⟨(.ok (), st), [d]⟩

/-- The symbols. -/
def store : Analysis Store := return (← get).store

/-- Run a computation on the symbols. -/
def symbols {α : Type} (m : Symbols α) : Analysis α :=
  modifyGet fun st => let (a, s) := m st.store; (a, { st with store := s })

/-- The name of a type. -/
def typeName (t : Ty) : Analysis String := return t.typeName (← store)

/-- Look a name up in the scope of the declaration. -/
def lookup (name : String) : Analysis (Option Found) := do
  return (← read).scope.lookup (← store) name

/-- Find a variable, capturing it where a lambda stands between. -/
def localVar (name : String) : Analysis (Option LocalVar) := do
  match findVar name (← get).bodies with
  | none => return none
  | some (v, bodies) =>
    modify ({ · with bodies })
    return some v

/-- The body around the current place. -/
def body : Analysis Body := do
  match (← get).bodies with
  | b :: _ => return b
  | [] => return .empty default

/-- Change the body around the current place. -/
def updateBody (f : Body → Body) : Analysis Unit :=
  modify fun s => { s with bodies := s.bodies.modifyHead f }

/-- Declare a variable in the next slot. -/
def declare (name : String) (type : Ty) (ref : Bool) : Analysis LocalVar := do
  let v : LocalVar := { name, type := some type, slot := (← body).slots, ref }
  updateBody (·.add v)
  return v

/-- Run an analysis in a block of its own. -/
def inBlock {α : Type} (m : Analysis α) : Analysis α := do
  updateBody fun b => { b with blocks := [] :: b.blocks }
  let a ← m
  updateBody fun b => { b with blocks := b.blocks.tail }
  return a

/-- Run an analysis inside a loop or a defer block. -/
def inside {α : Type} (e : Enclosing) (m : Analysis α) : Analysis α := do
  updateBody fun b => { b with around := e :: b.around }
  let a ← m
  updateBody fun b => { b with around := b.around.tail }
  return a

/-- Run an analysis in a body of its own and give the body as it is left. -/
def inBody {α : Type} (b : Body) (m : Analysis α) : Analysis (α × Body) := do
  modify fun s => { s with bodies := b :: s.bodies }
  let a ← m
  let last ← body
  modify fun s => { s with bodies := s.bodies.tail }
  return (a, last)

/-- The class of `this`, also inside lambdas. -/
def thisClass : Analysis (Option ClassId) := return (← get).bodies.findSome? (·.cls)

/-- Whether an expression of a type leaves no value or more values than a place of another type takes. -/
def unusable (s : Store) (src dst : Ty) : Bool :=
  match src with
  | .tuple _ => !src.identical s dst
  | _ => src.is .void

/-- Report a problem unless a value of one type can be stored as another. Of unknown types a problem has
been reported before. -/
def checkAssignable (span : Span) (src dst : Option Ty) : Analysis Unit := do
  match src, dst with
  | some src, some dst =>
    let s ← store
    if unusable s src dst then report span (.unusable (src.typeName s))
    else if !src.assignable s dst then report span (.incompatible (dst.typeName s) (src.typeName s))
  | _, _ => return

end Analysis

end Weft
