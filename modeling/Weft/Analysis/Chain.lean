import Weft.Analysis.Signature
import Weft.Symbol.Registry

/-!
# Chains

A chain starts with a name or a value and goes on with members, indexes and calls. It is resolved from
left to right into a sequence of accesses. On the way it stands at a value or at a namespace or type,
which has members but no value.
-/

namespace Weft.Analysis

open Typed (Arguments)

/-- The analyses of the phrases that may contain themselves. An expression comes with the type that its
place expects, which is a hint for collections; its type is unknown after a problem. A statement may
become several. -/
structure Visit where
  expr : Tree.Expr → Option Ty → Analysis (Typed.Expr × Option Ty)
  stmt : Tree.Stmt → Analysis (List Typed.Stmt)

/-- Where a chain stands: at a value, at a namespace or type, or at a problem. A value is reached through
`base` when its next method is bound statically. -/
inductive Stand where
  | value (type : Option Ty) (viaBase : Bool)
  | static (f : Found)
  | failed

/-- A chain as far as it is resolved. -/
structure Walk where
  links : List Typed.Expr
  stand : Stand

/-- Whether the last access of a chain reads or writes. The written value may be there already. -/
inductive Mode where
  | read
  | write (value : Option Typed.Expr)

namespace Mode

/-- The mode of an access that may not be the last. -/
def last (m : Mode) (isLast : Bool) : Mode := if isLast then m else .read

/-- Whether the access writes. -/
def isWrite : Mode → Bool
  | read => false
  | write _ => true

/-- The written value as a child of the access. -/
def values : Mode → List Typed.Expr
  | read => []
  | write v => v.toList

end Mode

namespace Walk

/-- A chain with one more access that leaves a value. -/
def push (w : Walk) (x : Typed.Expr) (type : Option Ty) : Walk :=
  { links := w.links ++ [x], stand := .value type false }

/-- A chain that has met a problem. -/
def fail (w : Walk) : Walk := { w with stand := .failed }

/-- Whether a chain has met a problem. -/
def isFailed (w : Walk) : Bool :=
  match w.stand with
  | .failed => true
  | _ => false

end Walk

/-- Report a problem of a chain. -/
def failWith (w : Walk) (span : Span) (p : Problem) : Analysis Walk := do
  report span p
  return w.fail

/-- An access that calls nothing. -/
def access (line : Nat) (a : Typed.Access) (name : String) (type : Option Ty)
    (children : List Typed.Expr) : Typed.Expr :=
  .call { line, access := a, name, type, args := .empty, site := none, children }

/-- The name of what a lookup found. -/
def foundName (s : Store) : Found → String
  | .sym sym => s.nameOf sym
  | .view v => v.name

/-! ## Arguments -/

/-- The name of a parameter, or its position in a function type. -/
def paramName (names : List String) (i : Nat) : String := names[i]?.getD s!"#{i + 1}"

/-- The position of the last parameter with a name. -/
def paramPosition? (names : List String) (name : String) : Option Nat :=
  ((names.zipIdx.filter fun (n, _) => n = name).getLast?).map Prod.snd

/-- Arguments as they are given to parameters: one place for each parameter, the next position, and
whether an argument was passed by name. -/
structure Passing where
  places : List (Option Tree.Arg)
  next : Nat
  named : Bool

/-- Give the arguments of a call to parameters. One argument too many ends it. -/
def passArguments (names : List String) : List Tree.Arg → Passing → Analysis (List (Option Tree.Arg))
  | [], p => return p.places
  | a :: rest, p => do
    match a.name with
    | some name =>
      let p := { p with named := true }
      match paramPosition? names name with
      | none =>
        report a.span (.noParam name)
        passArguments names rest p
      | some i => give a rest p i
    | none =>
      if p.named then
        report a.span .positionalAfterNamed
        passArguments names rest p
      else give a rest { p with next := p.next + 1 } p.next
where
  give (a : Tree.Arg) (rest : List Tree.Arg) (p : Passing) (i : Nat) :
      Analysis (List (Option Tree.Arg)) := do
    match p.places[i]? with
    | none =>
      report a.span (.tooManyArguments p.places.length)
      return p.places
    | some (some _) =>
      report a.span (.passedTwice (paramName names i))
      passArguments names rest p
    | some none => passArguments names rest { p with places := p.places.set i (some a) }

/-- An argument as a value or, when it is passed by reference, as a local variable. -/
def passArgument (v : Visit) (a : Tree.Arg) (ref : Bool) (type : Ty) : Analysis Typed.Expr := do
  if ref && !a.ref then report a.span .refMissing
  if !ref && a.ref then report a.span .refUnexpected
  if !a.ref then
    let (x, t) ← v.expr a.value (some type)
    checkAssignable a.value.span t (some type)
    return x
  let found ← match a.value with
    | .chain ⟨_, .name _ name, []⟩ => localVar name
    | _ => pure none
  let line := a.value.span.start.line
  match found with
  | none =>
    report a.span .refNotLocal
    return Typed.nullLiteral line
  | some x =>
    let s ← store
    if ref && !identicalTypes s x.type (some type) then
      report a.span (.incompatible (type.typeName s) (typeNameOr s x.type))
    return access line (.varRef x) x.name x.type []

/-- The arguments of a call in the order of the parameters, from a position on. A default value that is
left out is left to the callee; a null stands in its place if a later argument is passed. -/
def fillParams (v : Visit) (line : Nat) (span : Span) (names : List String) (required : Int)
    (count : Nat) : Nat → List (Option Tree.Arg × Bool × Ty) → Arguments →
    Analysis (List Typed.Expr × Arguments)
  | _, [], bits => return ([], bits)
  | i, (some a, ref, type) :: rest, bits => do
    let x ← passArgument v a ref type
    let (xs, bits) ← fillParams v line span names required count (i + 1) rest bits
    return (x :: xs, bits)
  | i, (none, _, _) :: rest, bits => do
    if (i : Int) < required then
      report span (.argumentMissing (paramName names i))
      fillParams v line span names required count (i + 1) rest bits
    else
      let bits ← bits.useDefault (i - required)
      let (xs, bits) ← fillParams v line span names required count (i + 1) rest bits
      return (if i + 1 < count then Typed.nullLiteral line :: xs else xs, bits)

/-- How many parameters there are up to the last one with an argument. -/
def passedCount (places : List (Option Tree.Arg)) : Nat :=
  (places.reverse.dropWhile Option.isNone).length

/-- The arguments of a call and their packed description. -/
def arguments (v : Visit) (line : Nat) (sig : Signature) (names : List String) (c : Tree.Call) :
    Analysis (List Typed.Expr × Arguments) := do
  let places ← passArguments names c.args
    { places := List.replicate sig.params.length none, next := 0, named := false }
  let count := passedCount places
  if Arguments.maxCount < count then
    report c.span .argumentLimit
    return ([], .empty)
  let (xs, bits) ←
    fillParams v line c.span names sig.required count 0 (places.zip sig.params) .empty
  return (xs, ← bits.withCount count)

/-- A call of a function. -/
def callFunction (v : Visit) (line : Nat) (a : Typed.Access) (name callee : String) (sig : Signature)
    (names : List String) (c : Tree.Call) (w : Walk) : Analysis Walk := do
  let (children, args) ← arguments v line sig names c
  let site := { span := c.span, name := callee, coro := sig.coro }
  let call : Typed.Call :=
    { line, access := a, name, type := some sig.returns, args, site := some site, children }
  return w.push (.call call) (some sig.returns)

/-! ## Steps

Each step is given the call that follows it, if one does, and says whether it has used it. -/

/-- Go on with a symbol that a lookup found. -/
def symbolStep (v : Visit) (m : Mode) (span : Span) (f : Found) (next : Option Tree.Call) (w : Walk) :
    Analysis (Walk × Bool) := do
  let s ← store
  let line := span.start.line
  match f with
  | .sym (.global g) =>
    let x := s.global g
    let a : Typed.Access := if m.isWrite then .writeGlobal g else .readGlobal g
    return (w.push (access line a x.name x.type m.values) x.type, false)
  | .sym (.func g) =>
    let x := s.func g
    let sig := x.sig.getD default
    match next with
    | none =>
      let t := some (Ty.func sig)
      return (w.push (access line (.funcRef g) x.name t []) t, false)
    | some c => return (← callFunction v line (.func g) x.name x.name sig x.params c w, true)
  | .sym (.field _) | .sym (.item _) | .sym (.localVar _) =>
    return (← failWith w span (.misplaced (foundName s f)), false)
  | _ => return ({ w with stand := .static f }, false)

/-- Push `this`. -/
def pushThis (span : Span) (w : Walk) : Analysis Walk := do
  match ← thisClass, ← localVar "this" with
  | some c, some x =>
    let t := some (Ty.cls c)
    return w.push (access span.start.line (.readVar x) "this" t []) t
  | _, _ => failWith w span .thisOutsideMethod

/-- A member of a value. -/
inductive Member where
  | field (f : FieldId)
  | method (f : FuncId)
  | native (m : NativeMember)
  | other

/-- The member of a value with a name. -/
def memberOf? (s : Store) (type : Option Ty) (name : String) : Option Member :=
  let declared : Option Sym → Option Member := fun sym? => sym?.map fun sym =>
    match sym with
    | .field f => .field f
    | .func f => .method f
    | _ => .other
  match type with
  | some (.cls c) => declared (s.classMember? c name)
  | some (.iface i) => declared (s.interfaceMember? i name)
  | some (.array elem) => (arrayMember? elem name).map .native
  | some (.map key _) => (mapMember? key name).map .native
  | _ => none

/-- How a method of a class or of an interface is bound. -/
def methodAccess (f : FuncId) (x : Func) (viaBase : Bool) : Typed.Access :=
  match x.owner with
  | some (.iface _) => .methodIface f
  | _ => if !viaBase && (x.virtual || x.override) then .methodVirtual f else .method f

/-- Go on with a member of a value. -/
def valueMember (v : Visit) (m : Mode) (span : Span) (name : String) (next : Option Tree.Call)
    (type : Option Ty) (viaBase : Bool) (w : Walk) : Analysis (Walk × Bool) := do
  let s ← store
  let line := span.start.line
  let call := fun (a : Typed.Access) (x : Func) => do
    match next with
    | none => return (← failWith w span (.methodNotCalled name), false)
    | some c =>
      return (← callFunction v line a name name (x.sig.getD default) x.params c w, true)
  let readOnly := do return (← failWith w span (.readOnly name), false)
  match memberOf? s type name with
  | none => return (← failWith w span (.noMember (typeNameOr s type) name), false)
  | some .other => return (← failWith w span (.misplaced name), false)
  | some (.field f) =>
    let x := s.field f
    if m.isWrite && x.native then readOnly
    else
      let a : Typed.Access := if m.isWrite then .writeField f else .readField f
      return (w.push (access line a name x.type m.values) x.type, false)
  | some (.native (.property x)) =>
    if m.isWrite then readOnly
    else return (w.push (access line (.readNative x.index) name x.type []) x.type, false)
  | some (.method f) => call (methodAccess f (s.func f) viaBase) (s.func f)
  | some (.native (.method x)) => call (.methodNative x.index) x

/-- Go on with a member of a namespace or type. -/
def staticMember (v : Visit) (m : Mode) (span : Span) (name : String) (next : Option Tree.Call)
    (f : Found) (w : Walk) : Analysis (Walk × Bool) := do
  let s ← store
  match s.viewOf? f with
  | some view =>
    match s.resolveIn view name with
    | none => return (← failWith w span (.unresolved (qualified view.path name)), false)
    | some f => symbolStep v m span f next w
  | none =>
    match f with
    | .sym (.enumeration e) =>
      let x := s.enumeration e
      match x.items.get? name with
      | some (.item i) =>
        let t := Ty.enumeration e
        return (w.push (.literal span.start.line (.int i.value) t) (some t), false)
      | _ => return (← failWith w span (.noItem x.typeName name), false)
    | .sym (.cls c) =>
      let p : Problem := match s.classMember? c name with
        | some (.func _) => .methodWithoutInstance name
        | some (.field _) => .fieldWithoutInstance name
        | _ => .noClassMember (s.cls c).typeName name
      return (← failWith w span p, false)
    | _ => return (← failWith w span (.noMember (foundName s f) name), false)

/-- Go on with a member. -/
def memberStep (v : Visit) (m : Mode) (span : Span) (name : String) (next : Option Tree.Call)
    (w : Walk) : Analysis (Walk × Bool) := do
  match w.stand with
  | .static f => staticMember v m span name next f w
  | .value t viaBase => valueMember v m span name next t viaBase w
  | .failed => return (w, false)

/-- Go on with an index. -/
def indexStep (v : Visit) (m : Mode) (span : Span) (x : Tree.Expr) (w : Walk) : Analysis Walk := do
  let line := span.start.line
  match w.stand with
  | .failed => return w
  | .static f => failWith w span (.notValue (foundName (← store) f))
  | .value (some (.array elem)) _ =>
    let (i, t) ← v.expr x (some .int)
    match t with
    | some t => if !t.is .int then report x.span (.badIndex (← typeName t))
    | none => pure ()
    let a : Typed.Access := if m.isWrite then .arraySet else .arrayGet
    return w.push (access line a "" (some elem) (i :: m.values)) (some elem)
  | .value (some (.map key value)) _ =>
    let (k, t) ← v.expr x (some key)
    checkAssignable x.span t (some key)
    let a : Typed.Access := if m.isWrite then .mapSet else .mapGet
    return w.push (access line a "" (some value) (k :: m.values)) (some value)
  | .value t _ => failWith w span (.notIndexable (typeNameOr (← store) t))

/-- Call the function that a chain stands at. -/
def callStep (v : Visit) (c : Tree.Call) (w : Walk) : Analysis Walk := do
  match w.stand with
  | .failed => return w
  | .static f => failWith w c.span (.notFunction (foundName (← store) f))
  | .value (some (.func sig)) _ =>
    callFunction v c.span.start.line .funcPtr "" "func value" sig [] c w
  | .value t _ => failWith w c.span (.notCallable (typeNameOr (← store) t))

/-- Start a chain with a name: a variable, a member of the enclosing class, or a symbol in scope. -/
def nameStep (v : Visit) (m : Mode) (span : Span) (name : String) (next : Option Tree.Call)
    (w : Walk) : Analysis (Walk × Bool) := do
  match ← localVar name with
  | some x =>
    let a : Typed.Access := if m.isWrite then .writeVar x else .readVar x
    return (w.push (access span.start.line a name x.type m.values) x.type, false)
  | none =>
    let s ← store
    let isMember := match ← thisClass with
      | some c => (s.classMember? c name).isSome
      | none => false
    if isMember then
      let w ← pushThis span w
      memberStep v m span name next w
    else
      match ← lookup name with
      | none => return (← failWith w span (.unresolved name), false)
      | some f => symbolStep v m span f next w

/-- Start a chain with `base`: `this` as an instance of the superclass. A member has to follow. -/
def baseStep (span : Span) (items : List Tree.Item) (w : Walk) : Analysis Walk := do
  let s ← store
  match ← thisClass with
  | none => failWith w span .baseOutsideMethod
  | some c =>
    match (s.cls c).super, items with
    | none, _ => failWith w span (.noBaseClass (s.cls c).typeName)
    | some b, .member _ _ :: _ =>
      let w ← pushThis span w
      match w.stand, w.links.getLast? with
      | .value _ _, some this =>
        let t := some (Ty.cls b)
        return { links := w.links.dropLast ++ [.cast span.start.line .explicit t this],
                 stand := .value t true }
      | _, _ => return w
    | some _, _ => failWith w span .baseAlone

/-- The call that starts a list of steps. -/
def firstCall? : List Tree.Item → Option Tree.Call
  | .call c :: _ => some c
  | _ => none

/-- Follow the steps of a chain up to the first problem. The first step is left out when the one before
has used it. -/
def followItems (v : Visit) (m : Mode) : Bool → List Tree.Item → Walk → Analysis Walk
  | _, [], w => return w
  | true, _ :: rest, w => followItems v m false rest w
  | false, item :: rest, w => do
    if w.isFailed then return w
    let here := m.last rest.isEmpty
    match item with
    | .index span x => followItems v m false rest (← indexStep v here span x w)
    | .call c => followItems v m false rest (← callStep v c w)
    | .member span name =>
      let (w, used) ← memberStep v here span name (firstCall? rest) w
      followItems v m used rest w

/-- Whether the last access of a chain is a write. -/
def endsInWrite (links : List Typed.Expr) : Bool :=
  match links.getLast? with
  | some (.call c) => c.access.kind.isWrite
  | _ => false

/-- Start a chain with its root, and say whether the first step is used. -/
def rootStep (v : Visit) (lambda : Tree.Lambda → Analysis (Typed.Expr × Option Ty)) (m : Mode) (c : Tree.Chain) :
    Analysis (Walk × Bool) := do
  let start : Walk := { links := [], stand := .failed }
  match c.root with
  | .name span name => nameStep v (m.last c.items.isEmpty) span name (firstCall? c.items) start
  | .this span => return (← pushThis span start, false)
  | .base span => return (← baseStep span c.items start, false)
  | .paren _ x =>
    let (x, t) ← v.expr x none
    let w := start.push x t
    return (if t.isNone then w.fail else w, false)
  | .lambda fn =>
    let (x, t) ← lambda fn
    return (start.push x t, false)

/-- Resolve a chain. Its type is that of its value, or of the place that it writes. -/
def chain (v : Visit) (lambda : Tree.Lambda → Analysis (Typed.Expr × Option Ty)) (m : Mode)
    (c : Tree.Chain) : Analysis (Typed.Chain × Option Ty) := do
  let (w, used) ← rootStep v lambda m c
  let w ← followItems v m used c.items w
  let done := fun (type : Option Ty) =>
    (({ line := c.span.start.line, type, yielded := false, links := w.links } : Typed.Chain), type)
  match w.stand with
  | .failed => return done none
  | .static f =>
    report c.span (.notValue (foundName (← store) f))
    return done none
  | .value t _ =>
    if m.isWrite && !endsInWrite w.links then
      report c.span .badTarget
      return done none
    return done t

end Weft.Analysis
