import Weft.Symbol

/-!
# Scopes

Declaring names in namespaces, and finding them again. A name is looked up among the members of a
namespace and then in the namespaces linked to it, which hide the symbols local to their file. When
several of them have a namespace of that name, the lookup gives one view of them all.
-/

namespace Weft

/-- A name was declared a second time in one scope. -/
structure AlreadyDefined where
  name : String
  existing : Sym
deriving Inhabited

/-- The text of the problem. -/
def AlreadyDefined.message (e : AlreadyDefined) : String :=
  "symbol '" ++ e.name ++ "' is already defined"

/-- Why a dotted name was not found. -/
inductive ResolveError where
  | emptyPath
  | notNamespace (path : List String)
  | unresolved (path : List String)
  | notType (path : List String)
deriving DecidableEq, Repr

/-- The text of the problem. -/
def ResolveError.message : ResolveError → String
  | emptyPath => "empty path"
  | notNamespace path => "'" ++ ".".intercalate path ++ "' is not a namespace"
  | unresolved path => "symbol '" ++ ".".intercalate path ++ "' not resolved"
  | notType path => "'" ++ ".".intercalate path ++ "' is not a type"

/-- A namespace as a lookup sees it: members of its own and the namespaces linked to it. -/
structure View where
  name : String
  path : String
  module : String
  members : Table
  links : List NamespaceId
deriving Inhabited

/-- What a lookup finds: a declared symbol, or namespaces of one name seen as one. -/
inductive Found where
  | sym (s : Sym)
  | view (v : View)
deriving Inhabited

/-- A place where names are looked up. -/
abbrev Lookup := String → Option Found

/-- Add a name to a table, unless it is there. -/
def Table.define (t : Table) (name : String) (sym : Sym) : Except AlreadyDefined Table :=
  match t.get? name with
  | some existing => .error ⟨name, existing⟩
  | none => .ok (t.push name sym)

/-- A namespace as a lookup sees it. -/
def Namespace.view (n : Namespace) : View :=
  { name := n.name, path := n.path, module := n.module, members := n.members, links := n.links }

/-- A list without a second occurrence of an identity. -/
def linkOnce (links : List NamespaceId) (n : NamespaceId) : List NamespaceId :=
  if n ∈ links then links else links ++ [n]

namespace Store

/-- A namespace of its own, without members. -/
def newNamespace (name path module : String) : Symbols NamespaceId :=
  addSpace { name, path, module, members := .empty, links := [] }

/-- Declare a symbol in a namespace. -/
def define (n : NamespaceId) (sym : Sym) : Symbols (Except AlreadyDefined Unit) := do
  let s ← get
  match (s.space n).members.define (s.nameOf sym) sym with
  | .ok t =>
    updateSpace n ({ · with members := t })
    return .ok ()
  | .error e => return .error e

/-- The nested namespace of a name, which is made if the name is free. -/
def child (n : NamespaceId) (name : String) : Symbols (Except AlreadyDefined NamespaceId) := do
  let outer := (← get).space n
  match outer.members.get? name with
  | none =>
    let c ← newNamespace name (qualified outer.path name) outer.module
    updateSpace n fun o => { o with members := o.members.push name (.space c) }
    return .ok c
  | some (.space c) => return .ok c
  | some existing => return .error ⟨name, existing⟩

/-- Make the symbols of a namespace that are not local to their file visible from another one. -/
def link (n other : NamespaceId) : Symbols Unit :=
  updateSpace n fun o => { o with links := linkOnce o.links other }

/-- The symbol of a namespace with a name, if it is visible from other files. -/
def exported? (s : Store) (n : NamespaceId) (name : String) : Option Sym :=
  match (s.space n).members.get? name with
  | some sym => if s.isFileLocal sym then none else some sym
  | none => none

/-- What the links of a namespace have under a name: the namespaces, or the first other symbol if no
namespace was found before it. `own` says that the namespace itself has a nested one of that name. -/
def linked (s : Store) (name : String) (own : Bool) :
    List NamespaceId → List NamespaceId → Sum Sym (List NamespaceId)
  | found, [] => .inr found
  | found, l :: rest =>
    match s.exported? l name with
    | none => linked s name own found rest
    | some (.space n) => linked s name own (found ++ [n]) rest
    | some sym => if found.isEmpty && !own then .inl sym else linked s name own found rest

/-- Look a name up in a view. -/
def resolveIn (s : Store) (v : View) (name : String) : Option Found :=
  match v.members.get? name with
  | some (.space own) =>
    match s.linked name true [] v.links with
    | .inl sym => some (.sym sym)
    | .inr [] => some (.sym (.space own))
    | .inr others =>
      let o := s.space own
      some (.view { name, path := o.path, module := o.module, members := o.members,
                    links := others.foldl linkOnce [] })
  | some sym => some (.sym sym)
  | none =>
    match s.linked name false [] v.links with
    | .inl sym => some (.sym sym)
    | .inr [] => none
    | .inr [n] => some (.sym (.space n))
    | .inr (n :: more) =>
      let o := s.space n
      some (.view { name, path := o.path, module := o.module, members := .empty,
                    links := (n :: more).foldl linkOnce [] })

/-- Look a name up in a namespace. -/
def resolve (s : Store) (n : NamespaceId) : Lookup := s.resolveIn (s.space n).view

/-- The namespace that a lookup found, as a view. -/
def viewOf? (s : Store) : Found → Option View
  | .sym (.space n) => some (s.space n).view
  | .sym _ => none
  | .view v => some v

/-- Follow the rest of a dotted name from what its first names led to. -/
def followPath (s : Store) (whole : List String) (f : Found) (done : List String) :
    List String → Except ResolveError Found
  | [] => .ok f
  | seg :: rest =>
    match s.viewOf? f with
    | none => .error (.notNamespace done)
    | some v =>
      match s.resolveIn v seg with
      | none => .error (.unresolved whole)
      | some f' => followPath s whole f' (done ++ [seg]) rest

/-- Look a dotted name up. Every name but the last has to be a namespace. -/
def resolvePath (s : Store) (scope : Lookup) (path : List String) : Except ResolveError Found :=
  match path with
  | [] => .error .emptyPath
  | first :: rest =>
    match scope first with
    | none => .error (.unresolved path)
    | some f => s.followPath path f [first] rest

/-- Look up a dotted name that has to be a type. The type of the null literal has no name. -/
def resolveType (s : Store) (scope : Lookup) (path : List String) : Except ResolveError Ty := do
  match ← s.resolvePath scope path with
  | .sym sym =>
    match typeOf? sym with
    | some (.builtin .null) | none => .error (.notType path)
    | some t => .ok t
  | .view _ => .error (.notType path)

/-- The symbols of a namespace, each namespace before the symbols inside it; nesting is followed to a
depth. -/
def walkDepth (s : Store) : Nat → NamespaceId → List Sym
  | 0, _ => []
  | d + 1, n =>
    (s.space n).members.symbols.flatMap fun sym =>
      match sym with
      | .space c => sym :: walkDepth s d c
      | _ => [sym]

/-- The symbols of a namespace and of the namespaces inside it. -/
def walk (s : Store) (n : NamespaceId) : List Sym := s.walkDepth (s.spaces.size + 1) n

end Store

end Weft
