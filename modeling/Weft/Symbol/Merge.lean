import Weft.Symbol.Scope

/-!
# Collisions between modules

The declarations of all modules are merged into one project namespace. Namespaces of one name are merged
with each other; any other second declaration of a qualified name is a collision. Symbols local to a
file take no part.
-/

namespace Weft

/-- Two declarations of one qualified name. -/
structure Collision where
  name : String
  first : Sym
  second : Sym
deriving Inhabited

namespace Store

/-- Merge one declaration into a project namespace and list the collisions, with a way to merge nested
namespaces. -/
def mergeEntry (nested : NamespaceId → NamespaceId → Symbols (List Collision)) (dst : NamespaceId) :
    String × Sym → Symbols (List Collision)
  | (name, sym) => do
    let s ← get
    if s.isFileLocal sym then return []
    let into := s.space dst
    match into.members.get? name, sym with
    | none, .space n =>
      match ← child dst name with
      | .ok c => nested c n
      | .error _ => return []
    | none, _ =>
      updateSpace dst fun o => { o with members := o.members.push name sym }
      return []
    | some (.space c), .space n => nested c n
    | some existing, _ => return [⟨qualified into.path name, existing, sym⟩]

/-- Merge the declarations of a namespace into a project namespace and list the collisions; nesting is
followed to a depth. -/
def mergeDepth : Nat → NamespaceId → NamespaceId → Symbols (List Collision)
  | 0, _, _ => return []
  | d + 1, dst, src => do
    let lists ← ((← get).space src).members.entries.mapM (mergeEntry (mergeDepth d) dst)
    return lists.flatten

/-- Merge the declarations of a namespace into a project namespace and list the collisions. -/
def merge (dst src : NamespaceId) : Symbols (List Collision) := do
  mergeDepth ((← get).spaces.size + 1) dst src

/-- Merge namespaces one after the other into a project namespace, which has no members at first, and list the
collisions that each of them adds. -/
def mergeAll (roots : List NamespaceId) : Symbols (NamespaceId × List (List Collision)) := do
  let project ← newNamespace "" "" ""
  let found ← roots.mapM (merge project)
  return (project, found)

end Store

end Weft
