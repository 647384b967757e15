import Weft.Analysis.Context
import Weft.Tree

/-!
# Written types

The types that programs write, resolved in the scope of a declaration. A problem makes a type unknown; the
signature of a function takes `any` in its place, so that the body can still be checked.
-/

namespace Weft.Analysis

open Weft.Tree (TypeExpr Param)

mutual

/-- The type that is written. `void` is allowed only as the one result of a function. -/
def resolveType (allowVoid : Bool) : TypeExpr → Analysis (Option Ty)
  | .named span path => do
    let s ← store
    match s.resolveType ((← read).scope.lookup s) path with
    | .error e =>
      report span (.unresolvedType e)
      return none
    | .ok t =>
      if t.is .void && !allowVoid then
        report span .voidType
        return none
      return some t
  | .array _ elem => do
    return (← resolveType false elem).map .array
  | .map _ key value => do
    let k ← resolveType false key
    let v ← resolveType false value
    match k, v with
    | some k, some v => return some (.map k v)
    | _, _ => return none
  | .func _ coro returns params => do
    let ret ← match returns with
      | [] => pure (some Ty.void)
      | [t] => resolveType true t
      | ts => do pure ((← resolveTypes ts).map .tuple)
    match ret, ← resolveParamTypes params with
    | some returns, some params => return some (.func { returns, params, defaults := 0, coro })
    | _, _ => return none

/-- The types of a list, up to the first problem. -/
def resolveTypes : List TypeExpr → Analysis (Option (List Ty))
  | [] => return some []
  | t :: ts => do
    match ← resolveType false t with
    | none => return none
    | some t => return (← resolveTypes ts).map (t :: ·)

/-- The types of the parameters of a function type, up to the first problem. -/
def resolveParamTypes : List (Bool × TypeExpr) → Analysis (Option (List (Bool × Ty)))
  | [] => return some []
  | (ref, t) :: ps => do
    match ← resolveType false t with
    | none => return none
    | some t => return (← resolveParamTypes ps).map ((ref, t) :: ·)

end

/-- The type of the results of a function. -/
def resolveReturns : List TypeExpr → Analysis (Option Ty)
  | [] => return some .void
  | [t] => resolveType true t
  | ts => do return (← resolveTypes ts).map .tuple

/-- The types of parameters, and how many of them have default values. From the first default value on,
every parameter needs one; a reference has none. -/
def resolveParams (seen : List String) (defaults : Nat) : List Param → Analysis (List (Bool × Ty) × Nat)
  | [] => return ([], defaults)
  | p :: ps => do
    if p.name ∈ seen then report p.span (.paramRedefined p.name)
    let t := (← resolveType false p.type).getD .any
    if p.default.isSome && p.ref then report p.span (.refDefault p.name)
    if p.default.isNone && 0 < defaults then report p.span (.defaultMissing p.name)
    let own := if p.default.isSome && !p.ref then 1 else 0
    let (rest, total) ← resolveParams (p.name :: seen) (defaults + own) ps
    return ((p.ref, t) :: rest, total)

/-- The signature of a function. -/
def resolveSignature (coro : Bool) (returns : List TypeExpr) (params : List Param) :
    Analysis Signature := do
  let ret := (← resolveReturns returns).getD .any
  let (types, defaults) ← resolveParams [] 0 params
  match params with
  | [] => pure ()
  | p :: _ =>
    if Typed.Arguments.maxCount < types.length then report p.span .tooManyParams
    if Typed.Arguments.maxDefaults < defaults then report p.span .tooManyDefaults
  return { returns := ret, params := types, defaults, coro }

end Weft.Analysis
