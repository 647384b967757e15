import Mathlib
import Weft.Type.Check

/-!
# Types of one value

A type of one value is neither void nor that of several results.
-/

namespace Weft

/-- Whether an expression of a type leaves exactly one value. -/
def Ty.isSingle : Ty → Bool
  | .tuple _ => false
  | .builtin .void => false
  | _ => true

mutual

/-- Whether elements, parameters and the single results inside a type are of one value, and several results
are at least two. -/
def Ty.proper : Ty → Bool
  | .array elem => elem.isSingle && elem.proper
  | .map key value => key.isSingle && key.proper && (value.isSingle && value.proper)
  | .tuple items => decide (2 ≤ items.length) && properItems items
  | .func sig => sig.proper
  | .builtin _ | .cls _ | .iface _ | .enumeration _ => true

/-- Whether the types of a signature are proper. -/
def Signature.proper : Signature → Bool
  | ⟨returns, params, _, _⟩ => returns.proper && properParams params

/-- Whether all types of a list are proper types of one value. -/
def properItems : List Ty → Bool
  | [] => true
  | t :: ts => t.isSingle && t.proper && properItems ts

/-- Whether the parameters of a signature are of proper types of one value. -/
def properParams : List (Bool × Ty) → Bool
  | [] => true
  | (_, t) :: ps => t.isSingle && t.proper && properParams ps

end

/-- A proper type of one value. -/
def Ty.Value (t : Ty) : Prop := t.isSingle = true ∧ t.proper = true

section

attribute [local simp] Ty.proper Signature.proper properItems properParams

theorem properItems_iff {ts : List Ty} : properItems ts = true ↔ ∀ t ∈ ts, t.Value := by
  induction ts with
  | nil => simp
  | cons t ts ih => simp [ih, Ty.Value]

theorem properParams_iff {ps : List (Bool × Ty)} :
    properParams ps = true ↔ ∀ p ∈ ps, p.2.Value := by
  induction ps with
  | nil => simp
  | cons p ps ih => obtain ⟨r, t⟩ := p; simp [ih, Ty.Value]

theorem Signature.proper_iff {sig : Signature} :
    sig.proper = true ↔ sig.returns.proper = true ∧ ∀ p ∈ sig.params, p.2.Value := by
  obtain ⟨returns, params, defaults, coro⟩ := sig
  simp [properParams_iff]

theorem Ty.proper_array {t : Ty} : (Ty.array t).proper = true ↔ t.Value := by
  simp [Ty.Value]

theorem Ty.proper_map {k v : Ty} : (Ty.map k v).proper = true ↔ k.Value ∧ v.Value := by
  simp [Ty.Value]

theorem Ty.proper_tuple {ts : List Ty} :
    (Ty.tuple ts).proper = true ↔ 2 ≤ ts.length ∧ ∀ t ∈ ts, t.Value := by
  simp [properItems_iff]

theorem Ty.proper_func {sig : Signature} : (Ty.func sig).proper = sig.proper := by
  simp

end

/-- Of the proper types only void leaves no value. -/
theorem Ty.valueCount_ne_zero {t : Ty} (h : t.proper = true) (hv : t ≠ .void) : t.valueCount ≠ 0 := by
  cases t with
  | tuple items =>
    have hn := (Ty.proper_tuple.mp h).1
    simp only [Ty.valueCount]
    omega
  | builtin b => cases b <;> simp_all [Ty.valueCount, Ty.void]
  | _ => simp [Ty.valueCount]

end Weft
