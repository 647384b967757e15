import Weft.Proofs.Analysis.Accepted
import Weft.Proofs.Analysis.TypeNames

/-!
# Written types

The types that are written in an accepted program are proper.
-/

namespace Weft

variable {s : Store}

/-! ## Lookups -/

/-- A named type is proper, and unless it is void it is of one value. -/
theorem Store.resolveType_proper {scope : Lookup} {path : List String} {t : Ty}
    (h : s.resolveType scope path = .ok t) : t.proper = true ∧ (t.is .void = false → t.isSingle = true) := by
  unfold Store.resolveType at h
  cases hp : s.resolvePath scope path with
  | error e =>
    rw [hp] at h
    cases h
  | ok f =>
    rw [hp] at h
    cases f with
    | view v => cases h
    | sym sym =>
      cases sym with
      | builtin b => cases b <;> cases h <;> simp [Ty.proper, Ty.isSingle, Ty.is]
      | cls c | iface c | enumeration c =>
        cases h
        simp [Ty.proper, Ty.isSingle]
      | _ => cases h

end Weft

/-! ## Written types that are accepted

A written type that is accepted names a proper type, of one value unless it is the result of a function, and
resolving it changes nothing.
-/

namespace Weft.Analysis

open Weft.Tree (TypeExpr Param)

variable {pl : Place}

mutual

/-- An accepted type is known, proper, and of one value where void is not allowed. -/
theorem accepts_resolveType {st st' : State} {allowVoid : Bool} : (e : TypeExpr) → {r : Option Ty} →
    Accepts (resolveType allowVoid e) pl st r st' →
    st' = st ∧ ∃ t, r = some t ∧ t.proper = true ∧ (allowVoid = false → t.isSingle = true)
  | .named span path, r, h => by
    simp only [resolveType, accepts_bind, accepts_store, accepts_read] at h
    obtain ⟨s, _, ⟨rfl, rfl⟩, _, _, ⟨rfl, rfl⟩, h⟩ := h
    split at h
    · simp at h
    · next t ht =>
      obtain ⟨hproper, hsingle⟩ := Store.resolveType_proper ht
      split at h
      · simp at h
      · next hv =>
        obtain ⟨rfl, rfl⟩ := accepts_pure.mp h
        refine ⟨rfl, t, rfl, hproper, fun ha => hsingle ?_⟩
        simpa [ha] using hv
  | .array span elem, r, h => by
    simp only [resolveType, accepts_map, bind_pure_comp] at h
    obtain ⟨r', h, rfl⟩ := h
    obtain ⟨rfl, t, rfl, hp, hs⟩ := accepts_resolveType elem h
    exact ⟨rfl, _, rfl, Ty.proper_array.mpr ⟨hs rfl, hp⟩, fun _ => rfl⟩
  | .map span key value, r, h => by
    simp only [resolveType, accepts_bind] at h
    obtain ⟨rk, st₁, hk, rv, st₂, hv, h⟩ := h
    obtain ⟨rfl, k, rfl, hkp, hks⟩ := accepts_resolveType key hk
    obtain ⟨rfl, v, rfl, hvp, hvs⟩ := accepts_resolveType value hv
    obtain ⟨rfl, rfl⟩ := accepts_pure.mp h
    exact ⟨rfl, _, rfl, Ty.proper_map.mpr ⟨⟨hks rfl, hkp⟩, hvs rfl, hvp⟩, fun _ => rfl⟩
  | .func span coro [] params, r, h => by
    simp only [resolveType, pure_bind, accepts_bind] at h
    obtain ⟨rp, st₁, hp, h⟩ := h
    obtain ⟨rfl, ps, rfl, hps⟩ := accepts_resolveParamTypes params hp
    obtain ⟨rfl, rfl⟩ := accepts_pure.mp h
    refine ⟨rfl, _, rfl, ?_, fun _ => rfl⟩
    rw [Ty.proper_func, Signature.proper_iff]
    exact ⟨by simp [Ty.proper], hps⟩
  | .func span coro [t] params, r, h => by
    simp only [resolveType, accepts_bind] at h
    obtain ⟨rt, st₁, ht, rp, st₂, hp, h⟩ := h
    obtain ⟨rfl, ret, rfl, hret, -⟩ := accepts_resolveType t ht
    obtain ⟨rfl, ps, rfl, hps⟩ := accepts_resolveParamTypes params hp
    obtain ⟨rfl, rfl⟩ := accepts_pure.mp h
    refine ⟨rfl, _, rfl, ?_, fun _ => rfl⟩
    rw [Ty.proper_func, Signature.proper_iff]
    exact ⟨hret, hps⟩
  | .func span coro (t :: u :: ts) params, r, h => by
    simp only [resolveType, accepts_bind, accepts_pure] at h
    obtain ⟨rs, _, hs, _, _, ⟨rfl, rfl⟩, rp, st₂, hp, h⟩ := h
    obtain ⟨rfl, items, rfl, hlen, hitems⟩ := accepts_resolveTypes (t :: u :: ts) hs
    obtain ⟨rfl, ps, rfl, hps⟩ := accepts_resolveParamTypes params hp
    obtain ⟨rfl, rfl⟩ := accepts_pure.mp h
    refine ⟨rfl, _, rfl, ?_, fun _ => rfl⟩
    rw [Ty.proper_func, Signature.proper_iff]
    exact ⟨Ty.proper_tuple.mpr ⟨by simp [hlen], hitems⟩, hps⟩

theorem accepts_resolveTypes {st st' : State} : (es : List TypeExpr) → {r : Option (List Ty)} →
    Accepts (resolveTypes es) pl st r st' →
    st' = st ∧ ∃ ts, r = some ts ∧ ts.length = es.length ∧ ∀ t ∈ ts, t.Value
  | [], r, h => by
    simp only [resolveTypes, accepts_pure] at h
    obtain ⟨rfl, rfl⟩ := h
    exact ⟨rfl, [], rfl, rfl, by simp⟩
  | e :: es, r, h => by
    simp only [resolveTypes, accepts_bind] at h
    obtain ⟨rt, st₁, ht, h⟩ := h
    obtain ⟨rfl, t, rfl, hp, hs⟩ := accepts_resolveType e ht
    simp only [accepts_map, bind_pure_comp] at h
    obtain ⟨rs, h, rfl⟩ := h
    obtain ⟨rfl, ts, rfl, hlen, hts⟩ := accepts_resolveTypes es h
    refine ⟨rfl, t :: ts, rfl, by simp [hlen], ?_⟩
    intro u hu
    rcases List.mem_cons.mp hu with rfl | hu
    · exact ⟨hs rfl, hp⟩
    · exact hts u hu

theorem accepts_resolveParamTypes {st st' : State} : (ps : List (Bool × TypeExpr)) → {r : Option (List (Bool × Ty))} →
    Accepts (resolveParamTypes ps) pl st r st' → st' = st ∧ ∃ ts, r = some ts ∧ ∀ t ∈ ts, t.2.Value
  | [], r, h => by
    simp only [resolveParamTypes, accepts_pure] at h
    obtain ⟨rfl, rfl⟩ := h
    exact ⟨rfl, [], rfl, by simp⟩
  | (ref, e) :: ps, r, h => by
    simp only [resolveParamTypes, accepts_bind] at h
    obtain ⟨rt, st₁, ht, h⟩ := h
    obtain ⟨rfl, t, rfl, hp, hs⟩ := accepts_resolveType e ht
    simp only [accepts_map, bind_pure_comp] at h
    obtain ⟨rs, h, rfl⟩ := h
    obtain ⟨rfl, ts, rfl, hts⟩ := accepts_resolveParamTypes ps h
    refine ⟨rfl, (ref, t) :: ts, rfl, ?_⟩
    intro u hu
    rcases List.mem_cons.mp hu with rfl | hu
    · exact ⟨hs rfl, hp⟩
    · exact hts u hu

end

variable {st st' : State}

theorem accepts_resolveReturns {es : List TypeExpr} {r : Option Ty} (h : Accepts (resolveReturns es) pl st r st') :
    st' = st ∧ ∃ t, r = some t ∧ t.proper = true := by
  unfold resolveReturns at h
  split at h
  · obtain ⟨rfl, rfl⟩ := accepts_pure.mp h
    exact ⟨rfl, _, rfl, by simp [Ty.proper]⟩
  · obtain ⟨rfl, t, rfl, hp, -⟩ := accepts_resolveType _ h
    exact ⟨rfl, t, rfl, hp⟩
  · next h0 h1 =>
    simp only [accepts_map, bind_pure_comp] at h
    obtain ⟨rs, h, rfl⟩ := h
    obtain ⟨rfl, ts, rfl, hlen, hts⟩ := accepts_resolveTypes _ h
    refine ⟨rfl, _, rfl, Ty.proper_tuple.mpr ⟨?_, hts⟩⟩
    rw [hlen]
    match es, h0, h1 with
    | [], h0, _ => exact absurd rfl h0
    | [e], _, h1 => exact absurd rfl (h1 e)
    | _ :: _ :: _, _, _ => simp

/-- From a position on all parameters have default values, before it none has. -/
def DefaultsFrom (k : Nat) (ps : List Param) : Prop :=
  ∀ i p, ps[i]? = some p → (p.default.isSome = true ↔ k ≤ i)

/-- The types of accepted parameters, and how many of them have default values. -/
theorem accepts_resolveParams {ps : List Param} {seen : List String} {d : Nat} {r : List (Bool × Ty) × Nat}
    (h : Accepts (resolveParams seen d ps) pl st r st') :
    st' = st ∧ r.1.map Prod.fst = ps.map (·.ref) ∧ (∀ t ∈ r.1, t.2.Value) ∧
      ∃ k ≤ ps.length, r.2 = d + (ps.length - k) ∧ (0 < d → k = 0) ∧ DefaultsFrom k ps := by
  induction ps generalizing st seen d r with
  | nil =>
    simp only [resolveParams, accepts_pure] at h
    obtain ⟨rfl, rfl⟩ := h
    exact ⟨rfl, rfl, by simp, 0, by simp, by simp, fun _ => rfl, fun i p hp => by simp at hp⟩
  | cons p ps ih =>
    simp only [resolveParams] at h
    split at h
    · simp at h
    obtain ⟨rt, st₁, ht, h⟩ := accepts_bind.mp h
    obtain ⟨rfl, t, rfl, hp, hs⟩ := accepts_resolveType p.type ht
    split at h
    · simp at h
    · next href =>
      split at h
      · simp at h
      · next hmissing =>
        obtain ⟨rest, st₂, hrest, h⟩ := accepts_bind.mp h
        obtain ⟨rfl, rfl⟩ := accepts_pure.mp h
        obtain ⟨rfl, hrefs, hvalues, k, hk, hcount, hpos, hfrom⟩ := ih hrest
        refine ⟨rfl, by simp [hrefs], ?_, ?_⟩
        · intro u hu
          rcases List.mem_cons.mp hu with rfl | hu
          · exact ⟨hs rfl, hp⟩
          · exact hvalues u hu
        · cases hd : p.default with
          | none =>
            have hzero : d = 0 := by
              have : ¬0 < d := by simpa [hd] using hmissing
              omega
            refine ⟨k + 1, by simpa using hk, by simp [hcount, hd], by omega, ?_⟩
            intro i q hq
            cases i with
            | zero =>
              obtain rfl : p = q := by simpa using hq
              simp [hd]
            | succ i => simpa using hfrom i q (by simpa using hq)
          | some x =>
            have hown : p.ref = false := by simpa [hd] using href
            have hk0 : k = 0 := by
              apply hpos
              simp [hd, hown]
            subst hk0
            refine ⟨0, Nat.zero_le _, ?_, fun _ => rfl, ?_⟩
            · simp only [hcount, hd, hown, List.length_cons]
              simp only [Option.isSome_some, Bool.not_false, Bool.and_self, if_true]
              omega
            intro i q hq
            cases i with
            | zero =>
              obtain rfl : p = q := by simpa using hq
              simp [hd]
            | succ i => simpa using hfrom i q (by simpa using hq)

/-- What an accepted signature says of its parameters. -/
structure SignatureOf (sig : Signature) (ps : List Param) : Prop where
  refs : sig.params.map Prod.fst = ps.map (·.ref)
  proper : sig.proper = true
  count : sig.params.length ≤ Typed.Arguments.maxCount
  defaults : ∃ k ≤ ps.length, sig.defaults = ((ps.length - k : Nat) : Int) ∧ ps.length - k ≤ Typed.Arguments.maxDefaults ∧
    DefaultsFrom k ps

theorem accepts_resolveSignature {coro : Bool} {es : List TypeExpr} {ps : List Param} {sig : Signature}
    (h : Accepts (resolveSignature coro es ps) pl st sig st') : st' = st ∧ SignatureOf sig ps ∧ sig.coro = coro := by
  rw [resolveSignature, accepts_bind] at h
  obtain ⟨rt, st₁, ht, h⟩ := h
  obtain ⟨rfl, t, rfl, hproper⟩ := accepts_resolveReturns ht
  rw [accepts_bind] at h
  obtain ⟨⟨types, defaults⟩, st₂, hp, h⟩ := h
  obtain ⟨rfl, hrefs, hvalues, k, hk, hcount, -, hfrom⟩ := accepts_resolveParams hp
  simp only [Nat.zero_add] at hcount
  have hlen : types.length = ps.length := by simpa using congrArg List.length hrefs
  have hsig : (⟨t, types, defaults, coro⟩ : Signature).proper = true := Signature.proper_iff.mpr ⟨hproper, hvalues⟩
  cases ps with
  | nil =>
    obtain ⟨rfl, rfl⟩ := accepts_pure.mp h
    refine ⟨rfl, ⟨hrefs, hsig, ?_, k, hk, by simp [hcount], by simp, hfrom⟩, rfl⟩
    have : types = [] := List.length_eq_zero_iff.mp (by simpa using hlen)
    simp [this]
  | cons p ps =>
    simp only at h
    split at h
    · simp at h
    · next hmax =>
      split at h
      · simp at h
      · next hmaxd =>
        obtain ⟨rfl, rfl⟩ := accepts_pure.mp h
        exact ⟨rfl, ⟨hrefs, hsig, by simpa using hmax, k, hk, by simp [hcount], by omega, hfrom⟩, rfl⟩

end Weft.Analysis
