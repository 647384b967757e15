import Mathlib
import Weft.Bytecode.Constant

/-!
# The uses of constants

Constants keep their positions while others are used, and the pool knows how often each of them was.
-/

namespace Weft.Bytecode

section Operations

variable {p : Pool} {c : Constant} {i : Nat}

@[simp] theorem Pool.constants_recount (p : Pool) (i : Nat) (f : Nat → Nat) : (p.recount i f).constants = p.constants := by
  apply List.ext_getElem?
  intro j
  rw [getElem?_constants, getElem?_constants, recount, Array.getElem?_modify]
  split <;> simp [Function.comp_def]

@[simp] theorem Pool.constants_push (h : p.index.lookup c = none) : (p.push c h).constants = p.constants ++ [c] := by
  simp [constants, push]

/-- A constant is in a pool when the index has it. -/
theorem Pool.lookup_eq_none : p.index.lookup c = none ↔ c ∉ p.constants := by
  rw [Option.eq_none_iff_forall_ne_some, List.mem_iff_getElem?, not_exists]
  exact forall_congr' fun i => not_congr lookup_index

theorem Pool.add_of_some (h : p.index.lookup c = some i) : p.add c = (i, p.recount i (· + 1)) := by
  unfold add
  split
  · next j hj => rw [Option.some.inj (hj.symm.trans h)]
  · next hnone => cases hnone.symm.trans h

theorem Pool.add_of_none (h : p.index.lookup c = none) : p.add c = (p.entries.size, p.push c h) := by
  unfold add
  split
  · next j hj => cases hj.symm.trans h
  · rfl

/-- A used constant is in the pool at its position, and the others keep theirs. -/
theorem Pool.add_spec {p' : Pool} (h : p.add c = (i, p')) :
    p'.constants[i]? = some c ∧ p.constants <+: p'.constants := by
  cases hc : p.index.lookup c with
  | some k =>
    obtain ⟨rfl, rfl⟩ := Prod.mk.inj ((add_of_some hc).symm.trans h)
    rw [constants_recount]
    exact ⟨lookup_index.mp hc, List.prefix_rfl⟩
  | none =>
    obtain ⟨rfl, rfl⟩ := Prod.mk.inj ((add_of_none hc).symm.trans h)
    rw [constants_push]
    exact ⟨by simp [constants], List.prefix_append _ _⟩

end Operations

/-! ## New positions -/

section Compaction

variable {p : Pool} {i : Nat} {e : Constant × Nat}

/-- An entry that is kept has the position of those before it that are kept. -/
theorem Pool.getElem?_positions (es : List (Constant × Nat)) (next i : Nat) : (positions next es)[i]? =
    es[i]?.map fun e => if e.2 = 0 then none else some (next + (es.take i).countP fun e => e.2 ≠ 0) := by
  induction es generalizing next i with
  | nil => rfl
  | cons e es ih =>
    obtain ⟨c, n⟩ := e
    cases i with
    | zero => cases n <;> simp [positions]
    | succ i =>
      cases n with
      | zero => simp [positions, ih]
      | succ n => simp [positions, ih, Nat.add_assoc, Nat.add_comm 1]

/-- An element that a filter keeps stands behind those before it that are kept. -/
theorem getElem?_filter_countP {α : Type} {P : α → Bool} {xs : List α} {i : Nat} {x : α} (h : xs[i]? = some x)
    (hx : P x = true) : (xs.filter P)[(xs.take i).countP P]? = some x := by
  induction xs generalizing i with
  | nil => cases h
  | cons y xs ih =>
    cases i with
    | zero =>
      obtain rfl : y = x := by simpa using h
      simp [hx]
    | succ i =>
      have hrest := ih (by simpa using h)
      by_cases hy : P y = true
      · simpa [hy] using hrest
      · simpa [hy] using hrest

theorem Pool.getElem?_compact (p : Pool) (i : Nat) : p.compact.1[i]? = p.entries[i]?.map fun e =>
    if e.2 = 0 then none else some ((p.entries.toList.take i).countP fun e => e.2 ≠ 0) := by
  rw [compact, getElem?_positions, Array.getElem?_toList]
  simp only [Nat.zero_add]

/-- A constant with uses is kept. -/
theorem Pool.compact_kept (h : p.entries[i]? = some e) (he : e.2 ≠ 0) :
    ∃ j, p.compact.1[i]? = some (some j) ∧ p.compact.2.entries[j]? = some e := by
  refine ⟨_, by rw [getElem?_compact, h, Option.map_some, if_neg he], ?_⟩
  rw [compact, ← Array.getElem?_toList, Array.toList_filter]
  exact getElem?_filter_countP (by rw [Array.getElem?_toList, h]) (by simpa using he)

/-- A constant without uses has no position any more. -/
theorem Pool.compact_dropped (h : p.entries[i]? = some e) (he : e.2 = 0) : p.compact.1[i]? = some none := by
  rw [getElem?_compact, h, Option.map_some, if_pos he]

/-- The new position of a constant holds the constant. -/
theorem Pool.compact_spec {p' : Pool} {ps : List (Option Nat)} {j : Nat} (h : p.compact = (ps, p'))
    (hi : ps[i]? = some (some j)) : ∃ c, p.constants[i]? = some c ∧ p'.constants[j]? = some c := by
  obtain rfl : p.compact.1 = ps := by rw [h]
  obtain rfl : p.compact.2 = p' := by rw [h]
  cases he : p.entries[i]? with
  | none =>
    rw [getElem?_compact, he] at hi
    cases hi
  | some e =>
    by_cases huses : e.2 = 0
    · cases (compact_dropped he huses).symm.trans hi
    · obtain ⟨k, hk, hkept⟩ := compact_kept he huses
      obtain rfl : k = j := by simpa [hk] using hi
      exact ⟨e.1, by simp [getElem?_constants, he], by simp [getElem?_constants, hkept]⟩

end Compaction

/-! ## Uses of constants -/

/-- Use constants one after the other. -/
def Pool.addAll (p : Pool) (cs : List Constant) : Pool := cs.foldl (fun p c => (p.add c).2) p

theorem Pool.addAll_append (p : Pool) (cs ds : List Constant) : p.addAll (cs ++ ds) = (p.addAll cs).addAll ds :=
  List.foldl_append

/-- Constants keep their positions when others are used. -/
theorem Pool.prefix_addAll (p : Pool) (cs : List Constant) : p.constants <+: (p.addAll cs).constants := by
  induction cs generalizing p with
  | nil => exact List.prefix_rfl
  | cons c cs ih => exact (Pool.add_spec (Prod.eta _).symm).2.trans (ih (p.add c).2)

/-- The constants of a pool have as many uses as a function says. -/
structure Pool.Tallies (p : Pool) (f : Constant → Nat) : Prop where
  uses : ∀ {i : Nat} {v n}, p.entries[i]? = some (v, n) → n = f v
  all : ∀ {v}, 0 < f v → v ∈ p.constants

namespace Pool.Tallies

variable {p : Pool} {f : Constant → Nat}

theorem empty : Pool.empty.Tallies fun _ => 0 :=
  ⟨by simp [Pool.empty], fun h => absurd h (Nat.lt_irrefl 0)⟩

theorem add (h : p.Tallies f) (c : Constant) : (p.add c).2.Tallies fun v => f v + if v = c then 1 else 0 := by
  have hat : ∀ {i : Nat} {v n}, p.entries[i]? = some (v, n) → p.constants[i]? = some v := by
    intro i v n hi
    simp [constants, hi]
  cases hc : p.index.lookup c with
  | some k =>
    have hkc := lookup_index.mp hc
    rw [add_of_some hc]
    refine ⟨?_, ?_⟩
    · intro i v n hi
      simp only [recount, Array.getElem?_modify] at hi
      split at hi
      · next hki =>
        subst hki
        obtain ⟨⟨w, m⟩, hw, heq⟩ := Option.map_eq_some_iff.mp hi
        obtain ⟨rfl, rfl⟩ := Prod.mk.inj heq
        obtain rfl : w = c := Option.some.inj ((hat hw).symm.trans hkc)
        simp [h.uses hw]
      · next hki =>
        have hne : v ≠ c := by
          rintro rfl
          have hlen : k < p.constants.length := (List.getElem?_eq_some_iff.mp hkc).1
          exact hki ((List.getElem?_inj hlen p.nodup_constants).mp (hkc.trans (hat hi).symm))
        simp [hne, h.uses hi]
    · intro v hv
      rw [constants_recount]
      by_cases hvc : v = c
      · rw [hvc]
        exact List.mem_of_getElem? hkc
      · exact h.all (by simpa [hvc] using hv)
  | none =>
    have hnew : c ∉ p.constants := lookup_eq_none.mp hc
    have hzero : f c = 0 := Nat.eq_zero_of_not_pos fun hpos => hnew (h.all hpos)
    rw [add_of_none hc]
    refine ⟨?_, ?_⟩
    · intro i v n hi
      simp only [push, Array.getElem?_push] at hi
      split at hi
      · obtain ⟨rfl, rfl⟩ := Prod.mk.inj (Option.some.inj hi)
        simp [hzero]
      · have hne : v ≠ c := by
          rintro rfl
          exact hnew (List.mem_of_getElem? (hat hi))
        simp [hne, h.uses hi]
    · intro v hv
      rw [constants_push]
      by_cases hvc : v = c
      · simp [hvc]
      · exact List.mem_append_left _ (h.all (by simpa [hvc] using hv))

theorem addAll (h : p.Tallies f) (cs : List Constant) : (p.addAll cs).Tallies fun v => f v + cs.count v := by
  induction cs generalizing p f with
  | nil => exact h
  | cons c cs ih =>
    have hcount : (fun v => f v + (c :: cs).count v) = fun v => (f v + if v = c then 1 else 0) + cs.count v := by
      funext v
      rw [List.count_cons]
      simp only [beq_iff_eq, eq_comm (a := c)]
      omega
    rw [hcount]
    exact ih (h.add c)

end Pool.Tallies

end Weft.Bytecode
