import Weft.Proofs.Bytecode.Constants

/-!
# Pools after any calls

A pool is used, released and compacted in any order. Its constants stay different and in the index, each knows how often
it was used since it was last put there, and only compacting moves them.
-/

namespace Weft.Bytecode

/-- A call on a pool of constants. -/
inductive PoolCall where
  | add (c : Constant)
  | release (i : Int)
  | compact
deriving DecidableEq, Repr

/-- The pool after a call. A release that is refused changes nothing. -/
def PoolCall.run (p : Pool) : PoolCall → Pool
  | add c => (p.add c).2
  | release i => (p.release i).toOption.getD p
  | compact => p.compact.2

/-- Whether a call drops a use of a constant of the pool. -/
def PoolCall.drops (p : Pool) (c : Constant) : PoolCall → Bool
  | release i => (p.release i).isOk && (p.get i).toOption = some c
  | _ => false

namespace Pool

/-- The pool after calls. -/
def after (p : Pool) (calls : List PoolCall) : Pool := calls.foldl PoolCall.run p

/-- How many of some calls drop a use of a constant. -/
def dropped (c : Constant) (p : Pool) : List PoolCall → Nat
  | [] => 0
  | call :: calls => (call.drops p c).toNat + dropped c (call.run p) calls

theorem after_append (p : Pool) (xs ys : List PoolCall) : p.after (xs ++ ys) = (p.after xs).after ys :=
  List.foldl_append

theorem after_concat (p : Pool) (calls : List PoolCall) (call : PoolCall) :
    p.after (calls ++ [call]) = call.run (p.after calls) := by
  rw [after_append]
  rfl

theorem dropped_concat (c : Constant) (p : Pool) (calls : List PoolCall) (call : PoolCall) :
    p.dropped c (calls ++ [call]) = p.dropped c calls + (call.drops (p.after calls) c).toNat := by
  induction calls generalizing p with
  | nil => simp [dropped, after]
  | cons x calls ih => rw [List.cons_append, dropped, dropped, ih, Nat.add_assoc]; rfl

/-! ## Single calls -/

section Calls

variable {p : Pool} {c : Constant} {i j m n : Nat}

theorem mem_constants_of_mem (h : (c, n) ∈ p.entries.toList) : c ∈ p.constants := List.mem_map.mpr ⟨_, h, rfl⟩

theorem lookup_of_entry (h : p.entries[i]? = some (c, n)) : p.index.lookup c = some i :=
  (p.indexed c i).mpr (by rw [h]; rfl)

theorem entry_of_lookup (h : p.index.lookup c = some i) : ∃ n, p.entries[i]? = some (c, n) := by
  obtain ⟨⟨d, n⟩, hd, rfl⟩ := Option.map_eq_some_iff.mp ((p.indexed c i).mp h)
  exact ⟨n, hd⟩

/-- A constant has one entry. -/
theorem entry_inj (hi : p.entries[i]? = some (c, m)) (hj : p.entries[j]? = some (c, n)) : i = j :=
  Option.some.inj ((lookup_of_entry hi).symm.trans (lookup_of_entry hj))

/-- An entry after a change at a position is the one that changed, or an entry of another constant. -/
theorem mem_recount {f : Nat → Nat} (h : (c, n) ∈ (p.recount i f).entries.toList) :
    (∃ m, p.entries[i]? = some (c, m) ∧ n = f m) ∨ ((c, n) ∈ p.entries.toList ∧ ∀ m, p.entries[i]? ≠ some (c, m)) := by
  obtain ⟨j, hj⟩ := List.mem_iff_getElem?.mp h
  rw [Array.getElem?_toList, recount, Array.getElem?_modify] at hj
  split at hj
  · next hij =>
    subst hij
    obtain ⟨⟨d, m⟩, hd, heq⟩ := Option.map_eq_some_iff.mp hj
    obtain ⟨rfl, rfl⟩ := Prod.mk.inj heq
    exact .inl ⟨m, hd, rfl⟩
  · next hij => exact .inr ⟨List.mem_of_getElem? (by rw [Array.getElem?_toList, hj]), fun m hm => hij (entry_inj hm hj)⟩

/-- A release takes one use from a constant that has one, and is refused otherwise. -/
theorem release_cases (p : Pool) (i : Int) :
    (∃ (k : Nat) (v : Constant) (m : Nat), i = k ∧ p.entries[k]? = some (v, m + 1) ∧
      p.release i = .ok (p.recount k fun _ => m)) ∨
    ((∀ (k : Nat) (v : Constant) (m : Nat), i = k → p.entries[k]? = some (v, m) → m = 0) ∧
      p.release i = .error (.unusedConstant i)) := by
  unfold release
  split
  · next v m hv =>
    split at hv
    · cases hv
    · next hneg => exact .inl ⟨i.toNat, v, m, by omega, hv, rfl⟩
  · next hunused =>
    refine .inr ⟨?_, rfl⟩
    rintro k v m rfl hv
    have hneg : ¬(k : Int) < 0 := by omega
    cases m with
    | zero => rfl
    | succ m => exact absurd (by rw [if_neg hneg, Int.toNat_natCast, hv]) (hunused v m)

theorem run_release_ok {p' : Pool} {i : Int} (h : p.release i = .ok p') : (PoolCall.release i).run p = p' := by
  rw [PoolCall.run, h]
  rfl

theorem run_release_error {v : Violation} {i : Int} (h : p.release i = .error v) : (PoolCall.release i).run p = p := by
  rw [PoolCall.run, h]
  rfl

theorem get_of_entry (h : p.entries[i]? = some (c, n)) : p.get i = .ok c := by
  have hneg : ¬(i : Int) < 0 := by omega
  simp [get, hneg, h]

/-- An entry after a call is of the constant that the call put there, or it was there with as many uses, up to the one
that the call made or dropped. -/
theorem uses_run (call : PoolCall) (h : (c, n) ∈ (call.run p).entries.toList) :
    (call = .add c ∧ c ∉ p.constants ∧ n = 1) ∨
      ∃ m, (c, m) ∈ p.entries.toList ∧ n + (call.drops p c).toNat = m + if call = .add c then 1 else 0 := by
  have hmem : ∀ {i m}, p.entries[i]? = some (c, m) → (c, m) ∈ p.entries.toList := fun hm =>
    List.mem_of_getElem? (by rw [Array.getElem?_toList, hm])
  cases call with
  | add d =>
    rw [PoolCall.run] at h
    cases hd : p.index.lookup d with
    | some i =>
      obtain ⟨k, hk⟩ := entry_of_lookup hd
      rw [add_of_some hd] at h
      rcases mem_recount h with ⟨m, hm, rfl⟩ | ⟨hold, hne⟩
      · obtain ⟨rfl, -⟩ := Prod.mk.inj (Option.some.inj (hm.symm.trans hk))
        exact .inr ⟨m, hmem hm, by simp [PoolCall.drops]⟩
      · have hdc : d ≠ c := fun hdc => hne k (hdc ▸ hk)
        exact .inr ⟨n, hold, by simp [PoolCall.drops, hdc]⟩
    | none =>
      have hnew : d ∉ p.constants := lookup_eq_none.mp hd
      rw [add_of_none hd] at h
      rcases Array.mem_push.mp (Array.mem_toList_iff.mp h) with hold | heq
      · have hold := Array.mem_toList_iff.mpr hold
        have hdc : d ≠ c := fun hdc => hnew (hdc ▸ mem_constants_of_mem hold)
        exact .inr ⟨n, hold, by simp [PoolCall.drops, hdc]⟩
      · obtain ⟨rfl, rfl⟩ := Prod.mk.inj heq
        exact .inl ⟨rfl, hnew, rfl⟩
  | release i =>
    refine .inr ?_
    rcases release_cases p i with ⟨k, v, m, rfl, hv, hr⟩ | ⟨-, hr⟩
    · rw [run_release_ok hr] at h
      rcases mem_recount h with ⟨m', hm', rfl⟩ | ⟨hold, hne⟩
      · obtain ⟨rfl, rfl⟩ := Prod.mk.inj (Option.some.inj (hm'.symm.trans hv))
        exact ⟨_, hmem hv, by simp [PoolCall.drops, hr, get_of_entry hv, Except.isOk, Except.toBool, Except.toOption]⟩
      · have hvc : v ≠ c := fun hvc => hne _ (hvc ▸ hv)
        exact ⟨n, hold, by simp [PoolCall.drops, get_of_entry hv, Except.toOption, hvc]⟩
    · rw [run_release_error hr] at h
      exact ⟨n, h, by simp [PoolCall.drops, hr, Except.isOk, Except.toBool]⟩
  | compact =>
    rw [PoolCall.run] at h
    simp only [compact, Array.toList_filter, List.mem_filter] at h
    exact .inr ⟨n, h.1, by simp [PoolCall.drops]⟩

/-- A constant stays at its position, whatever the call, unless the call compacts. -/
theorem prefix_run {call : PoolCall} (h : call ≠ .compact) : p.constants <+: (call.run p).constants := by
  cases call with
  | add c => exact (add_spec (Prod.eta _).symm).2
  | release i =>
    rcases release_cases p i with ⟨k, v, m, -, -, hr⟩ | ⟨-, hr⟩
    · rw [run_release_ok hr, constants_recount]
    · rw [run_release_error hr]
  | compact => exact absurd rfl h

end Calls

/-! ## All calls -/

/-- How the uses of a constant came about: one of some calls put it into the pool, it has been there since, and besides
that call there were as many that used it as there are uses left and uses dropped. -/
def Accounts (p : Pool) (calls : List PoolCall) (c : Constant) (n : Nat) : Prop :=
  ∃ before later, calls = before ++ PoolCall.add c :: later ∧ c ∉ (p.after before).constants ∧
    (∀ part, part <+: later → c ∈ (p.after (before ++ PoolCall.add c :: part)).constants) ∧
    n + (p.after (before ++ [PoolCall.add c])).dropped c later = 1 + later.count (.add c)

theorem accounts_after (calls : List PoolCall) {c : Constant} {n : Nat} (h : (c, n) ∈ (empty.after calls).entries.toList) :
    empty.Accounts calls c n := by
  induction calls using List.reverseRecOn generalizing n with
  | nil => cases h
  | append_singleton calls call ih =>
    rw [after_concat] at h
    have hthere := mem_constants_of_mem h
    rcases uses_run call h with ⟨rfl, hnew, rfl⟩ | ⟨m, hm, hn⟩
    · refine ⟨calls, [], rfl, hnew, fun part hpart => ?_, rfl⟩
      rw [List.prefix_nil.mp hpart, after_concat]
      exact hthere
    · obtain ⟨before, later, rfl, hnew, hsince, huses⟩ := ih hm
      refine ⟨before, later ++ [call], by simp, hnew, fun part hpart => ?_, ?_⟩
      · rcases List.prefix_concat_iff.mp hpart with rfl | hpart
        · rw [← List.cons_append, ← List.append_assoc, after_concat]
          exact hthere
        · exact hsince part hpart
      · have hafter : (empty.after (before ++ [PoolCall.add c])).after later =
          empty.after (before ++ PoolCall.add c :: later) := by
          rw [← after_append, List.append_assoc, List.singleton_append]
        rw [dropped_concat, hafter, List.count_append, List.count_singleton]
        simp only [beq_iff_eq]
        split at hn <;> simp_all <;> omega

/-- What holds of a pool after some calls on an empty one, and of the next call. -/
structure WellKept (p : Pool) (calls : List PoolCall) : Prop where
  /-- No two constants agree in kind, number, bits of a float, text and module. -/
  distinct : p.constants.Nodup
  indexed : ∀ c i, p.index.lookup c = some i ↔ p.constants[i]? = some c
  uses : ∀ c n, (c, n) ∈ p.entries.toList → empty.Accounts calls c n
  /-- A constant that is there is used once more, and nothing else changes. -/
  used : ∀ c i, p.constants[i]? = some c → (p.add c).1 = i ∧ (p.add c).2.index = p.index ∧
    (p.add c).2.entries = p.entries.modify i fun e => (e.1, e.2 + 1)
  /-- A constant that is not there comes last. -/
  appended : ∀ c ∉ p.constants, (p.add c).1 = p.constants.length ∧ (p.add c).2.entries = p.entries.push (c, 1)
  /-- A release takes one use from a constant that has one, and nothing else changes. -/
  released : ∀ (k : Nat) c n, p.entries[k]? = some (c, n + 1) → ∃ p', p.release k = .ok p' ∧ p'.index = p.index ∧
    p'.entries = p.entries.modify k fun e => (e.1, e.2 - 1)
  /-- No other release is accepted. -/
  refused : ∀ i : Int, (∀ (k : Nat) c n, i = k → p.entries[k]? = some (c, n) → n = 0) →
    p.release i = .error (.unusedConstant i)
  /-- A call that does not compact leaves all constants where they are. -/
  stays : ∀ call, call ≠ PoolCall.compact → p.constants <+: (call.run p).constants
  /-- Compacting keeps the constants with uses, in their order. -/
  kept : p.compact.2.entries = p.entries.filter fun e => 0 < e.2
  /-- Compacting gives a new position for each constant. -/
  count : p.compact.1.length = p.constants.length
  /-- The new position of a constant that is kept leads to it. -/
  moved : ∀ (i : Nat) e, p.entries[i]? = some e → 0 < e.2 → ∃ j, p.compact.1[i]? = some (some j) ∧ p.compact.2.entries[j]? = some e
  /-- A constant that is dropped has no new position. -/
  dropped : ∀ (i : Nat) e, p.entries[i]? = some e → e.2 = 0 → p.compact.1[i]? = some none

theorem length_positions (es : List (Constant × Nat)) (next : Nat) : (positions next es).length = es.length := by
  induction es generalizing next with
  | nil => rfl
  | cons e es ih =>
    obtain ⟨c, n⟩ := e
    cases n <;> simp [positions, ih]

/-- **A pool is kept well by any calls.** After uses, releases and compactions in any order, also refused releases, the
constants are different and the index has just them with their positions. A constant has as many uses as it was used and
not released since it was last put there. Using a constant that is there gives its position and changes nothing but its
number of uses, and constants move only when the pool is compacted, which keeps those with uses in their order and says
where each of them went. -/
theorem empty_after_wellKept (calls : List PoolCall) : (empty.after calls).WellKept calls := by
  generalize hp : empty.after calls = p
  refine {
    distinct := p.nodup_constants
    indexed := fun c i => lookup_index
    uses := fun c n h => accounts_after calls (hp ▸ h)
    used := fun c i h => ?_
    appended := fun c h => ?_
    released := fun k c n h => ?_
    refused := fun i h => ?_
    stays := fun call h => prefix_run h
    kept := ?_
    count := ?_
    moved := fun i e h he => compact_kept h (Nat.ne_of_gt he)
    dropped := fun i e h he => compact_dropped h he }
  · rw [add_of_some (lookup_index.mpr h)]
    exact ⟨rfl, rfl, rfl⟩
  · rw [add_of_none (lookup_eq_none.mpr h)]
    exact ⟨by simp [constants], rfl⟩
  · rcases release_cases p k with ⟨j, v, m, hj, hv, hr⟩ | ⟨hzero, -⟩
    · obtain rfl : k = j := by omega
      have hm : n + 1 = m + 1 := congrArg Prod.snd (Option.some.inj (h.symm.trans hv))
      obtain rfl : n = m := Nat.succ.inj hm
      refine ⟨_, hr, rfl, Array.ext_getElem? fun j => ?_⟩
      rw [recount, Array.getElem?_modify, Array.getElem?_modify]
      split
      · next hj =>
        subst hj
        rw [h]
        rfl
      · rfl
    · exact absurd (hzero k c (n + 1) rfl h) (Nat.succ_ne_zero n)
  · rcases release_cases p i with ⟨k, v, m, hk, hv, -⟩ | ⟨-, hr⟩
    · exact absurd (h k v (m + 1) hk hv) (Nat.succ_ne_zero m)
    · exact hr
  · rw [compact]
    simp [Nat.pos_iff_ne_zero]
  · rw [compact, length_positions]
    simp [constants]

end Pool

end Weft.Bytecode
