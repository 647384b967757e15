import Weft.Proofs.Analysis.Accepted
import Weft.Proofs.Typed.Arguments

/-!
# Binding arguments to parameters

Arguments without names are bound to the parameters at their positions, and arguments with names to the parameters of
these names. If a call is accepted, every argument has a parameter of its own, every parameter without a default value
has its argument, and the children of the call are the analyses of the arguments in the order of the parameters.
-/

namespace Weft.Analysis

open Typed (Arguments)

/-! ## Parameters of arguments -/

/-- The parameter that an argument at a position is bound to: the one with its name, or the one at the position. -/
def parameterOf (names : List String) (j : Nat) (a : Tree.Arg) : Option Nat :=
  match a.name with
  | some name => names.idxOf? name
  | none => some j

/-- The argument that is bound to a parameter. -/
def argumentOf (names : List String) (args : List Tree.Arg) (i : Nat) : Option Tree.Arg :=
  (args.zipIdx.find? fun (a, j) => parameterOf names j a = some i).map Prod.fst

/-- Each argument is bound to one of some parameters and no two to the same one. Those with names come last, so the
others are bound to the first parameters in order. -/
structure Binds (names : List String) (count : Nat) (args : List Tree.Arg) : Prop where
  bound : ∀ {j : Nat} {a}, args[j]? = some a → ∃ i < count, parameterOf names j a = some i
  distinct : ∀ {i j j' : Nat} {a a'}, args[j]? = some a → args[j']? = some a' → parameterOf names j a = some i →
    parameterOf names j' a' = some i → j = j'
  namedLast : ∀ {j j' : Nat} {a a'}, args[j]? = some a → args[j']? = some a' → j < j' → a.name.isSome → a'.name.isSome

theorem exists_of_argumentOf {names : List String} {args : List Tree.Arg} {i : Nat} {a : Tree.Arg}
    (h : argumentOf names args i = some a) : ∃ j : Nat, args[j]? = some a ∧ parameterOf names j a = some i := by
  obtain ⟨⟨b, j⟩, hfind, rfl⟩ := Option.map_eq_some_iff.mp h
  exact ⟨j, List.mem_zipIdx_iff_getElem?.mp (List.mem_of_find?_eq_some hfind), by simpa using List.find?_some hfind⟩

theorem paramPosition?_eq_idxOf? {names : List String} {name : String} (h : names.Nodup) :
    paramPosition? names name = names.idxOf? name := by
  have hfrom : ∀ k, (((names.zipIdx k).filter fun x => x.1 = name).getLast?).map Prod.snd =
      (names.idxOf? name).map (· + k) := by
    induction names with
    | nil => simp
    | cons n names ih =>
      intro k
      obtain ⟨hnot, hrest⟩ := List.nodup_cons.mp h
      rw [List.zipIdx_cons, List.idxOf?_cons]
      by_cases hn : n = name
      · -- no other parameter has the name
        have hnone : (names.zipIdx (k + 1)).filter (fun x => x.1 = name) = [] := by
          refine List.filter_eq_nil_iff.mpr fun x hx heq => hnot ?_
          have hmem : x.1 ∈ names := List.fst_mem_of_mem_zipIdx hx
          rw [hn, ← of_decide_eq_true heq]
          exact hmem
        simp [hn, hnone]
      · rw [List.filter_cons_of_neg (by simpa using hn), ih hrest (k + 1)]
        simp [hn, Function.comp_def, Nat.add_assoc, Nat.add_comm 1]
  simpa [paramPosition?] using hfrom 0

/-! ## Places -/

/-- Arguments from a position on fill free places, each the one of its parameter. -/
structure Passes (names : List String) (k : Nat) (named : Bool) (args : List Tree.Arg)
    (before after : List (Option Tree.Arg)) : Prop where
  length : after.length = before.length
  free : ∀ {j : Nat} {a}, args[j]? = some a → ∃ i, parameterOf names (k + j) a = some i ∧ before[i]? = some none
  distinct : ∀ {i j j' : Nat} {a a'}, args[j]? = some a → args[j']? = some a' → parameterOf names (k + j) a = some i →
    parameterOf names (k + j') a' = some i → j = j'
  allNamed : named = true → ∀ a ∈ args, a.name.isSome
  namedLast : ∀ {j j' : Nat} {a a'}, args[j]? = some a → args[j']? = some a' → j < j' → a.name.isSome → a'.name.isSome
  filled : ∀ {i : Nat} {a}, after[i]? = some (some a) ↔
    before[i]? = some (some a) ∨ ∃ j, args[j]? = some a ∧ parameterOf names (k + j) a = some i

section Passes

variable {names : List String} {k i : Nat} {named : Bool} {a : Tree.Arg} {rest : List Tree.Arg}
  {before after : List (Option Tree.Arg)}

theorem Passes.nil : Passes names k named [] before before := by
  refine ⟨rfl, ?_, ?_, ?_, ?_, ?_⟩ <;> simp

theorem Passes.cons (hi : parameterOf names k a = some i) (hfree : before[i]? = some none)
    (hnamed : named = true → a.name.isSome)
    (h : Passes names (k + 1) (named || a.name.isSome) rest (before.set i (some a)) after) :
    Passes names k named (a :: rest) before after := by
  have hlt : i < before.length := (List.getElem?_eq_some_iff.mp hfree).1
  have hshift : ∀ j, k + 1 + j = k + (j + 1) := fun j => by omega
  -- the parameters of the other arguments are other ones
  have hother : ∀ {j : Nat} {b}, rest[j]? = some b → ∃ i', i' ≠ i ∧ parameterOf names (k + (j + 1)) b = some i' ∧
      before[i']? = some none := by
    intro j b hb
    obtain ⟨i', hi', hset⟩ := h.free hb
    have hne : i' ≠ i := by
      rintro rfl
      simp [hlt] at hset
    rw [List.getElem?_set_ne hne.symm] at hset
    exact ⟨i', hne, hshift j ▸ hi', hset⟩
  refine ⟨by simpa using h.length, ?_, ?_, ?_, ?_, ?_⟩
  · intro j b hb
    cases j with
    | zero =>
      obtain rfl : a = b := by simpa using hb
      exact ⟨i, hi, hfree⟩
    | succ j =>
      obtain ⟨i', -, hi', hfree'⟩ := hother (by simpa using hb)
      exact ⟨i', hi', hfree'⟩
  · intro i' j j' b b' hb hb' ht ht'
    cases j with
    | zero =>
      obtain rfl : a = b := by simpa using hb
      cases j' with
      | zero => rfl
      | succ j' =>
        obtain ⟨i'', hne, hi'', -⟩ := hother (by simpa using hb')
        have h1 : i = i' := Option.some.inj (hi.symm.trans ht)
        have h2 : i'' = i' := Option.some.inj (hi''.symm.trans ht')
        exact absurd (h2.trans h1.symm) hne
    | succ j =>
      cases j' with
      | zero =>
        obtain rfl : a = b' := by simpa using hb'
        obtain ⟨i'', hne, hi'', -⟩ := hother (by simpa using hb)
        have h1 : i = i' := Option.some.inj (hi.symm.trans ht')
        have h2 : i'' = i' := Option.some.inj (hi''.symm.trans ht)
        exact absurd (h2.trans h1.symm) hne
      | succ j' =>
        have hjj := h.distinct (by simpa using hb) (by simpa using hb') (hshift j ▸ ht) (hshift j' ▸ ht')
        rw [hjj]
  · intro hn b hb
    rcases List.mem_cons.mp hb with rfl | hb
    · exact hnamed hn
    · exact h.allNamed (by simp [hn]) b hb
  · intro j j' b b' hb hb' hlt' hbn
    cases j' with
    | zero => omega
    | succ j' =>
      have hb' : rest[j']? = some b' := by simpa using hb'
      cases j with
      | zero =>
        obtain rfl : a = b := by simpa using hb
        exact h.allNamed (by simp [hbn]) b' (List.mem_of_getElem? hb')
      | succ j => exact h.namedLast (by simpa using hb) hb' (by omega) hbn
  · intro i' b
    rw [h.filled, List.getElem?_set]
    -- the places of the other arguments, by their positions in the whole list
    have hrest : (∃ j, rest[j]? = some b ∧ parameterOf names (k + 1 + j) b = some i') ↔
        ∃ j, (a :: rest)[j + 1]? = some b ∧ parameterOf names (k + (j + 1)) b = some i' := by
      simp only [List.getElem?_cons_succ, hshift]
    rw [hrest]
    constructor
    · rintro (hset | ⟨j, hb, ht⟩)
      · split at hset
        · next heq =>
          obtain rfl := heq
          obtain rfl : a = b := by simpa [hlt] using hset
          exact .inr ⟨0, rfl, hi⟩
        · exact .inl hset
      · exact .inr ⟨j + 1, hb, ht⟩
    · rintro (hb | ⟨j, hb, ht⟩)
      · have hne : i ≠ i' := by
          rintro rfl
          rw [hfree] at hb
          cases hb
        rw [if_neg hne]
        exact .inl hb
      · cases j with
        | zero =>
          obtain rfl : a = b := by simpa using hb
          obtain rfl : i = i' := Option.some.inj (hi.symm.trans ht)
          exact .inl (by simp [hlt])
        | succ j => exact .inr ⟨j, hb, ht⟩

end Passes

section Accepted

variable {names : List String} {pl : Place} {st st' : State}

/-- The run of the rest after an argument that is accepted. -/
theorem passes_cons_of_accepts {a : Tree.Arg} {rest : List Tree.Arg} {p : Passing}
    {places : List (Option Tree.Arg)} (hn : names.Nodup)
    (h : Accepts (passArguments names (a :: rest) p) pl st places st') :
    ∃ i, parameterOf names p.next a = some i ∧ (p.named = true → a.name.isSome) ∧ p.places[i]? = some none ∧
      Accepts (passArguments names rest ⟨p.places.set i (some a), if a.name.isSome then p.next else p.next + 1,
        p.named || a.name.isSome⟩) pl st places st' := by
  have hgive : ∀ {q : Passing} {i}, Accepts (passArguments.give names a rest q i) pl st places st' →
      q.places[i]? = some none ∧
        Accepts (passArguments names rest { q with places := q.places.set i (some a) }) pl st places st' := by
    intro q i hq
    rw [passArguments.give] at hq
    split at hq
    · simp at hq
    · simp at hq
    · next hfree => exact ⟨hfree, hq⟩
  rw [passArguments] at h
  cases hname : a.name with
  | some name =>
    simp only [hname] at h
    rw [paramPosition?_eq_idxOf? hn] at h
    cases hi : names.idxOf? name with
    | none => simp [hi] at h
    | some i =>
      simp only [hi] at h
      obtain ⟨hfree, hrest⟩ := hgive h
      exact ⟨i, by simpa [parameterOf, hname] using hi, fun _ => rfl, hfree, by simpa using hrest⟩
  | none =>
    simp only [hname] at h
    cases hnamed : p.named with
    | true => simp [hnamed] at h
    | false =>
      simp only [hnamed, Bool.false_eq_true, if_false] at h
      obtain ⟨hfree, hrest⟩ := hgive h
      exact ⟨p.next, by simp [parameterOf, hname], by simp, hfree, by simpa [hnamed] using hrest⟩

/-- Arguments that are accepted fill the places of their parameters. -/
theorem passes_of_accepts {args : List Tree.Arg} {p : Passing} {places : List (Option Tree.Arg)} {k : Nat}
    (hn : names.Nodup) (hk : p.named = false → p.next = k)
    (h : Accepts (passArguments names args p) pl st places st') :
    st' = st ∧ Passes names k p.named args p.places places := by
  induction args generalizing p k with
  | nil =>
    rw [passArguments] at h
    obtain ⟨rfl, rfl⟩ := accepts_pure.mp h
    exact ⟨rfl, .nil⟩
  | cons a rest ih =>
    obtain ⟨i, hi, hnamed, hfree, hrest⟩ := passes_cons_of_accepts hn h
    have hnext : a.name = none → p.next = k := by
      intro hname
      refine hk (Bool.eq_false_iff.mpr fun h => ?_)
      simpa [hname] using hnamed h
    have hparam : parameterOf names k a = some i := by
      unfold parameterOf at hi ⊢
      cases hname : a.name with
      | some name => rwa [hname] at hi
      | none => rwa [hname, hnext hname] at hi
    have hkrest : (p.named || a.name.isSome) = false → (if a.name.isSome then p.next else p.next + 1) = k + 1 := by
      intro hnot
      have hname : a.name.isSome = false := (Bool.or_eq_false_iff.mp hnot).2
      rw [if_neg (by simp [hname]), hnext (by simpa using hname)]
    obtain ⟨rfl, hpasses⟩ := ih hkrest hrest
    exact ⟨rfl, .cons hparam hfree hnamed hpasses⟩

end Accepted

/-! ## Bound parameters -/

/-- In the end the place of a parameter has the argument that is bound to it. -/
theorem Passes.argumentOf {names : List String} {n : Nat} {args : List Tree.Arg} {places : List (Option Tree.Arg)}
    (h : Passes names 0 false args (List.replicate n none) places) :
    Binds names n args ∧ places = (List.range n).map (argumentOf names args) := by
  have hbound : ∀ {j : Nat} {a}, args[j]? = some a → ∃ i < n, parameterOf names j a = some i := by
    intro j a ha
    obtain ⟨i, hi, hfree⟩ := h.free ha
    rw [Nat.zero_add] at hi
    exact ⟨i, by simpa using (List.getElem?_eq_some_iff.mp hfree).1, hi⟩
  have hdistinct : ∀ {i j j' : Nat} {a a'}, args[j]? = some a → args[j']? = some a' → parameterOf names j a = some i →
      parameterOf names j' a' = some i → j = j' := by
    intro i j j' a a' ha ha' hi hi'
    exact h.distinct ha ha' (by rwa [Nat.zero_add]) (by rwa [Nat.zero_add])
  refine ⟨⟨hbound, hdistinct, h.namedLast⟩, ?_⟩
  have hlength : places.length = n := by simpa using h.length
  refine List.ext_getElem (by simpa using hlength) fun i hi _ => ?_
  have hfilled : ∀ a, places[i] = some a ↔ ∃ j, args[j]? = some a ∧ parameterOf names j a = some i := by
    intro a
    have hfree : (List.replicate n (none : Option Tree.Arg))[i]? ≠ some (some a) := by
      rw [List.getElem?_replicate]
      split <;> simp
    rw [← Option.some.injEq, ← List.getElem?_eq_getElem hi, h.filled, or_iff_right hfree]
    simp only [Nat.zero_add]
  rw [List.getElem_map, List.getElem_range]
  cases hfound : Weft.Analysis.argumentOf names args i with
  | none =>
    rw [Option.eq_none_iff_forall_ne_some]
    intro a ha
    obtain ⟨j, hj, hparam⟩ := (hfilled a).mp ha
    have := List.find?_eq_none.mp (Option.map_eq_none_iff.mp hfound) (a, j) (List.mem_zipIdx_iff_getElem?.mpr hj)
    simp [hparam] at this
  | some a => exact (hfilled a).mpr (exists_of_argumentOf hfound)

section Count

variable {l : List (Option Tree.Arg)}

theorem passedCount_le : passedCount l ≤ l.length := by
  unfold passedCount
  exact (List.dropWhile_sublist _).length_le.trans_eq l.length_reverse

/-- Up to the count there are the parameters before the last one that is bound, and this one. -/
theorem passedCount_spec :
    (∀ i, passedCount l ≤ i → ∀ a, l[i]? ≠ some (some a)) ∧ ∀ i, passedCount l = i + 1 → ∃ a, l[i]? = some (some a) := by
  induction l using List.reverseRecOn with
  | nil => simp [passedCount]
  | append_singleton l x ih =>
    cases x with
    | none =>
      have hcount : passedCount (l ++ [none]) = passedCount l := by simp [passedCount]
      rw [hcount]
      refine ⟨fun i hi a ha => ?_, fun i hi => ?_⟩
      · rw [List.getElem?_append] at ha
        split at ha
        · exact ih.1 i hi a ha
        · rw [List.getElem?_singleton] at ha
          split at ha <;> cases ha
      · obtain ⟨a, ha⟩ := ih.2 i hi
        exact ⟨a, by rw [List.getElem?_append_left (List.getElem?_eq_some_iff.mp ha).1, ha]⟩
    | some x =>
      have hcount : passedCount (l ++ [some x]) = l.length + 1 := by simp [passedCount]
      rw [hcount]
      refine ⟨fun i hi a ha => ?_, fun i hi => ⟨x, ?_⟩⟩
      · have := (List.getElem?_eq_some_iff.mp ha).1
        simp at this
        omega
      · obtain rfl : l.length = i := by omega
        simp

end Count

/-! ## Children and default values -/

/-- The child of a call for a parameter: the analysis of its argument, or a null if it has none. -/
def childOf (v : Visit) (line : Nat) : Option Tree.Arg × Bool × Ty → Analysis Typed.Expr
  | (some a, ref, type) => passArgument v a ref type
  | (none, _) => return Typed.nullLiteral line

/-- A bit belongs to a parameter without an argument, among the parameters from a position on. -/
def LeftOut (required : Int) (i : Nat) (items : List (Option Tree.Arg × Bool × Ty)) (b : Nat) : Prop :=
  ∃ (j : Nat) (x : Option Tree.Arg × Bool × Ty), items[j]? = some x ∧ x.1 = none ∧ (b : Int) = 6 + (i + j - required)

section Children

variable {v : Visit} {line count i : Nat} {span : Span} {names : List String} {required : Int}
  {items : List (Option Tree.Arg × Bool × Ty)} {bits bits' : Arguments} {xs : List Typed.Expr} {pl : Place}
  {st st' : State}

theorem leftOut_cons {item : Option Tree.Arg × Bool × Ty} {b : Nat} :
    LeftOut required i (item :: items) b ↔
      item.1 = none ∧ (b : Int) = 6 + (i - required) ∨ LeftOut required (i + 1) items b := by
  constructor
  · rintro ⟨j, x, hx, hnone, hb⟩
    cases j with
    | zero =>
      obtain rfl : item = x := by simpa using hx
      exact .inl ⟨hnone, by omega⟩
    | succ j => exact .inr ⟨j, x, by simpa using hx, hnone, by omega⟩
  · rintro (⟨hnone, hb⟩ | ⟨j, x, hx, hnone, hb⟩)
    · exact ⟨0, item, rfl, hnone, by omega⟩
    · exact ⟨j + 1, x, by simpa using hx, hnone, by omega⟩

/-- From a parameter on, the parameters up to the last bound one have children, the ones without arguments have default
values, and the bits of these are set. -/
theorem accepts_fillParams (hafter : ∀ {j : Nat} {x}, items[j]? = some x → count ≤ i + j → x.1 = none)
    (hlast : ∀ {j : Nat} {x}, items[j]? = some x → count = i + j + 1 → x.1 ≠ none)
    (h : Accepts (fillParams v line span names required count i items bits) pl st (xs, bits') st') :
    (∀ {j : Nat} {x}, items[j]? = some x → x.1 = none → required ≤ i + j) ∧
      Accepts ((items.take (count - i)).mapM (childOf v line)) pl st xs st' ∧
      ∀ b, bits'.bit b = true ↔ bits.bit b = true ∨ LeftOut required i items b := by
  induction items generalizing i bits st xs with
  | nil =>
    rw [fillParams] at h
    obtain ⟨hr, rfl⟩ := accepts_pure.mp h
    obtain ⟨rfl, rfl⟩ := Prod.mk.inj hr
    simp [LeftOut]
  | cons item rest ih =>
    obtain ⟨place, ref, type⟩ := item
    have hafter' : ∀ {j : Nat} {x}, rest[j]? = some x → count ≤ i + 1 + j → x.1 = none :=
      fun hx hle => hafter (j := _ + 1) (by simpa using hx) (by omega)
    have hlast' : ∀ {j : Nat} {x}, rest[j]? = some x → count = i + 1 + j + 1 → x.1 ≠ none :=
      fun hx heq => hlast (j := _ + 1) (by simpa using hx) (by omega)
    -- what holds of the parameter at the position and of those after it holds of all
    have hcons : (place = none → required ≤ i) →
        (∀ {j : Nat} {x}, rest[j]? = some x → x.1 = none → required ≤ (i + 1 : Nat) + j) →
        ∀ {j : Nat} {x}, ((place, ref, type) :: rest)[j]? = some x → x.1 = none → required ≤ i + j := by
      intro hfirst hrest j x hx hnone
      cases j with
      | zero =>
        obtain rfl : (place, ref, type) = x := by simpa using hx
        simpa using hfirst hnone
      | succ j =>
        have := hrest (by simpa using hx) hnone
        omega
    cases place with
    | some a =>
      rw [fillParams] at h
      obtain ⟨x, st₁, hx, h⟩ := accepts_bind.mp h
      obtain ⟨⟨ys, bits₁⟩, st₂, hrest, h⟩ := accepts_bind.mp h
      obtain ⟨hr, rfl⟩ := accepts_pure.mp h
      obtain ⟨rfl, rfl⟩ := Prod.mk.inj hr
      obtain ⟨hrequired, hys, hbits⟩ := ih hafter' hlast' hrest
      have hlt : i < count := by
        by_contra hle
        cases hafter (j := 0) rfl (by omega)
      have htake : count - i = count - (i + 1) + 1 := by omega
      refine ⟨hcons (fun hnone => by cases hnone) hrequired, ?_, fun b => ?_⟩
      · rw [htake, List.take_succ_cons]
        exact accepts_mapM_cons.mpr ⟨x, st₁, ys, hx, hys, rfl⟩
      · rw [hbits, leftOut_cons]
        simp
    | none =>
      simp only [fillParams, accepts_guard] at h
      obtain ⟨hge, h⟩ := h
      obtain ⟨bits₁, st₁, hlift, h₁⟩ := accepts_bind.mp h
      obtain ⟨huse, rfl⟩ := accepts_lift.mp hlift
      obtain ⟨⟨ys, bits₂⟩, st₂, hrest, h₂⟩ := accepts_bind.mp h₁
      obtain ⟨hr, rfl⟩ := accepts_pure.mp h₂
      obtain ⟨rfl, rfl⟩ := Prod.mk.inj hr
      obtain ⟨hrequired, hys, hbits⟩ := ih hafter' hlast' hrest
      obtain ⟨hpos, -, hset⟩ := Arguments.bit_useDefault huse
      refine ⟨hcons (fun _ => by omega) hrequired, ?_, fun b => ?_⟩
      · by_cases hlt : i + 1 < count
        · have htake : count - i = count - (i + 1) + 1 := by omega
          rw [if_pos hlt, htake, List.take_succ_cons]
          exact accepts_mapM_cons.mpr ⟨_, st₁, ys, accepts_pure.mpr ⟨rfl, rfl⟩, hys, rfl⟩
        · -- the last bound parameter is before this one
          have hle : count ≤ i := by
            by_contra hgt
            exact hlast (j := 0) rfl (by omega) rfl
          have hzero : count - (i + 1) = 0 := by omega
          have hzero' : count - i = 0 := by omega
          rw [hzero] at hys
          rw [if_neg hlt, hzero']
          exact hys
      · have hbit : (b : Int) = 6 + (i - required) ↔ b = 6 + ((i : Int) - required).toNat := by omega
        rw [hbits, hset, leftOut_cons, Bool.or_eq_true, decide_eq_true_eq, or_assoc, hbit]
        simp

end Children

/-! ## Calls -/

section Calls

variable {v : Visit} {line : Nat} {sig : Signature} {names : List String} {c : Tree.Call} {pl : Place} {st st' : State}
  {xs : List Typed.Expr} {args : Arguments}

/-- What the children of a call and its packed arguments say about the arguments that are bound to the parameters. -/
structure Packs (v : Visit) (line : Nat) (sig : Signature) (names : List String) (c : Tree.Call) (pl : Place) (st : State)
    (xs : List Typed.Expr) (args : Arguments) (st' : State) : Prop where
  binds : Binds names sig.params.length c.args
  required : ∀ i : Nat, i < sig.required → (argumentOf names c.args i).isSome
  after : ∀ i, args.count ≤ i → argumentOf names c.args i = none
  last : ∀ i, args.count = i + 1 → (argumentOf names c.args i).isSome
  length : xs.length = args.count
  children : Accepts ((sig.params.take args.count).zipIdx.mapM fun (param, i) =>
    childOf v line (argumentOf names c.args i, param)) pl st xs st'
  leftOut : ∀ i : Nat, i < sig.defaults →
    args.defaultUsed i = (argumentOf names c.args (sig.required.toNat + i)).isNone
  clear : ∀ j : Nat, 6 + sig.defaults ≤ j → args.bit j = false

theorem length_of_accepts_mapM {ι β : Type} {f : ι → Analysis β} {l : List ι} {ys : List β}
    (h : Accepts (l.mapM f) pl st ys st') : ys.length = l.length := by
  induction l generalizing st ys with
  | nil =>
    obtain ⟨rfl, -⟩ := accepts_mapM_nil.mp h
    rfl
  | cons x l ih =>
    obtain ⟨y, st₁, rest, -, hrest, rfl⟩ := accepts_mapM_cons.mp h
    rw [List.length_cons, List.length_cons, ih hrest]

/-- A call that is accepted packs the arguments that are bound to its parameters. -/
theorem accepts_arguments (hnames : names.Nodup) (hlow : 0 ≤ sig.defaults) (hfew : sig.defaults ≤ Arguments.maxDefaults)
    (htrailing : sig.defaults ≤ sig.params.length) (h : Accepts (arguments v line sig names c) pl st (xs, args) st') :
    Packs v line sig names c pl st xs args st' := by
  rw [arguments] at h
  obtain ⟨places, st₁, hplaces, h₁⟩ := accepts_bind.mp h
  obtain ⟨rfl, hpasses⟩ := passes_of_accepts hnames (k := 0) (fun _ => rfl) hplaces
  simp only [accepts_guard] at h₁
  obtain ⟨hmax, h₂⟩ := h₁
  obtain ⟨⟨ys, bits⟩, st₂, hfill, h₃⟩ := accepts_bind.mp h₂
  obtain ⟨args', st₃, hlift, h₄⟩ := accepts_bind.mp h₃
  obtain ⟨hwith, rfl⟩ := accepts_lift.mp hlift
  obtain ⟨hr, rfl⟩ := accepts_pure.mp h₄
  obtain ⟨rfl, rfl⟩ := Prod.mk.inj hr
  obtain ⟨hbinds, hmap⟩ := hpasses.argumentOf
  obtain ⟨hnone, hsome⟩ := passedCount_spec (l := places)
  have hlength : places.length = sig.params.length := by simpa using hpasses.length
  have hle : passedCount places ≤ sig.params.length := hlength ▸ passedCount_le
  -- the place of a parameter
  have hplace : ∀ {i : Nat}, i < sig.params.length → places[i]? = some (argumentOf names c.args i) := by
    intro i hi
    rw [hmap, List.getElem?_map, List.getElem?_range hi, Option.map_some]
  have hitem : ∀ {i : Nat} {x : Option Tree.Arg × Bool × Ty}, (places.zip sig.params)[i]? = some x ↔
      x.1 = argumentOf names c.args i ∧ sig.params[i]? = some x.2 := by
    intro i x
    rw [List.getElem?_zip_eq_some]
    refine and_congr_left fun hx => ?_
    rw [hplace (List.getElem?_eq_some_iff.mp hx).1, Option.some.injEq, eq_comm]
  -- which parameters are bound up to the count
  have hafter : ∀ i, passedCount places ≤ i → argumentOf names c.args i = none := by
    intro i hi
    rw [Option.eq_none_iff_forall_ne_some]
    intro a ha
    obtain ⟨j, hj, hparam⟩ := exists_of_argumentOf ha
    obtain ⟨i', hi', hparam'⟩ := hbinds.bound hj
    obtain rfl : i' = i := Option.some.inj (hparam'.symm.trans hparam)
    exact hnone i' hi a (by rw [hplace hi', ha])
  have hlast : ∀ i, passedCount places = i + 1 → (argumentOf names c.args i).isSome := by
    intro i hi
    obtain ⟨a, ha⟩ := hsome i hi
    rw [hplace (by omega), Option.some.injEq] at ha
    rw [ha]
    rfl
  obtain ⟨hrequired, hchildren, hbits⟩ := accepts_fillParams
    (fun {j x} hx hj => (hitem.mp hx).1.trans (hafter j (by omega)))
    (fun {j x} hx hj => by
      rw [(hitem.mp hx).1]
      exact Option.isSome_iff_ne_none.mp (hlast j (by omega))) hfill
  obtain ⟨hcount, hkeep⟩ := Arguments.bit_withCount hwith
  obtain hcount : args.count = passedCount places := by omega
  -- the bits of the default values
  have hleft : ∀ j : Nat, args.bit (6 + j) = true ↔
      ∃ i : Nat, i < sig.params.length ∧ argumentOf names c.args i = none ∧ (j : Int) = i - sig.required := by
    intro j
    rw [hkeep _ (by omega), hbits, Arguments.bit_empty]
    simp only [Bool.false_eq_true, false_or]
    constructor
    · rintro ⟨i, x, hx, hx', hj⟩
      obtain ⟨hx, hparam⟩ := hitem.mp hx
      exact ⟨i, (List.getElem?_eq_some_iff.mp hparam).1, hx ▸ hx', by omega⟩
    · rintro ⟨i, hi, hi', hj⟩
      exact ⟨i, (none, sig.params[i]), hitem.mpr ⟨hi'.symm, List.getElem?_eq_getElem hi⟩, rfl, by omega⟩
  have hreq : sig.required = sig.params.length - sig.defaults := rfl
  refine ⟨hbinds, fun i hi => ?_, fun i hi => hafter i (hcount ▸ hi), fun i hi => hlast i (hcount ▸ hi), ?_, ?_, ?_, ?_⟩
  · have hlt : i < sig.params.length := by omega
    rw [Option.isSome_iff_ne_none]
    intro hi'
    have := hrequired (x := (none, sig.params[i])) (hitem.mpr ⟨hi'.symm, List.getElem?_eq_getElem hlt⟩) rfl
    omega
  · rw [length_of_accepts_mapM hchildren, hcount, List.length_take, List.length_zip]
    omega
  · have hitems : (places.zip sig.params).take (passedCount places - 0) =
        (sig.params.take args.count).zipIdx.map fun (param, i) => (argumentOf names c.args i, param) := by
      refine List.ext_getElem? fun i => ?_
      rw [Nat.sub_zero, hcount, List.getElem?_map, List.getElem?_zipIdx, List.getElem?_take, List.getElem?_take]
      by_cases hi : i < passedCount places
      · have hlt : i < sig.params.length := by omega
        rw [if_pos hi, if_pos hi, List.getElem?_eq_getElem hlt]
        exact hitem.mpr ⟨by simp, List.getElem?_eq_getElem hlt⟩
      · rw [if_neg hi, if_neg hi]
        rfl
    rwa [hitems, List.mapM_map] at hchildren
  · intro i hi
    have hlt : i < Arguments.maxDefaults := by omega
    rw [Arguments.defaultUsed_eq hlt, Bool.eq_iff_iff, hleft, Option.isNone_iff_eq_none]
    constructor
    · rintro ⟨j, -, hj, hij⟩
      obtain rfl : j = sig.required.toNat + i := by omega
      exact hj
    · intro hnone
      exact ⟨sig.required.toNat + i, by omega, hnone, by omega⟩
  · intro j hj
    rw [Bool.eq_false_iff]
    intro hbit
    obtain ⟨k, rfl⟩ : ∃ k, j = 6 + k := ⟨j - 6, by omega⟩
    obtain ⟨i, hi, -, hki⟩ := (hleft k).mp hbit
    omega

end Calls

end Weft.Analysis
