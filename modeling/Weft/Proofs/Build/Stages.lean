import Mathlib.Data.List.Forall2
import Weft.Build.Partition

/-!
# The stages of a build

The parts of a list are all of it, in order, and none of them is longer than another by more than one. A stage calls its step
once on each member of its list, unless the step fails on one before it in its part. A stage whose steps do not fail gives what
each of its steps gives.
-/

namespace Weft.Build

variable {α β ε σ : Type}

/-! ## Ranges -/

/-- Ranges that follow each other from a start to an end. None of them is empty. -/
inductive Spans : Nat → Nat → List (Nat × Nat) → Prop
  | nil {n : Nat} : Spans n n []
  | cons {start stop n : Nat} {rs : List (Nat × Nat)} (first : start < stop) (rest : Spans stop n rs) :
    Spans start n ((start, stop) :: rs)

section Ranges

variable {start size rest k n workers : Nat} {rs : List (Nat × Nat)} {xs : List α}

theorem spans_rangesFrom (hrest : rest ≤ k) (hsize : 0 < size) :
    Spans start (start + size * k + rest) (rangesFrom start size rest k) := by
  induction k generalizing start rest with
  | zero =>
    obtain rfl := Nat.le_zero.mp hrest
    exact .nil
  | succ k ih =>
    have hend : start + size * (k + 1) + rest = start + size + min rest 1 + size * k + (rest - 1) := by
      rw [Nat.mul_succ]
      omega
    rw [rangesFrom, hend]
    exact .cons (by omega) (ih (by omega))

/-- The ranges with one member more come first. -/
theorem lengths_rangesFrom (hrest : rest ≤ k) : (rangesFrom start size rest k).map (fun r => r.2 - r.1) =
    List.replicate rest (size + 1) ++ List.replicate (k - rest) size := by
  induction k generalizing start rest with
  | zero =>
    obtain rfl := Nat.le_zero.mp hrest
    rfl
  | succ k ih =>
    have hlength : start + size + min rest 1 - start = size + min rest 1 := by omega
    rw [rangesFrom, List.map_cons, ih (by omega), hlength]
    cases rest with
    | zero => simp [List.replicate_succ]
    | succ rest => simp [List.replicate_succ]

theorem spans_partition (h : 0 < workers) : Spans 0 n (partition n workers) := by
  unfold partition
  rcases Nat.eq_zero_or_pos n with rfl | hn
  · rw [Nat.zero_min]
    exact .nil
  · have hk : 0 < min n workers := by omega
    have hspans : Spans 0 (0 + n / min n workers * min n workers + n % min n workers) _ :=
      spans_rangesFrom (Nat.le_of_lt (Nat.mod_lt n hk)) (Nat.div_pos (Nat.min_le_left ..) hk)
    rwa [Nat.zero_add, Nat.div_add_mod'] at hspans

/-- No range is longer than one before it, and none is shorter by more than one. -/
theorem lengths_partition (n workers : Nat) :
    ((partition n workers).map fun r => r.2 - r.1).Pairwise fun a b => b ≤ a ∧ a ≤ b + 1 := by
  unfold partition
  rcases Nat.eq_zero_or_pos (min n workers) with hk | hk
  · rw [hk]
    exact .nil
  · rw [lengths_rangesFrom (Nat.le_of_lt (Nat.mod_lt n hk)), List.pairwise_append]
    refine ⟨List.pairwise_replicate.mpr (.inr (by omega)), List.pairwise_replicate.mpr (.inr (by omega)), ?_⟩
    intro a ha b hb
    obtain rfl := List.eq_of_mem_replicate ha
    obtain rfl := List.eq_of_mem_replicate hb
    omega

/-- The parts from a start on are all that follows it. -/
theorem flatten_slices (h : Spans start n rs) (hn : xs.length = n) : (rs.map (slice xs)).flatten = xs.drop start := by
  induction h with
  | nil => rw [← hn, List.drop_length]; rfl
  | @cons start stop n rs first _ ih =>
    have hdrop : xs.drop stop = (xs.drop start).drop (stop - start) := by
      rw [List.drop_drop, Nat.add_sub_of_le (Nat.le_of_lt first)]
    rw [List.map_cons, List.flatten_cons, ih hn, hdrop]
    exact List.take_append_drop ..

/-- The parts of a list are all of it. -/
theorem flatten_partition (xs : List α) (h : 0 < workers) :
    ((partition xs.length workers).map (slice xs)).flatten = xs := by
  rw [flatten_slices (spans_partition h) rfl, List.drop_zero]

end Ranges

/-! ## Steps that keep something -/

theorem exists_of_forall₂ {P : α → β → Prop} {xs : List α} {ys : List β} {y : β} (h : List.Forall₂ P xs ys) (hy : y ∈ ys) :
    ∃ x ∈ xs, P x y := by
  induction h with
  | nil => cases hy
  | cons hP _ ih =>
    rcases List.mem_cons.mp hy with rfl | hy
    · exact ⟨_, List.mem_cons_self, hP⟩
    · obtain ⟨x, hx, hP⟩ := ih hy
      exact ⟨x, List.mem_cons_of_mem _ hx, hP⟩

theorem eq_map_of_forall₂ {γ : Type} {P : α → β → Prop} {f : α → γ} {g : β → γ} {xs : List α} {ys : List β}
    (h : List.Forall₂ P xs ys) (hP : ∀ x y, P x y → g y = f x) : ys.map g = xs.map f := by
  induction h with
  | nil => rfl
  | cons hxy _ ih => rw [List.map_cons, List.map_cons, hP _ _ hxy, ih]

section Stage

variable {R : σ → Prop} {P : α → β → Prop} {step : α → StateM σ (Except ε β)} {xs : List α} {s : σ}

private theorem part_holds (h : ∀ x ∈ xs, ∀ s, R s → ∃ b, (step x s).1 = .ok b ∧ P x b ∧ R (step x s).2) (hs : R s) :
    ∃ bs, ((xs.mapM fun x => ExceptT.mk (step x) : ExceptT ε (StateM σ) (List β)).run s).1 = .ok bs ∧
      List.Forall₂ P xs bs ∧ R ((xs.mapM fun x => ExceptT.mk (step x) : ExceptT ε (StateM σ) (List β)).run s).2 := by
  induction xs generalizing s with
  | nil => exact ⟨[], rfl, .nil, hs⟩
  | cons x xs ih =>
    rw [List.forall_mem_cons] at h
    obtain ⟨b, hb, hP, hR⟩ := h.1 s hs
    obtain ⟨bs, hbs, hall, hR'⟩ := ih h.2 hR
    have hrun : ((x :: xs).mapM fun x => ExceptT.mk (step x) : ExceptT ε (StateM σ) (List β)).run s =
        ((.ok (b :: bs)), ((xs.mapM fun x => ExceptT.mk (step x) : ExceptT ε (StateM σ) (List β)).run (step x s).2).2) := by
      rw [List.mapM_cons]
      change (ExceptT.bindCont (m := StateM σ) _ (step x s).1) (step x s).2 = _
      rw [hb]
      change (ExceptT.bindCont (m := StateM σ) _
        ((xs.mapM fun x => ExceptT.mk (step x) : ExceptT ε (StateM σ) (List β)).run (step x s).2).1) _ = _
      rw [hbs]
      rfl
    rw [hrun]
    exact ⟨b :: bs, rfl, .cons hP hall, hR'⟩

private theorem parts_hold {ranges : List (Nat × Nat)}
    (h : ∀ r ∈ ranges, ∀ x ∈ slice xs r, ∀ s, R s → ∃ b, (step x s).1 = .ok b ∧ P x b ∧ R (step x s).2) (hs : R s) :
    ∃ bss : List (List β), (ranges.mapM (fun r =>
        ((slice xs r).mapM fun x => ExceptT.mk (step x) : ExceptT ε (StateM σ) (List β)).run) s).1 = bss.map .ok ∧
      List.Forall₂ P (ranges.map (slice xs)).flatten bss.flatten ∧ R (ranges.mapM (fun r =>
        ((slice xs r).mapM fun x => ExceptT.mk (step x) : ExceptT ε (StateM σ) (List β)).run) s).2 := by
  induction ranges generalizing s with
  | nil => exact ⟨[], rfl, .nil, hs⟩
  | cons r ranges ih =>
    rw [List.forall_mem_cons] at h
    obtain ⟨bs, hbs, hall, hR⟩ := part_holds h.1 hs
    obtain ⟨bss, hbss, halls, hR'⟩ := ih h.2 hR
    refine ⟨bs :: bss, ?_, ?_, ?_⟩
    · rw [List.mapM_cons, List.map_cons, ← hbs, ← hbss]
      rfl
    · exact List.rel_append hall halls
    · rw [List.mapM_cons]
      exact hR'

private theorem mapM_ok (bss : List (List β)) : (bss.map Except.ok).mapM id = (.ok bss : Except ε (List (List β))) := by
  induction bss with
  | nil => rfl
  | cons bs bss ih =>
    rw [List.map_cons, List.mapM_cons, ih]
    rfl

/-- A stage keeps what its steps keep, and has a result for each member of its list if no step fails. -/
theorem stage_holds (R : σ → Prop) (P : α → β → Prop) (step : α → StateM σ (Except ε β)) {workers : Nat} (hw : 0 < workers)
    (h : ∀ x ∈ xs, ∀ s, R s → ∃ b, (step x s).1 = .ok b ∧ P x b ∧ R (step x s).2) (hs : R s) :
    ∃ bs s', stage workers step xs s = (.ok bs, s') ∧ List.Forall₂ P xs bs ∧ R s' := by
  have hslice : ∀ r ∈ partition xs.length workers, ∀ x ∈ slice xs r, ∀ s, R s →
      ∃ b, (step x s).1 = .ok b ∧ P x b ∧ R (step x s).2 :=
    fun r _ x hx => h x (List.mem_of_mem_drop (List.mem_of_mem_take hx))
  obtain ⟨bss, hbss, hall, hR⟩ := parts_hold hslice hs
  refine ⟨bss.flatten, (stage workers step xs s).2, Prod.ext ?_ rfl, flatten_partition xs hw ▸ hall, hR⟩
  have hrun : (stage workers step xs s).1 = (((partition xs.length workers).mapM (fun r =>
      ((slice xs r).mapM fun x => ExceptT.mk (step x) : ExceptT ε (StateM σ) (List β)).run) s).1.mapM id).map List.flatten := rfl
  rw [hrun, hbss, mapM_ok]
  rfl

end Stage

/-! ## Steps that do not fail -/

/-- Steps on the members of a list, one after the other, none of which fails. -/
inductive Steps (step : α → StateM σ (Except ε β)) : List α → σ → List β → σ → Prop
  | nil {s : σ} : Steps step [] s [] s
  | cons {x : α} {xs : List α} {b : β} {bs : List β} {s s₁ s' : σ} (head : step x s = (.ok b, s₁))
      (tail : Steps step xs s₁ bs s') : Steps step (x :: xs) s (b :: bs) s'

section Steps

variable {step : α → StateM σ (Except ε β)} {xs ys : List α} {bs cs : List β} {s s' : σ}

theorem steps_nil_iff : Steps step [] s bs s' ↔ bs = [] ∧ s' = s := by
  constructor
  · rintro ⟨⟩
    exact ⟨rfl, rfl⟩
  · rintro ⟨rfl, rfl⟩
    exact .nil

theorem steps_cons_iff {x : α} : Steps step (x :: xs) s bs s' ↔
    ∃ b s₁ cs, step x s = (.ok b, s₁) ∧ Steps step xs s₁ cs s' ∧ bs = b :: cs := by
  constructor
  · rintro ⟨⟩
    exact ⟨_, _, _, ‹_›, ‹_›, rfl⟩
  · rintro ⟨b, s₁, cs, head, tail, rfl⟩
    exact .cons head tail

theorem steps_append_iff : Steps step (xs ++ ys) s bs s' ↔
    ∃ as s₁ cs, Steps step xs s as s₁ ∧ Steps step ys s₁ cs s' ∧ bs = as ++ cs := by
  induction xs generalizing s bs with
  | nil => simp [steps_nil_iff]
  | cons x xs ih =>
    simp only [List.cons_append, steps_cons_iff, ih]
    constructor
    · rintro ⟨b, s₁, _, hb, ⟨as, s₂, cs, has, hcs, rfl⟩, rfl⟩
      exact ⟨b :: as, s₂, cs, ⟨b, s₁, as, hb, has, rfl⟩, hcs, rfl⟩
    · rintro ⟨_, s₂, cs, ⟨b, s₁, as, hb, has, rfl⟩, hcs, rfl⟩
      exact ⟨b, s₁, as ++ cs, hb, ⟨as, s₂, cs, has, hcs, rfl⟩, rfl⟩

/-- The steps on one part, the first of which that fails ends it. -/
private def partly (step : α → StateM σ (Except ε β)) (xs : List α) : StateM σ (Except ε (List β)) :=
  (xs.mapM fun x => ExceptT.mk (step x) : ExceptT ε (StateM σ) (List β)).run

private theorem mapM_cons_apply {γ δ τ : Type} (f : γ → StateM τ δ) (x : γ) (xs : List γ) (t : τ) :
    (x :: xs).mapM f t = ((f x t).1 :: (xs.mapM f (f x t).2).1, (xs.mapM f (f x t).2).2) := by
  rw [List.mapM_cons]
  rfl

private theorem partly_cons_error {x : α} {e : ε} {s₁ : σ} (h : step x s = (.error e, s₁)) :
    partly step (x :: xs) s = (.error e, s₁) := by
  rw [partly, List.mapM_cons]
  change (ExceptT.bindCont (m := StateM σ) _ (step x s).1) (step x s).2 = _
  rw [h]
  rfl

private theorem partly_cons_ok {x : α} {b : β} {s₁ : σ} (h : step x s = (.ok b, s₁)) :
    partly step (x :: xs) s = ((partly step xs s₁).1.map (b :: ·), (partly step xs s₁).2) := by
  rw [partly, List.mapM_cons]
  change (ExceptT.bindCont (m := StateM σ) _ (step x s).1) (step x s).2 = _
  rw [h]
  change (ExceptT.bindCont (m := StateM σ) _ (partly step xs s₁).1) (partly step xs s₁).2 = _
  rcases partly step xs s₁ with ⟨e | cs, s₂⟩ <;> rfl

private theorem map_eq_ok_iff {γ : Type} {f : α → γ} {x : Except ε α} {c : γ} : x.map f = .ok c ↔ ∃ a, x = .ok a ∧ c = f a := by
  cases x <;> simp [Except.map, eq_comm]

private theorem partly_ok_iff : partly step xs s = (.ok bs, s') ↔ Steps step xs s bs s' := by
  induction xs generalizing s bs with
  | nil =>
    rw [steps_nil_iff]
    change ((.ok [], s) : Except ε (List β) × σ) = (.ok bs, s') ↔ _
    simp [eq_comm]
  | cons x xs ih =>
    rw [steps_cons_iff]
    simp only [← ih]
    rcases hstep : step x s with ⟨e | b, s₁⟩
    · rw [partly_cons_error hstep]
      constructor
      · rintro ⟨⟩
      · rintro ⟨_, _, _, ⟨⟩, -⟩
    · rw [partly_cons_ok hstep, Prod.mk.injEq, map_eq_ok_iff]
      constructor
      · rintro ⟨⟨cs, hcs, rfl⟩, hs'⟩
        exact ⟨b, s₁, cs, rfl, Prod.ext hcs hs', rfl⟩
      · rintro ⟨_, _, cs, ⟨⟩, hrest, rfl⟩
        rw [hrest]
        exact ⟨⟨cs, rfl, rfl⟩, rfl⟩

private theorem partly_keeps {R : σ → Prop} (h : ∀ x ∈ xs, ∀ s, R s → R (step x s).2) (hs : R s) :
    R (partly step xs s).2 := by
  induction xs generalizing s with
  | nil => exact hs
  | cons x xs ih =>
    rw [List.forall_mem_cons] at h
    have hfirst := h.1 s hs
    rcases hstep : step x s with ⟨e | b, s₁⟩
    · rw [hstep] at hfirst
      rw [partly_cons_error hstep]
      exact hfirst
    · rw [hstep] at hfirst
      rw [partly_cons_ok hstep]
      exact ih h.2 hfirst

private theorem stage_apply {workers : Nat} : stage workers step xs s =
    ((((partition xs.length workers).mapM (fun r => partly step (slice xs r)) s).1.mapM id).map List.flatten,
      ((partition xs.length workers).mapM (fun r => partly step (slice xs r)) s).2) := rfl

private theorem parts_ok_iff {ranges : List (Nat × Nat)} :
    (((ranges.mapM (fun r => partly step (slice xs r)) s).1.mapM id).map List.flatten = .ok bs ∧
      (ranges.mapM (fun r => partly step (slice xs r)) s).2 = s') ↔ Steps step (ranges.map (slice xs)).flatten s bs s' := by
  induction ranges generalizing s bs with
  | nil =>
    rw [List.map_nil, List.flatten_nil, steps_nil_iff]
    change (Except.ok [] : Except ε _) = _ ∧ s = s' ↔ _
    simp [eq_comm]
  | cons r ranges ih =>
    rw [mapM_cons_apply, List.map_cons, List.flatten_cons, steps_append_iff, map_eq_ok_iff]
    simp only [← ih, ← partly_ok_iff, map_eq_ok_iff]
    rcases partly step (slice xs r) s with ⟨e | as, s₁⟩
    · constructor
      · rintro ⟨⟨_, h, -⟩, -⟩
        cases h
      · rintro ⟨_, _, _, h, -⟩
        cases h
    · have hparts : ∀ bss, ((.ok as :: (ranges.mapM (fun r => partly step (slice xs r)) s₁).1).mapM id :
          Except ε (List (List β))) = .ok bss ↔
            ∃ css, (ranges.mapM (fun r => partly step (slice xs r)) s₁).1.mapM id = .ok css ∧ bss = as :: css := by
        intro bss
        rw [List.mapM_cons, ← map_eq_ok_iff]
        rfl
      simp only [hparts]
      constructor
      · rintro ⟨⟨_, ⟨css, hcss, rfl⟩, rfl⟩, hs'⟩
        exact ⟨as, s₁, css.flatten, rfl, ⟨⟨css, hcss, rfl⟩, hs'⟩, rfl⟩
      · rintro ⟨_, _, _, ⟨⟩, ⟨⟨css, hcss, rfl⟩, hs'⟩, rfl⟩
        exact ⟨⟨as :: css, ⟨css, hcss, rfl⟩, rfl⟩, hs'⟩

/-- A stage does not fail exactly if its steps, one after the other, do not, into however many parts it is split. -/
theorem stage_ok_iff {workers : Nat} (hw : 0 < workers) :
    stage workers step xs s = (.ok bs, s') ↔ Steps step xs s bs s' := by
  rw [stage_apply, Prod.mk.injEq, parts_ok_iff, flatten_partition xs hw]

/-- A stage keeps what each of its steps keeps, whether they fail or not. -/
theorem stage_keeps {R : σ → Prop} {workers : Nat} (h : ∀ x ∈ xs, ∀ s, R s → R (step x s).2) (hs : R s) :
    R (stage workers step xs s).2 := by
  rw [stage_apply]
  generalize partition xs.length workers = ranges
  induction ranges generalizing s with
  | nil => exact hs
  | cons r ranges ih =>
    have hpart : ∀ x ∈ slice xs r, ∀ s, R s → R (step x s).2 :=
      fun x hx => h x (List.mem_of_mem_drop (List.mem_of_mem_take hx))
    rw [List.mapM_cons]
    exact ih (partly_keeps hpart hs)

/-! ## Calls of steps -/

/-- A step that notes what it is called on. -/
def noted (step : α → StateM σ (Except ε β)) (x : α) : StateM (List α × σ) (Except ε β) := fun (seen, s) =>
  ((step x s).1, seen ++ [x], (step x s).2)

/-- What a step is called on of a part: all of it, or all up to a member on which it fails. -/
inductive Called (step : α → StateM σ (Except ε β)) (part : List α) : List α → Prop
  | all : Called step part part
  | failed {before after : List α} {x : α} {s s' : σ} {e : ε} (hpart : part = before ++ x :: after)
    (h : step x s = (.error e, s')) : Called step part (before ++ [x])

theorem Called.cons (h : Called step xs ys) (x : α) : Called step (x :: xs) (x :: ys) := by
  cases h with
  | all => exact .all
  | @failed before after y s s' e hpart hfail =>
    have hlonger : x :: xs = x :: before ++ y :: after := by rw [hpart, List.cons_append]
    have hcalled : Called step (x :: xs) (x :: before ++ [y]) := .failed hlonger hfail
    exact hcalled

private theorem partly_noted (step : α → StateM σ (Except ε β)) (xs seen : List α) (s : σ) : ∃ run, Called step xs run ∧
    partly (noted step) xs (seen, s) = ((partly step xs s).1, seen ++ run, (partly step xs s).2) := by
  induction xs generalizing seen s with
  | nil => exact ⟨[], .all, by rw [List.append_nil]; rfl⟩
  | cons x xs ih =>
    rcases hstep : step x s with ⟨e | b, s₁⟩
    · have hnoted : noted step x (seen, s) = (.error e, seen ++ [x], s₁) := by rw [noted, hstep]
      refine ⟨[] ++ [x], .failed rfl hstep, ?_⟩
      rw [partly_cons_error hnoted, partly_cons_error hstep]
      rfl
    · have hnoted : noted step x (seen, s) = (.ok b, seen ++ [x], s₁) := by rw [noted, hstep]
      obtain ⟨run, hrun, hrest⟩ := ih (seen ++ [x]) s₁
      refine ⟨x :: run, hrun.cons x, ?_⟩
      rw [partly_cons_ok hnoted, partly_cons_ok hstep, hrest, List.append_assoc]
      rfl

private theorem parts_noted (step : α → StateM σ (Except ε β)) (parts : List (List α)) (seen : List α) (s : σ) :
    ∃ runs, List.Forall₂ (Called step) parts runs ∧ parts.mapM (partly (noted step)) (seen, s) =
      ((parts.mapM (partly step) s).1, seen ++ runs.flatten, (parts.mapM (partly step) s).2) := by
  induction parts generalizing seen s with
  | nil => exact ⟨[], .nil, by rw [List.flatten_nil, List.append_nil]; rfl⟩
  | cons part parts ih =>
    obtain ⟨run, hrun, hpart⟩ := partly_noted step part seen s
    obtain ⟨runs, hruns, hparts⟩ := ih (seen ++ run) (partly step part s).2
    refine ⟨run :: runs, .cons hrun hruns, ?_⟩
    rw [mapM_cons_apply, mapM_cons_apply, hpart, hparts, List.flatten_cons, List.append_assoc]

/-- When no step fails, the step has been called on each member of the list. -/
theorem steps_noted {seen seen' : List α} (h : Steps (noted step) xs (seen, s) bs (seen', s')) : seen' = seen ++ xs := by
  induction xs generalizing seen s bs with
  | nil =>
    obtain ⟨-, h⟩ := steps_nil_iff.mp h
    rw [(Prod.mk.inj h).1, List.append_nil]
  | cons x xs ih =>
    obtain ⟨b, ⟨called, s₁⟩, cs, hstep, hrest, -⟩ := steps_cons_iff.mp h
    obtain rfl : seen ++ [x] = called := congrArg (fun r => r.2.1) hstep
    rw [ih hrest, List.append_assoc]
    rfl

end Steps

/-! ## Shared work -/

/-- **Work is shared out exactly.** There are as many ranges as workers, or as members if there are fewer of those; none is empty,
each starts where the one before it ended, from the first member to the last, and the longer ones, by one member, come first. So
a stage calls its step once on each member, part by part, if the step does not fail; a failure keeps it from those behind in the
same part and from no others. -/
theorem partition_exact (n : Nat) {workers : Nat} (h : 0 < workers) :
    (partition n workers).length = min n workers ∧ Spans 0 n (partition n workers) ∧
    ((partition n workers).map fun r => r.2 - r.1).Pairwise (fun a b => b ≤ a ∧ a ≤ b + 1) ∧
    ∀ {α β ε σ : Type} (step : α → StateM σ (Except ε β)) (xs : List α) (s : σ), xs.length = n →
      ((partition n workers).map (slice xs)).flatten = xs ∧
      ∃ calls, List.Forall₂ (Called step) ((partition n workers).map (slice xs)) calls ∧
        stage workers (noted step) xs ([], s) =
          ((stage workers step xs s).1, calls.flatten, (stage workers step xs s).2) ∧
        ((∀ x ∈ xs, ∀ s, ∃ b, (step x s).1 = .ok b) → calls.flatten = xs) ∧
        (∀ bs, (stage workers step xs s).1 = .ok bs → calls.flatten = xs) := by
  refine ⟨length_partition n workers, spans_partition h, lengths_partition n workers, ?_⟩
  rintro α β ε σ step xs s rfl
  obtain ⟨calls, hcalls, hrun⟩ := parts_noted step ((partition xs.length workers).map (slice xs)) [] s
  have hstage : stage workers (noted step) xs ([], s) =
      ((stage workers step xs s).1, calls.flatten, (stage workers step xs s).2) := by
    rw [List.mapM_map, List.mapM_map, List.nil_append] at hrun
    rw [stage_apply, stage_apply]
    exact congrArg (fun r => ((r.1.mapM id).map List.flatten, r.2)) hrun
  have hall : ∀ bs, (stage workers step xs s).1 = .ok bs → calls.flatten = xs := by
    intro bs hbs
    rw [hbs] at hstage
    exact steps_noted ((stage_ok_iff h).mp hstage)
  refine ⟨flatten_partition xs h, calls, hcalls, hstage, fun hok => ?_, hall⟩
  obtain ⟨bs, s', hrun, -⟩ := stage_holds (s := s) (fun _ => True) (fun _ _ => True) step h
    (fun x hx t _ => (hok x hx t).imp fun b hb => ⟨hb, trivial, trivial⟩) trivial
  exact hall bs (congrArg Prod.fst hrun)

/-- A step that fails on one number. -/
def refusing (k x : Nat) : StateM Nat (Except String Nat) := fun s => (if x = k then .error "refused" else .ok x, s + x)

/-- Three workers share seven numbers. A failure on the second keeps the step from the third only. -/
theorem partition_seven_exact : 0 < 3 ∧ Spans 0 7 [(0, 3), (3, 5), (5, 7)] ∧
    ∃ calls, List.Forall₂ (Called (refusing 2)) [[1, 2, 3], [4, 5], [6, 7]] calls ∧
      stage 3 (noted (refusing 2)) [1, 2, 3, 4, 5, 6, 7] ([], 0) = (.error "refused", calls.flatten, 25) ∧
      calls.flatten = [1, 2, 4, 5, 6, 7] := by
  obtain ⟨-, hspans, -, hstage⟩ := partition_exact 7 (show 0 < 3 by decide)
  obtain ⟨-, calls, hcalls, hrun, -⟩ := hstage (refusing 2) [1, 2, 3, 4, 5, 6, 7] 0 rfl
  have hlist : [1, 2, 4, 5, 6, 7] = calls.flatten := congrArg (fun r => r.2.1) hrun
  exact ⟨by decide, hspans, calls, hcalls, hrun, hlist.symm⟩

end Weft.Build
