/-!
# Sharing out work

A stage of a build runs on parts of the list of files that differ in length by at most one, the longer
parts first. A failure ends the part it happens in; the other parts are completed.
-/

namespace Weft.Build

/-- The ranges, by start and end, of `k` parts that follow each other from a start on. The first `rest` of
them have one more than `size` members. -/
def rangesFrom (start size rest : Nat) : Nat → List (Nat × Nat)
  | 0 => []
  | k + 1 =>
    let stop := start + size + min rest 1
    (start, stop) :: rangesFrom stop size (rest - 1) k

/-- The ranges of the parts of `n` members for a number of workers. No part is empty. -/
def partition (n workers : Nat) : List (Nat × Nat) :=
  let k := min n workers
  rangesFrom 0 (n / k) (n % k) k

@[simp]
theorem length_rangesFrom (start size rest k : Nat) : (rangesFrom start size rest k).length = k := by
  induction k generalizing start rest with
  | zero => rfl
  | succ k ih => rw [rangesFrom, List.length_cons, ih]

/-- There is one part for each worker, or one for each member if there are fewer. -/
@[simp]
theorem length_partition (n workers : Nat) : (partition n workers).length = min n workers :=
  length_rangesFrom ..

/-- The members of a list in a range. -/
def slice {α : Type} (xs : List α) (r : Nat × Nat) : List α := (xs.drop r.1).take (r.2 - r.1)

/-- Run a step on every member of a list, part by part, and give the first failure, if there is one. -/
def stage {m : Type → Type} [Monad m] {ε α β : Type} (workers : Nat) (step : α → m (Except ε β))
    (xs : List α) : m (Except ε (List β)) := do
  let parts ← (partition xs.length workers).mapM fun r =>
    ((slice xs r).mapM fun x => ExceptT.mk (step x) : ExceptT ε m (List β)).run
  return (parts.mapM id).map List.flatten

/-- The number of workers for some files, where none or fewer means one for each file. -/
def workersFor (files : Nat) (wanted : Int) : Nat :=
  if wanted ≤ 0 then max files 1 else max (min wanted.toNat files) 1

end Weft.Build
