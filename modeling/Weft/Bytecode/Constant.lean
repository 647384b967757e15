import Weft.Bytecode.Assembly
import Weft.Number.Shortest
import Weft.Text.Quoted

/-!
# Constants

The constants of a module, each stored once. Every addition is a use; a constant that is not used any more
is dropped when the pool is compacted, which changes the positions of those after it.
-/

namespace Weft.Bytecode

/-- A constant. `kind` is 0 for an integer, 1 for a float, 2 for a string, 3 for a truth value, 4 for null,
5 for a function, 6 for a type and 7 for a module; of functions and types `module` is where they are
declared. Floats are told apart by their bits. -/
structure Constant where
  kind : Nat
  int : Int
  float : Number.Binary64
  str : String
  module : String
deriving DecidableEq, Repr, Inhabited

namespace Constant

/-- The names of the kinds. -/
def kindNames : List String := ["int", "float", "string", "bool", "null", "func", "type", "module"]

/-- The name of a kind. -/
def kindName (k : Nat) : String := kindNames[k]?.getD s!"ConstKind({k})"

/-- A constant of a kind with nothing in it. -/
def bare (kind : Nat) : Constant := { kind, int := 0, float := ⟨0⟩, str := "", module := "" }

/-- An integer. -/
def ofInt (v : Int) : Constant := { bare 0 with int := v }

/-- A floating point number. -/
def ofFloat (v : Number.Binary64) : Constant := { bare 1 with float := v }

/-- A text. -/
def ofString (s : String) : Constant := { bare 2 with str := s }

/-- A truth value. -/
def ofBool (b : Bool) : Constant := { bare 3 with int := if b then 1 else 0 }

/-- The null value. -/
def null : Constant := bare 4

/-- A function by module and qualified name. -/
def func (module name : String) : Constant := { bare 5 with str := name, module }

/-- A type by module and qualified name. Types that no module declares have none. -/
def type (module name : String) : Constant := { bare 6 with str := name, module }

/-- A module by name. -/
def ofModule (name : String) : Constant := { bare 7 with str := name }

/-- The text of a constant. -/
def text (c : Constant) : String :=
  match c.kind with
  | 0 => toString c.int
  | 1 => c.float.text .listing
  | 2 => Text.quote c.str
  | 3 => if c.int ≠ 0 then "true" else "false"
  | 4 => "null"
  | k =>
    let name := if (k = 5 ∨ k = 6) ∧ c.module ≠ "" then c.module ++ ":" ++ c.str else c.str
    kindName k ++ " " ++ name

end Constant

/-- Constants in order, each with the number of its uses, and an index of them. -/
structure Pool where
  entries : Array (Constant × Nat)
  index : List (Constant × Nat)
  /-- The index has the constants of the entries, each with its position, and no others. -/
  indexed : ∀ c i, index.lookup c = some i ↔ entries[i]?.map Prod.fst = some c

namespace Pool

/-- A pool without constants. -/
def empty : Pool := ⟨#[], [], by simp⟩

instance : Inhabited Pool := ⟨empty⟩

/-- The constants in order. -/
def constants (p : Pool) : List Constant := p.entries.toList.map Prod.fst

theorem getElem?_constants (p : Pool) (i : Nat) : p.constants[i]? = p.entries[i]?.map Prod.fst := by
  simp [constants]

theorem lookup_index {p : Pool} {c : Constant} {i : Nat} : p.index.lookup c = some i ↔ p.constants[i]? = some c := by
  rw [p.indexed, getElem?_constants]

/-- No constant is in a pool twice. -/
theorem nodup_constants (p : Pool) : p.constants.Nodup := by
  refine List.pairwise_iff_getElem.mpr fun i j hi hj hlt heq => ?_
  have hfirst := lookup_index.mpr (List.getElem?_eq_getElem hi)
  have hsecond := lookup_index.mpr (List.getElem?_eq_getElem hj)
  rw [heq, hsecond] at hfirst
  exact Nat.ne_of_gt hlt (Option.some.inj hfirst)

/-- Change the number of uses of the constant at a position. -/
def recount (p : Pool) (i : Nat) (f : Nat → Nat) : Pool where
  entries := p.entries.modify i fun (c, n) => (c, f n)
  index := p.index
  indexed c j := by
    rw [p.indexed, Array.getElem?_modify]
    split <;> simp [Function.comp_def]

/-- Put a constant that is not there after the others, with one use. -/
def push (p : Pool) (c : Constant) (h : p.index.lookup c = none) : Pool where
  entries := p.entries.push (c, 1)
  index := (c, p.entries.size) :: p.index
  indexed d j := by
    rw [Array.getElem?_push]
    by_cases hd : d = c
    · subst hd
      have hnew : p.entries[j]?.map Prod.fst ≠ some d := fun hj => by simp [(p.indexed d j).mpr hj] at h
      rw [List.lookup_cons_self]
      split
      · next hj => simp [hj]
      · next hj => simp [hnew, Ne.symm hj]
    · rw [List.lookup_cons, beq_false_of_ne hd, p.indexed]
      split
      · next hj => simp [hj, Ne.symm hd]
      · rfl

/-- Use a constant: its position, which is new if it was not there. -/
def add (p : Pool) (c : Constant) : Nat × Pool :=
  match h : p.index.lookup c with
  | some i => (i, p.recount i (· + 1))
  | none => (p.entries.size, p.push c h)

/-- Drop one use of the constant at a position. -/
def release (p : Pool) (i : Int) : Except Violation Pool :=
  match if i < 0 then none else p.entries[i.toNat]? with
  | some (_, n + 1) => .ok (p.recount i.toNat fun _ => n)
  | _ => .error (.unusedConstant i)

/-- The constant at a position. -/
def get (p : Pool) (i : Int) : Except Violation Constant :=
  match if i < 0 then none else p.entries[i.toNat]? with
  | some (c, _) => .ok c
  | none => .error (.constantRange i)

/-- The new positions of a list of constants, from a position on. Those without uses have none. -/
def positions (next : Nat) : List (Constant × Nat) → List (Option Nat)
  | [] => []
  | (_, 0) :: rest => none :: positions next rest
  | (_, _ + 1) :: rest => some next :: positions (next + 1) rest

/-- Constants that are different are found at their positions. -/
theorem lookup_zipIdx {cs : List Constant} (h : cs.Nodup) (k : Nat) (c : Constant) (i : Nat) :
    (cs.zipIdx k).lookup c = some i ↔ k ≤ i ∧ cs[i - k]? = some c := by
  induction cs generalizing k with
  | nil => simp
  | cons d cs ih =>
    obtain ⟨hd, hcs⟩ := List.nodup_cons.mp h
    rw [List.zipIdx_cons, List.getElem?_cons]
    by_cases hc : c = d
    · subst hc
      have hnot : cs[i - k - 1]? ≠ some c := fun hi => hd (List.mem_of_getElem? hi)
      rw [List.lookup_cons_self, Option.some_inj]
      split
      · constructor
        · rintro rfl
          exact ⟨Nat.le_refl _, rfl⟩
        · rintro ⟨hle, -⟩
          omega
      · constructor
        · rintro rfl
          omega
        · rintro ⟨-, hi⟩
          exact absurd hi hnot
    · rw [List.lookup_cons, beq_false_of_ne hc, ih hcs]
      split
      · constructor
        · rintro ⟨hle, -⟩
          omega
        · rintro ⟨-, hi⟩
          exact absurd (Option.some.inj hi).symm hc
      · rw [Nat.sub_sub]
        constructor <;> rintro ⟨hle, hi⟩ <;> exact ⟨by omega, hi⟩

/-- Drop the constants without uses, and give the new positions of all. -/
def compact (p : Pool) : List (Option Nat) × Pool :=
  let entries := p.entries.filter fun e => e.2 ≠ 0
  have hnodup : (entries.toList.map Prod.fst).Nodup := by
    rw [Array.toList_filter]
    exact p.nodup_constants.sublist (List.filter_sublist.map _)
  (positions 0 p.entries.toList,
    { entries, index := (entries.toList.map Prod.fst).zipIdx, indexed := by simp [lookup_zipIdx hnodup] })

end Pool

end Weft.Bytecode
