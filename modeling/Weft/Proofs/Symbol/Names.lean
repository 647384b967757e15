import Mathlib.Data.String.Basic
import Weft.Symbol
import Weft.Text.Glyph

/-!
# Qualified names

A qualified name is a path of names without points. Cutting it at its points gives the path back.
-/

namespace Weft

/-- A name that is not empty and has no point in it. -/
def Dotless (name : String) : Prop := name ≠ "" ∧ '.' ∉ name.toList

/-- The qualified name of a path. -/
def dotted (path : List String) : String := ".".intercalate path

variable {path : List String} {name : String}

/-- The path of a qualified name is found by cutting it. -/
theorem pieces_dotted (h : ∀ n ∈ path, Dotless n) (hne : path ≠ []) : Text.pieces '.' (dotted path) = path := by
  have hpieces : ∀ l ∈ path.map String.toList, '.' ∉ l := by
    intro l hl
    obtain ⟨n, hn, rfl⟩ := List.mem_map.mp hl
    exact (h n hn).2
  have hsplit := List.splitOn_intercalate '.' hpieces (by simpa using hne)
  rw [Text.pieces, dotted, String.toList_intercalate]
  change ((['.'].intercalate (path.map String.toList)).splitOn '.').map String.ofList = path
  rw [hsplit]
  simp

theorem dotted_ne_empty (h : ∀ n ∈ path, Dotless n) (hne : path ≠ []) : dotted path ≠ "" := by
  rw [dotted]
  cases path with
  | nil => exact absurd rfl hne
  | cons n ns =>
    have hn := (h n List.mem_cons_self).1
    cases ns with
    | nil => simpa using hn
    | cons m ns =>
      rw [String.intercalate_cons_cons]
      intro he
      simp at he

/-- The qualified name of a name in a namespace. -/
theorem qualified_dotted (h : ∀ n ∈ path, Dotless n) : qualified (dotted path) name = dotted (path ++ [name]) := by
  by_cases hne : path = []
  · subst hne
    rfl
  · rw [qualified, if_neg (dotted_ne_empty h hne), dotted, dotted, String.intercalate_append_of_ne_nil hne (by simp)]
    simp

end Weft
