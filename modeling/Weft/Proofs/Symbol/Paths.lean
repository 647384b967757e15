import Weft.Analysis.Context
import Weft.Proofs.Symbol.Names
import Weft.Symbol.Record

/-!
# Lookups from a root namespace

A dotted name is followed name by name, from what a scope finds under the first one.
-/

namespace Weft

namespace Store

/-- What a dotted name leads to, name by name. -/
def Leads (s : Store) (f : Found) : List String → Found → Prop
  | [], g => g = f
  | name :: rest, g => ∃ v f', s.viewOf? f = some v ∧ s.resolveIn v name = some f' ∧ s.Leads f' rest g

/-- The namespace that names lead to through the members of each other. -/
def Chain (s : Store) (n : NamespaceId) : List String → NamespaceId → Prop
  | [], m => m = n
  | name :: rest, m => ∃ c, (s.space n).members.get? name = some (.space c) ∧ s.Chain c rest m

end Store

variable {s : Store} {name : String} {path rest : List String} {f g h : Found} {v : View}

theorem Table.get?_mem {t : Table} {sym : Sym} (hg : t.get? name = some sym) : (name, sym) ∈ t.entries := by
  rw [Table.get?, List.lookup_eq_some_iff] at hg
  obtain ⟨l₁, l₂, he, -⟩ := hg
  rw [he]
  simp

namespace Store

theorem exported?_mem {n : NamespaceId} {sym : Sym} (he : s.exported? n name = some sym) :
    (name, sym) ∈ (s.space n).members.entries := by
  unfold exported? at he
  split at he
  · next found hf =>
    split at he
    · cases he
    · cases he
      exact Table.get?_mem hf
  · cases he

/-! ## Following names -/

theorem followPath_ok_iff {whole done : List String} :
    s.followPath whole f done path = .ok g ↔ s.Leads f path g := by
  induction path generalizing f done with
  | nil =>
    rw [followPath, Leads]
    exact ⟨fun h => (Except.ok.inj h).symm, fun h => by rw [h]⟩
  | cons name rest ih =>
    rw [followPath, Leads]
    cases hv : s.viewOf? f with
    | none => simp
    | some v =>
      cases hf : s.resolveIn v name with
      | none => simp [hf]
      | some f' => simp [hf, ih]

theorem resolvePath_ok_iff {scope : Lookup} :
    s.resolvePath scope path = .ok g ↔ ∃ first rest f, path = first :: rest ∧ scope first = some f ∧ s.Leads f rest g := by
  cases path with
  | nil => simp [resolvePath]
  | cons first rest =>
    rw [resolvePath]
    cases hf : scope first with
    | none => simp [hf]
    | some f => simp [hf, followPath_ok_iff]

theorem resolvePath_root_iff {root : NamespaceId} : s.resolvePath (s.resolve root) path = .ok g ↔
    path ≠ [] ∧ s.Leads (.view (s.space root).view) path g := by
  rw [resolvePath_ok_iff]
  cases path with
  | nil => simp
  | cons first rest => simp [Leads, viewOf?, resolve]

/-! ## Where names lead -/

variable {root n : NamespaceId}

theorem empty_get? : Table.empty.get? name = none := rfl

end Store

end Weft
