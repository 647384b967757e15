import Weft.Proofs.Renaming.Orders

/-!
# Acyclic hierarchies

The hierarchy of fresh units stays acyclic over a whole run, with whatever bases are written and whatever is reported.
-/

namespace Weft

/-! ## Symbols under their own identities -/

/-- Every symbol keeps its identity. -/
def Renaming.refl : Renaming := ⟨.refl _, .refl _, .refl _, .refl _, .refl _, .refl _, .refl _⟩

section Identities

mutual

theorem Ty.rename_refl : (t : Ty) → t.rename .refl = t
  | .builtin b => by rw [Ty.rename]
  | .array elem => by rw [Ty.rename, Ty.rename_refl elem]
  | .map key value => by rw [Ty.rename, Ty.rename_refl key, Ty.rename_refl value]
  | .tuple items => by rw [Ty.rename, renameTypes_refl items]
  | .func sig => by rw [Ty.rename, Signature.rename_refl sig]
  | .cls c => by rw [Ty.rename]; rfl
  | .iface i => by rw [Ty.rename]; rfl
  | .enumeration e => by rw [Ty.rename]; rfl

theorem Signature.rename_refl : (sig : Signature) → sig.rename .refl = sig
  | ⟨returns, params, _, _⟩ => by rw [Signature.rename, Ty.rename_refl returns, renameParams_refl params]

theorem renameTypes_refl : (ts : List Ty) → renameTypes .refl ts = ts
  | [] => rfl
  | t :: ts => by rw [renameTypes, Ty.rename_refl t, renameTypes_refl ts]

theorem renameParams_refl : (ps : List (Bool × Ty)) → renameParams .refl ps = ps
  | [] => rfl
  | (_, t) :: ps => by rw [renameParams, Ty.rename_refl t, renameParams_refl ps]

end

theorem Sym.rename_refl (a : Sym) : a.rename .refl = a := by
  cases a with
  | localVar v =>
    have htype : v.type.map (Ty.rename .refl) = v.type := by simp [funext Ty.rename_refl]
    rw [Sym.rename, LocalVar.rename, htype]
  | _ => rfl

theorem Table.rename_refl (t : Table) : t.rename .refl = t := by simp [Table.rename, Sym.rename_refl]

/-- Symbols mirror themselves. -/
theorem Store.Mirrors.refl {s : Store} (h : s.Acyclic) : s.Mirrors .refl s := by
  have hty : Ty.rename .refl = id := funext Ty.rename_refl
  have hsig : Signature.rename .refl = id := funext Signature.rename_refl
  have howner : Owner.rename .refl = id := funext fun o => by cases o <;> rfl
  have hspace : ⇑Renaming.refl.space = id := rfl
  have hcls : ⇑Renaming.refl.cls = id := rfl
  have hiface : ⇑Renaming.refl.iface = id := rfl
  have henum : ⇑Renaming.refl.enumeration = id := rfl
  have hglobal : ⇑Renaming.refl.global = id := rfl
  have hfunc : ⇑Renaming.refl.func = id := rfl
  have hfield : ⇑Renaming.refl.field = id := rfl
  refine ⟨le_rfl, le_rfl, h, fun n => ?_, fun e => ?_, fun g => ?_, fun i => ?_, fun f => ⟨(s.func f).index, ?_⟩,
    fun f => ⟨(s.field f).index, ?_⟩, fun c => ⟨(s.cls c).laidOut, (s.cls c).fields, (s.cls c).methods, ?_⟩⟩
  · simp [Namespace.rename, Table.rename_refl, hspace]
  · simp [Enum.rename, Table.rename_refl, henum]
  · simp [Global.rename, hty, hglobal]
  · simp [Interface.rename, Table.rename_refl, hiface]
  · simp [Func.rename, hsig, howner, hfunc]
  · simp [Field.rename, hty, hcls, hfield]
  · simp [Class.rename, Table.rename_refl, hcls, hiface]

end Identities

namespace Analysis

open Relation (ReflTransGen)
open Store (SameBases)

/-! ## Runs -/

/-- The phases before a list of phases that fresh units start with. -/
theorem moves_foldlM {p : Project} {R : Store → Store → Prop} [IsTrans Store R] [Std.Refl R] {phs : List Phase}
    (h : ∀ ph ∈ phs, MovesUnit R (runPhase p ph)) {us : List FileUnit} (hus : ∀ u ∈ us, u.IsFresh) (s : Store) :
    R s (phs.foldlM (runUnits p) us s).2 ∧ ∀ u ∈ (phs.foldlM (runUnits p) us s).1, u.IsFresh := by
  induction phs generalizing us s with
  | nil => exact ⟨Std.Refl.refl s, hus⟩
  | cons ph phs ih =>
    rw [foldlM_cons]
    obtain ⟨h1, hus⟩ := moves_runUnits (h ph List.mem_cons_self) hus s
    obtain ⟨h2, hall⟩ := ih (fun q hq => h q (List.mem_cons_of_mem _ hq)) hus (runUnits p us ph s).2
    exact ⟨IsTrans.trans _ _ _ h1 h2, hall⟩

/-- The units and symbols of a run when its bases are about to be linked. -/
def declared (p : Project) (units : List FileUnit) : Symbols (List FileUnit) :=
  [Phase.outline, .linkImports, .addImports, .types].foldlM (runUnits p) units

/-- The phase that analyzes bodies makes no base. -/
theorem sameBases_bodies {p : Project} {us : List FileUnit} {s : Store} (hus : ∀ u ∈ us, u.IsFresh) (hs : s.Acyclic) :
    s.SameBases (runUnits p us .bodies s).2 := by
  induction us generalizing s with
  | nil => exact .refl s
  | cons u us ih =>
    obtain ⟨hu, hus⟩ := List.forall_mem_cons.mp hus
    have hlaying : _ ∧ Laying .refl s s (runPhase p .bodies u s).2 (runPhase p .bodies (u.rename .refl) s).2 :=
      bodies_rename hu (.refl hs)
    have hfirst := SameBases.ofRelaid hlaying.2.left
    rw [runUnits_cons]
    exact hfirst.trans (ih hus (hfirst.acyclic hs))

/-- The hierarchy of fresh units stays acyclic, whatever bases are written and whatever is reported. The phases before
make no base. The phase that links bases goes through single links, and after these and any other links, in any number
and order, the hierarchy is acyclic and every walk through it ends. The phases after it make no base, so this holds of
the symbols that the run leaves. -/
theorem run_acyclic (registry : Registry) (resolver : Option Resolver) {units : List FileUnit} {s : Store}
    (hunits : ∀ u ∈ units, u.IsFresh) (hs : s.Acyclic) :
    ∃ units₁ s₁ units₂ s₂, declared (.new registry resolver units) units s = (units₁, s₁) ∧
      runUnits (.new registry resolver units) units₁ .bases s₁ = (units₂, s₂) ∧
      run registry resolver units s =
        [Phase.bodies, .finalize].foldlM (runUnits (.new registry resolver units)) units₂ s₂ ∧
      s.SameBases s₁ ∧ ReflTransGen LinkStep s₁ s₂ ∧
      (∀ t, ReflTransGen LinkStep s₁ t → t.Acyclic ∧ t.WalksEnd) ∧
      s₂.SameBases (run registry resolver units s).2 ∧ (run registry resolver units s).2.Acyclic ∧
      (run registry resolver units s).2.WalksEnd := by
  let p := Project.new registry resolver units
  obtain ⟨hbefore, hfresh⟩ := moves_foldlM (p := p) (fun ph hph => movesUnit_before hph) hunits s
  obtain ⟨hlinks, hfresh₂⟩ := moves_runUnits (movesUnit_bases (p := p)) hfresh (declared p units s).2
  have hac : ∀ t, ReflTransGen LinkStep _ t → t.Acyclic := fun t ht => acyclic_of_links ht (hbefore.acyclic hs)
  have hrun : run registry resolver units s = [Phase.bodies, .finalize].foldlM (runUnits p)
      (runUnits p (declared p units s).1 .bases (declared p units s).2).1
      (runUnits p (declared p units s).1 .bases (declared p units s).2).2 := rfl
  have hafter : (runUnits p (declared p units s).1 .bases (declared p units s).2).2.SameBases
      (run registry resolver units s).2 := by
    rw [hrun, foldlM_cons, foldlM_cons, runUnits_finalize]
    exact sameBases_bodies hfresh₂ (hac _ hlinks)
  have hlast := hafter.acyclic (hac _ hlinks)
  exact ⟨_, _, _, _, rfl, rfl, hrun, hbefore, hlinks, fun t ht => ⟨hac t ht, (hac t ht).walksEnd⟩, hafter, hlast,
    hlast.walksEnd⟩

/-- The second class of the loop is rejected, and the hierarchy is acyclic after each link. -/
theorem run_loop_acyclic :
    (∀ u ∈ [Loop.unit], u.IsFresh) ∧ Loop.start.2.Acyclic ∧
      (∀ u ∈ (run Loop.start.1.1 none [Loop.unit] Loop.start.2).1, u.diags.length = 1) ∧
      ∃ units₁ s₁ units₂ s₂, declared (.new Loop.start.1.1 none [Loop.unit]) [Loop.unit] Loop.start.2 = (units₁, s₁) ∧
        runUnits (.new Loop.start.1.1 none [Loop.unit]) units₁ .bases s₁ = (units₂, s₂) ∧
        (s₂.cls ⟨0⟩).super = some ⟨1⟩ ∧ (s₂.cls ⟨1⟩).super = none ∧ s₂.Acyclic ∧ s₂.WalksEnd ∧
        (run Loop.start.1.1 none [Loop.unit] Loop.start.2).2.WalksEnd := by
  have hunits : ∀ u ∈ [Loop.unit], u.IsFresh := by
    intro u hu
    obtain rfl := List.mem_singleton.mp hu
    exact ⟨_, _, _, rfl⟩
  have hstart : Loop.start.2.Acyclic := by
    have hclasses : Loop.start.2.classes = #[] := by decide +kernel
    have hinterfaces : Loop.start.2.interfaces = #[] := by decide +kernel
    apply Store.acyclic_of_no_bases
    · intro c
      rw [Store.cls, hclasses]
      rfl
    · intro i
      rw [Store.iface, hinterfaces]
      rfl
  refine ⟨hunits, hstart, by decide +kernel, ?_⟩
  obtain ⟨units₁, s₁, units₂, s₂, h₁, h₂, -, -, hlinks, hall, -, -, hends⟩ := run_acyclic Loop.start.1.1 none hunits hstart
  refine ⟨units₁, s₁, units₂, s₂, h₁, h₂, ?_, ?_, (hall s₂ hlinks).1, (hall s₂ hlinks).2, hends⟩
  · have hsuper : (((runUnits (.new Loop.start.1.1 none [Loop.unit])
        (declared (.new Loop.start.1.1 none [Loop.unit]) [Loop.unit] Loop.start.2).1 .bases
        (declared (.new Loop.start.1.1 none [Loop.unit]) [Loop.unit] Loop.start.2).2).2).cls ⟨0⟩).super = some ⟨1⟩ := by
      decide +kernel
    rwa [h₁, h₂] at hsuper
  · have hsuper : (((runUnits (.new Loop.start.1.1 none [Loop.unit])
        (declared (.new Loop.start.1.1 none [Loop.unit]) [Loop.unit] Loop.start.2).1 .bases
        (declared (.new Loop.start.1.1 none [Loop.unit]) [Loop.unit] Loop.start.2).2).2).cls ⟨1⟩).super = none := by
      decide +kernel
    rwa [h₁, h₂] at hsuper

end Analysis

end Weft
