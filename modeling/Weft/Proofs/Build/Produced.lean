import Weft.Proofs.Analysis.ModuleNames
import Weft.Proofs.Build.Gathered

/-!
# The modules of a build

The units of sources that are analyzed together, and the modules that they are compiled to.
-/

/-! ## Sources that are analyzed together

Where the sources of a build are analyzed without problems, each of them defines a module of its own, and has a unit of this
module without problems.
-/

namespace Weft.Build

open Analysis

variable {r : Registry} {l : Layout} {files : List (Source × Content)} {s s' : Store}

/-- The unit of a source as it is after an analysis without problems. -/
structure UnitOf (x : Source × Content) (u : FileUnit) : Prop where
  name : u.module.name = x.1.module
  diags : u.diags = []
  tree : ∀ tree, x.2 = .parsed tree → ∃ items imports, u.source = .fresh tree items imports

/-! ## Rivals -/

theorem map_rivals (seen : List Source) : (rivals seen files).map (fun x => (x.1, x.2.1)) = files := by
  induction files generalizing seen with
  | nil => rfl
  | cons x files ih => rw [rivals, List.map_cons, ih]

theorem exists_rival (seen : List Source) {x : Source × Content} (hx : x ∈ files) :
    ∃ y ∈ rivals seen files, (y.1, y.2.1) = x := by
  rw [← List.mem_map, map_rivals]
  exact hx

/-- Sources without rivals define modules of their own. -/
theorem nodup_of_rivals {seen : List Source} (h : ∀ x ∈ rivals seen files, x.2.2 = none) :
    (files.map fun x => x.1.module).Nodup ∧ ∀ o ∈ seen, ∀ x ∈ files, o.module ≠ x.1.module := by
  induction files generalizing seen with
  | nil => simp
  | cons x files ih =>
    obtain ⟨source, content⟩ := x
    rw [rivals, List.forall_mem_cons] at h
    obtain ⟨hnone, hrest⟩ := h
    simp only at hnone
    rw [hnone] at hrest
    obtain ⟨hnodup, hseen⟩ := ih hrest
    have hfirst : ∀ o ∈ seen, o.module ≠ source.module := by simpa using hnone
    refine ⟨List.nodup_cons.mpr ⟨?_, hnodup⟩, fun o ho y hy => ?_⟩
    · intro hmem
      obtain ⟨y, hy, hname⟩ := List.mem_map.mp hmem
      exact hseen source (by simp) y hy hname.symm
    · rcases List.mem_cons.mp hy with rfl | hy
      · exact hfirst o ho
      · exact hseen o (List.mem_append_left _ ho) y hy

/-! ## Units -/

/-- A unit starts with the module and the tree of its source. -/
theorem unitOf_holds {source : Source} {content : Content} :
    UnitOf (source, content) (unitOf r source content s).1 ∧ (unitOf r source content s).1.broken = false := by
  unfold unitOf
  cases content with
  | parsed tree =>
    refine ⟨⟨rfl, rfl, fun tree' h => ?_⟩, rfl⟩
    obtain rfl := Content.parsed.inj h
    exact ⟨[], [], rfl⟩
  | cached data compiled => exact ⟨⟨rfl, rfl, fun _ h => nomatch h⟩, rfl⟩

/-- After an analysis without problems, the units are those of the modules and the trees that they were. -/
theorem run_units {resolver : Option Resolver} {units : List FileUnit}
    (h : List.Forall₂ (fun x u => UnitOf x u ∧ u.broken = false) files units)
    (hquiet : ∀ u ∈ (Analysis.run r resolver units s).1, u.diags = []) :
    List.Forall₂ UnitOf files (Analysis.run r resolver units s).1 := by
  have hclean : ∀ u ∈ units, u.Clean := by
    intro u hu
    obtain ⟨x, -, hx, hbroken⟩ := exists_of_forall₂ h hu
    exact ⟨hx.diags, hbroken⟩
  refine (sweeps_of_quiet hclean hquiet).forall₂ (fun {ph x u s u' s'} hx hgoes => ?_) (h.imp fun _ _ hx => hx.1)
  refine ⟨?_, hgoes.after.diags, fun tree htree => ?_⟩
  · have hname := named_runPhase (p := .new r resolver units) ph u s hx.name
    rw [hgoes.result] at hname
    exact hname
  · obtain ⟨items, imports, hsrc⟩ := hx.tree tree htree
    exact goes_runPhase_fresh hsrc hgoes

/-- A unit is found by the name of its module if no other unit has it. -/
theorem find?_unit {units : List FileUnit} (hnodup : (units.map (·.module.name)).Nodup) {u : FileUnit} (hu : u ∈ units) :
    units.find? (fun v => v.module.name = u.module.name) = some u := by
  cases hfind : units.find? fun v => v.module.name = u.module.name with
  | none => exact absurd (List.find?_eq_none.mp hfind u hu) (by simp)
  | some v =>
    have hname : v.module.name = u.module.name := by simpa using List.find?_some hfind
    rw [List.inj_on_of_nodup_map hnodup (List.mem_of_find?_eq_some hfind) hu hname]

/-- The sources that have no rivals. -/
def unrivaled (files : List (Source × Content)) : List (Source × Content) :=
  (rivals [] files).filterMap fun (s, content, rival) => if rival.isNone then some (s, content) else none

theorem unrivaled_eq (h : ∀ x ∈ rivals [] files, x.2.2 = none) : unrivaled files = files := by
  have hkeep : ∀ x ∈ rivals [] files,
      (if x.2.2.isNone then some (x.1, x.2.1) else none) = some (x.1, x.2.1) := fun x hx => by rw [h x hx]; rfl
  calc unrivaled files = (rivals [] files).filterMap fun x => some (x.1, x.2.1) := List.filterMap_congr hkeep
    _ = (rivals [] files).map fun x => (x.1, x.2.1) := congrFun List.filterMap_eq_map' _
    _ = files := map_rivals []

/-- The units of the sources that have no rivals, before they are analyzed. -/
def unitsOf (r : Registry) (files : List (Source × Content)) : Symbols (List FileUnit) :=
  (unrivaled files).mapM fun (s, content) => unitOf r s content

theorem unitsOf_holds (r : Registry) (files : List (Source × Content)) (s : Store) :
    List.Forall₂ (fun x u => UnitOf x u ∧ u.broken = false) (unrivaled files) (unitsOf r files s).1 := by
  unfold unitsOf
  generalize unrivaled files = xs
  induction xs generalizing s with
  | nil => exact .nil
  | cons x xs ih =>
    rw [List.mapM_cons]
    exact .cons unitOf_holds (ih _)

/-- The problems of a source with its rival, if it has one, and with the units after the analysis. -/
def problemsOf (units : List FileUnit) : Source × Content × Option Source → List Diagnostic
  | (s, _, rival) =>
    match rival with
    | some o => [problem .buildError s.path ("module '" ++ s.module ++ "' is also defined by " ++ o.path)]
    | none => ((units.find? fun u => u.module.name = s.module).map (·.diags)).getD []

theorem analyze_apply : analyze r l files s =
    (((rivals [] files).flatMap
        (problemsOf (Analysis.run r (some l.resolve) (unitsOf r files s).1 (unitsOf r files s).2).1),
      ((unrivaled files).zip (Analysis.run r (some l.resolve) (unitsOf r files s).1 (unitsOf r files s).2).1).map
        fun x => { source := x.1.1, content := x.1.2, unit := x.2 }),
      (Analysis.run r (some l.resolve) (unitsOf r files s).1 (unitsOf r files s).2).2) := by
  unfold analyze unitsOf unrivaled problemsOf
  -- what the analysis does takes no part
  generalize Analysis.run = run
  rfl

/-- An analysis of sources without problems: each source defines a module of its own, and takes part with a unit of this
module that has no problems. -/
theorem analyze_quiet {analyzed : List Analyzed} (h : analyze r l files s = (([], analyzed), s')) :
    (files.map fun x => x.1.module).Nodup ∧ analyzed.map (fun a => (a.source, a.content)) = files ∧
      ∀ a ∈ analyzed, UnitOf (a.source, a.content) a.unit := by
  rw [analyze_apply] at h
  obtain ⟨h, -⟩ := Prod.mk.inj h
  obtain ⟨hproblems, rfl⟩ := Prod.mk.inj h
  rw [List.flatMap_eq_nil_iff] at hproblems
  have hunrivaled : ∀ x ∈ rivals [] files, x.2.2 = none := by
    rintro ⟨source, content, rival⟩ hx
    cases rival with
    | none => rfl
    | some o => cases hproblems _ hx
  have hsingle := unrivaled_eq hunrivaled
  have hnodup := (nodup_of_rivals hunrivaled).1
  have hstart := unitsOf_holds r files s
  rw [hsingle] at hstart ⊢
  generalize unitsOf r files s = start at *
  have hnames : (Analysis.run r (some l.resolve) start.1 start.2).1.map (·.module.name) = files.map fun x => x.1.module := by
    rw [names_run]
    exact eq_map_of_forall₂ hstart fun _ _ hx => hx.1.name
  have hquiet : ∀ u ∈ (Analysis.run r (some l.resolve) start.1 start.2).1, u.diags = [] := by
    intro u hu
    have hname : u.module.name ∈ files.map fun x => x.1.module := hnames ▸ List.mem_map_of_mem hu
    obtain ⟨⟨source, content⟩, hx, hname⟩ := List.mem_map.mp hname
    obtain ⟨⟨_, _, rival⟩, hrival, ⟨⟩⟩ := exists_rival [] hx
    obtain rfl : rival = none := hunrivaled _ hrival
    have hnone := hproblems _ hrival
    simp only [problemsOf] at hnone
    rw [hname, find?_unit (hnames ▸ hnodup) hu] at hnone
    exact hnone
  have hall := run_units hstart hquiet
  generalize (Analysis.run r (some l.resolve) start.1 start.2).1 = units at *
  obtain ⟨hlength, hzip⟩ := List.forall₂_iff_zip.mp hall
  refine ⟨hnodup, ?_, ?_⟩
  · rw [List.map_map]
    exact List.map_fst_zip (Nat.le_of_eq hlength)
  · intro a ha
    obtain ⟨⟨x, u⟩, hx, rfl⟩ := List.mem_map.mp ha
    exact hzip hx

end Weft.Build

/-! ## The modules of a build

A source is compiled to the module that its program says, whatever files there are; only where modules are stored by
reference it matters whether they could be kept. Modules that are kept at different places are still there in
the end, and nothing else is written there.
-/

namespace Weft.Build

open Bytecode Memory

variable {c : Config} {l : Layout} {m m' : Memory} {directory : String} {store : Store} {a b : Analyzed} {p : Product}

/-! ## Places of modules -/

theorem getD_lookup {xs : List (String × String)} {k y : String} (h : (k, y) ∈ xs) (d e : String) :
    (xs.lookup k).getD d = (xs.lookup k).getD e := by
  cases hlookup : xs.lookup k with
  | none => exact absurd (List.lookup_eq_none_iff.mp hlookup _ h) (by simp)
  | some y => rfl

/-- Sources at one place define one module. -/
theorem module_of_place {includes files : List String} {s o : Source} (hs : s ∈ (Layout.new directory includes files).sources)
    (ho : o ∈ (Layout.new directory includes files).sources) (h : s.place = o.place) : s.module = o.module := by
  unfold Layout.new at hs ho
  obtain ⟨⟨path, place⟩, hx, rfl⟩ := List.mem_map.mp hs
  obtain ⟨⟨path', place'⟩, -, rfl⟩ := List.mem_map.mp ho
  obtain rfl : place = place' := h
  exact getD_lookup (List.mem_map.mpr ⟨_, List.mem_reverse.mpr hx, rfl⟩) _ _

/-- The place where the module of a source is kept when it is compiled. -/
def storedPlaces (c : Config) (directory : String) (a : Analyzed) : Set (List String) :=
  {q | a.content.isParsed = true ∧ ∃ f ∈ c.cacheFiles? a.source, q = goal directory f.module}

/-! ## Producing -/

theorem confined_keepModule {data : Bytes} (ha : a.content.isParsed = true) :
    Confined (storedPlaces c directory a) directory (keepModule c a.source data : InMemory _) := by
  unfold keepModule
  cases hf : c.cacheFiles? a.source with
  | none => exact .pure _
  | some f =>
    have hplace : {goal directory f.module} ⊆ storedPlaces c directory a := by
      rintro _ rfl
      exact ⟨ha, f, hf, rfl⟩
    refine (confined_write.mono hplace).bind fun written => ?_
    cases written <;> exact .pure _

theorem confined_produce (store : Store) (a : Analyzed) : Confined (storedPlaces c directory a) directory (produce c store a : InMemory _) := by
  unfold produce
  cases ha : a.content with
  | cached data module => exact .pure _
  | parsed tree =>
    cases a.unit.program? with
    | none => exact .pure _
    | some p =>
      simp only
      cases c.review a.unit with
      | some text => exact .pure _
      | none =>
        simp only
        cases compiledModule store a p with
        | error v => exact .pure _
        | ok data =>
          refine Confined.bind (confined_keepModule (by rw [ha]; rfl)) fun kept => ?_
          cases kept <;> exact .pure _

/-- A module that is referred to can be read after it was kept. -/
theorem keepModule_ok {s : Source} {data : Bytes} {u : PUnit}
    (h : (keepModule c s data : InMemory _) m = (.ok u, m')) (href : c.encoding = .ref) :
    ∀ f ∈ c.cacheFiles? s, m'.read f.module = .ok data := by
  intro f hf
  unfold keepModule at h
  rw [Option.mem_def.mp hf] at h
  simp only at h
  rw [bind_apply, write_apply, InMemory.change] at h
  cases hw : m.write f.module data with
  | error e =>
    rw [hw] at h
    simp only [href, if_true] at h
    cases h
  | ok m'' =>
    rw [hw] at h
    obtain ⟨-, rfl⟩ := Prod.mk.inj h
    exact read_of_write hw

/-- What is produced from a source does not depend on the files. A module that is referred to can be read after it was
compiled. -/
theorem produce_ok (h : (produce c store a : InMemory _) m = (.ok p, m')) : p = produced c store a ∧
    (c.encoding = .ref → p.compiled = true → ∀ f ∈ c.cacheFiles? a.source, m'.read f.module = .ok p.data) := by
  unfold produce at h
  unfold produced
  cases ha : a.content with
  | cached data module =>
    rw [ha] at h
    obtain ⟨⟨⟩, -⟩ := Prod.mk.inj h
    exact ⟨rfl, fun _ hc => by cases hc⟩
  | parsed tree =>
    rw [ha] at h
    cases hp : a.unit.program? with
    | none =>
      rw [hp] at h
      obtain ⟨⟨⟩, -⟩ := Prod.mk.inj h
      exact ⟨rfl, fun _ hc => by cases hc⟩
    | some program =>
      rw [hp] at h
      simp only at h ⊢
      cases hr : c.review a.unit with
      | some text =>
        rw [hr] at h
        obtain ⟨⟨⟩, -⟩ := Prod.mk.inj h
        exact ⟨rfl, fun _ hc => by cases hc⟩
      | none =>
        rw [hr] at h
        simp only at h ⊢
        cases hcompile : compiledModule store a program with
        | error v =>
          rw [hcompile] at h
          obtain ⟨⟨⟩, -⟩ := Prod.mk.inj h
          exact ⟨rfl, fun _ hc => by cases hc⟩
        | ok data =>
          rw [hcompile] at h
          simp only at h ⊢
          rw [bind_apply] at h
          rcases hkeep : (keepModule c a.source data : InMemory _) m with ⟨e | u, m₁⟩
          · rw [hkeep] at h
            cases h
          · rw [hkeep] at h
            obtain ⟨⟨⟩, rfl⟩ := Prod.mk.inj h
            exact ⟨rfl, fun href _ => keepModule_ok hkeep href⟩

/-- The modules of two analyzed sources are kept at different places. -/
def KeptApart (c : Config) (directory : String) (a b : Analyzed) : Prop :=
  ∀ f ∈ c.cacheFiles? a.source, ∀ g ∈ c.cacheFiles? b.source, goal directory f.module ≠ goal directory g.module

/-- What is produced from sources whose modules are kept at different places, and what can be read of it afterwards. -/
theorem produce_steps {analyzed : List Analyzed} {products : List Product}
    (h : Steps (produce c store : Analyzed → InMemory _) analyzed m products m')
    (hplaces : analyzed.Pairwise (KeptApart c m.directory)) :
    products = analyzed.map (produced c store) ∧
      Outside {q | ∃ a ∈ analyzed, q ∈ storedPlaces c m.directory a} m m' ∧
        (c.encoding = .ref → ∀ a ∈ analyzed, (produced c store a).compiled = true → ∀ f ∈ c.cacheFiles? a.source,
          m'.read f.module = .ok (produced c store a).data) := by
  induction h with
  | nil => exact ⟨rfl, .refl _ _, fun _ _ ha => nomatch ha⟩
  | @cons a analyzed p products m m₁ m' head tail ih =>
    rw [List.pairwise_cons] at hplaces
    have hfirst : Outside (storedPlaces c m.directory a) m m₁ := by
      have hconfined := confined_produce (c := c) store a (m := m) rfl
      rwa [head] at hconfined
    rw [hfirst.directory] at ih
    obtain ⟨rfl, hrest, hread⟩ := ih hplaces.2
    obtain ⟨rfl, hown⟩ := produce_ok head
    refine ⟨rfl, ?_, fun href x hx hcompiled f hf => ?_⟩
    · refine (hfirst.mono ?_).trans (hrest.mono ?_)
      · exact fun q hq => ⟨a, List.mem_cons_self, hq⟩
      · rintro q ⟨b, hb, hq⟩
        exact ⟨b, List.mem_cons_of_mem _ hb, hq⟩
    · rcases List.mem_cons.mp hx with rfl | hx
      · refine hrest.read ?_ (hown href hcompiled f hf)
        rintro ⟨b, hb, -, g, hg, he⟩
        rw [hfirst.directory] at he
        exact hplaces.1 b hb f hf g hg he
      · exact hread href x hx hcompiled f hf

end Weft.Build
