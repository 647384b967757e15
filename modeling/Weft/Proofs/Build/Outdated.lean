import Weft.Build
import Weft.Proofs.Build.Paths
import Weft.Proofs.Build.Stages

/-!
# Builds whose cached modules are outdated

What is kept between builds takes no part in a build if each module that was kept is older than its source or the compiler.
Such a build gives what it gives with an empty cache directory, whatever settings the cached modules were made with.
-/

namespace Weft.Build

open Memory

variable {c : Config} {l : Layout} {m m' base : Memory} {s : Source} {sc : Scan}

/-! ## What is read -/

theorem bind_apply {α β : Type} {x : InMemory α} {k : α → InMemory β} : (x >>= k) m = k (x m).1 (x m).2 := rfl

theorem pure_apply {α : Type} {a : α} : (pure a : InMemory α) m = (a, m) := rfl

/-- The text of a source with its conditions applied. -/
def textOf (c : Config) (m : Memory) (path : String) : Except Diagnostic Bytes :=
  match m.read path with
  | .error f => .error (problem .buildError path f.message)
  | .ok b => (Directive.apply c.defined b).mapError fun e => problem .syntaxError path e.message

/-- A source read as a program. -/
def parsedAs (s : Source) : Except Diagnostic Bytes → Loaded
  | .error d => { source := s, content := none, problems := [d] }
  | .ok text =>
    { source := s, content := some (.parsed (Tree.parseFile s.path text).1), problems := (Tree.parseFile s.path text).2 }

/-- What a source holds if nothing was kept of it. -/
def reading (c : Config) (m : Memory) (s : Source) : Loaded :=
  match m.statOf s.path with
  | .error cause =>
    { source := s, content := none, problems := [problem .buildError s.path (Fault.message ⟨"stat", s.path, cause⟩)] }
  | .ok _ => parsedAs s (textOf c m s.path)

/-- The time of the compiler, if it is known. -/
def compilerTimeOf (c : Config) (m : Memory) : Option Int := c.compiler.bind fun p => (m.statOf p).toOption.map Stat.time

/-- The time of the module that was kept of a source, if there is one. -/
def moduleTimeOf (c : Config) (m : Memory) (s : Source) : Option Int :=
  (c.cacheFiles? s).bind fun f => (m.statOf f.module).toOption.map Stat.time

/-- The time of a source, if it can be looked at. -/
def sourceTimeOf (m : Memory) (s : Source) : Option Int := (m.statOf s.path).toOption.map Stat.time

/-- Whether a module that was kept of a source is older than the source or the compiler. -/
def outdated (c : Config) (m : Memory) (s : Source) : Bool :=
  (moduleTimeOf c m s).all fun t => !notAfter (sourceTimeOf m s) t || !notAfter (compilerTimeOf c m) t

theorem readText_apply {path : String} : (readText c path : InMemory _) m = (textOf c m path, m) := by
  rw [readText, bind_apply, read_apply]
  unfold textOf
  cases m.read path with
  | error f => rfl
  | ok b =>
    simp only
    cases Directive.apply c.defined b <;> rfl

theorem compilerTime_apply : (compilerTime c : InMemory _) m = (compilerTimeOf c m, m) := by
  unfold compilerTime compilerTimeOf
  cases c.compiler with
  | none => rfl
  | some p =>
    simp only
    rw [bind_apply, stat_apply]
    rfl

theorem moduleTime_apply : (moduleTime c s : InMemory _) m = (moduleTimeOf c m s, m) := by
  unfold moduleTime moduleTimeOf
  cases c.cacheFiles? s with
  | none => rfl
  | some f =>
    simp only
    rw [bind_apply, stat_apply]
    rfl

theorem parse_apply : (parse c sc : InMemory _) m =
    (parsedAs sc.source (sc.text.elim (textOf c m sc.source.path) .ok), m) := by
  unfold parse
  cases sc.text with
  | none =>
    simp only
    rw [bind_apply, readText_apply]
    simp only [Option.elim_none]
    cases textOf c m sc.source.path <;> rfl
  | some text => rfl

/-- A source whose cached module is not fresh is read, unless it has problems already. -/
theorem load_false : (load c sc false : InMemory _) m = if sc.problems.isEmpty then
      (parsedAs sc.source (sc.text.elim (textOf c m sc.source.path) .ok), m)
    else ({ source := sc.source, content := none, problems := sc.problems }, m) := by
  unfold load
  cases hp : sc.problems.isEmpty with
  | true => exact parse_apply
  | false => rfl

/-! ## Cache files beside all others -/

/-- The paths that a build uses, but for those of cache files. -/
def usedPaths (c : Config) (l : Layout) : List String :=
  l.sources.map Source.path ++ c.compiler.toList ++ c.errorFile.toList ++ c.output.toList ++
    c.output.toList.flatMap fun p => Path.stages (Path.parent p)

/-- The cache directory of a build is there, with nothing but files inside it, and the other paths that the build uses do not
lead into it. -/
structure Secluded (c : Config) (l : Layout) (m : Memory) : Prop where
  ready : ∀ d ∈ c.cacheDir, m.find d = .ok .directory
  files : ∀ e ∈ m.nodes, e.1 ∈ cachePlaces c m.directory → e.2 ≠ .directory
  apart : ∀ p ∈ usedPaths c l, Clear (cachePlaces c m.directory) m.directory p

instance (c : Config) (l : Layout) (m : Memory) : Decidable (Secluded c l m) :=
  decidable_of_iff
    ((∀ d ∈ c.cacheDir, m.find d = .ok .directory) ∧
      (∀ e ∈ m.nodes, e.1 ∈ cachePlaces c m.directory → e.2 ≠ .directory) ∧
      ∀ p ∈ usedPaths c l, Clear (cachePlaces c m.directory) m.directory p)
    ⟨fun ⟨ready, files, apart⟩ => ⟨ready, files, apart⟩, fun ⟨ready, files, apart⟩ => ⟨ready, files, apart⟩⟩

namespace Secluded

variable (h : Secluded c l base)
include h

theorem files_cache : ∀ q ∈ cachePlaces c base.directory, base.node? q ≠ some .directory :=
  fun _ hq hn => h.files _ (mem_nodes_of_node? hn) hq rfl

theorem files_imports : ∀ q ∈ importsPlaces c l base.directory, base.node? q ≠ some .directory :=
  fun q hq => h.files_cache q (importsPlaces_subset hq)

theorem clear_source (hs : s ∈ l.sources) : Clear (importsPlaces c l base.directory) base.directory s.path :=
  Clear.mono (h.apart s.path (by simp only [usedPaths, List.mem_append, List.mem_map]; grind)) importsPlaces_subset

/-- The path of a module leads through directories to a place where no list of imports is. -/
theorem clear_module {f : CacheFiles} (hf : c.cacheFiles? s = some f) :
    Clear (importsPlaces c l base.directory) base.directory f.module := by
  obtain ⟨-, hway, -⟩ := locate_ok_iff.mp (cacheFiles_locate h.ready hf).2
  exact ⟨fun q hq hmem => h.files_imports q hmem (hway q hq), module_notMem_importsPlaces hf⟩

theorem textOf_eq (hm : Beside (importsPlaces c l base.directory) base m) (hs : s ∈ l.sources) :
    textOf c m s.path = textOf c base s.path := by
  unfold textOf
  rw [hm.read (h.clear_source hs)]

theorem compilerTimeOf_eq (hm : Beside (importsPlaces c l base.directory) base m) :
    compilerTimeOf c m = compilerTimeOf c base := by
  unfold compilerTimeOf
  cases hc : c.compiler with
  | none => rfl
  | some p =>
    have hp : Clear (cachePlaces c base.directory) base.directory p := h.apart p (by simp [usedPaths, hc])
    simp only [Option.bind_some, hm.statOf (Clear.mono hp importsPlaces_subset)]

theorem moduleTimeOf_eq (hm : Beside (importsPlaces c l base.directory) base m) :
    moduleTimeOf c m s = moduleTimeOf c base s := by
  unfold moduleTimeOf
  cases hf : c.cacheFiles? s with
  | none => rfl
  | some f => simp only [Option.bind_some, hm.statOf (h.clear_module hf)]

end Secluded

/-! ## Imports -/

/-- What a scan says of a source: whatever it found, reading the source gives what it holds. -/
structure Scanned (c : Config) (l : Layout) (base : Memory) (s : Source) (sc : Scan) : Prop where
  source : sc.source = s
  time : sc.time = sourceTimeOf base s
  load : ∀ {m}, Beside (importsPlaces c l base.directory) base m → (load c sc false : InMemory _) m = (reading c base s, m)

theorem cachedImports_snd {time : Int} : ((cachedImports c s time : InMemory _) m).2 = m := by
  unfold cachedImports
  cases c.cacheFiles? s with
  | none => rfl
  | some f =>
    simp only
    rw [bind_apply, stat_apply]
    cases m.statOf f.imports with
    | error e => rfl
    | ok st =>
      simp only
      split <;> rfl

theorem keepImports_beside (h : Secluded c l base) (hm : Beside (importsPlaces c l base.directory) base m)
    (hs : s ∈ l.sources) {imports : List String} :
    Beside (importsPlaces c l base.directory) base ((keepImports c s imports : InMemory _) m).2 := by
  unfold keepImports
  cases hf : c.cacheFiles? s with
  | none => exact hm
  | some f =>
    obtain ⟨m'', hw, hbeside⟩ := hm.write_place (cacheFiles_locate h.ready hf).1 ⟨s, hs, f, hf, rfl⟩ (b := encodeImports imports)
    have hrun : ((discard (Disk.write f.imports (encodeImports imports)) : InMemory _) m).2 =
        (InMemory.change (·.write f.imports (encodeImports imports)) m).2 := rfl
    simp only
    rw [hrun, InMemory.change, hw]
    exact hbeside

theorem scan_holds (h : Secluded c l base) (hm : Beside (importsPlaces c l base.directory) base m) (hs : s ∈ l.sources) :
    Scanned c l base s ((scan c s : InMemory _) m).1 ∧
      Beside (importsPlaces c l base.directory) base ((scan c s : InMemory _) m).2 := by
  have hstat := hm.statOf (h.clear_source hs)
  have htext := h.textOf_eq hm hs
  unfold scan
  rw [bind_apply, stat_apply, hstat]
  cases hst : base.statOf s.path with
  | error cause =>
    refine ⟨⟨rfl, by rw [sourceTimeOf, hst]; rfl, fun {m} hm => ?_⟩, hm⟩
    rw [load_false]
    simp [pure_apply, Scan.failed, reading, hst]
  | ok st =>
    have htime : sourceTimeOf base s = some st.time := by rw [sourceTimeOf, hst]; rfl
    simp only
    rw [bind_apply, cachedImports_snd]
    cases ((cachedImports c s st.time : InMemory _) m).1 with
    | some imports =>
      refine ⟨⟨rfl, htime.symm, fun {m} hm => ?_⟩, hm⟩
      rw [load_false]
      simp [pure_apply, reading, hst, h.textOf_eq hm hs]
    | none =>
      simp only
      rw [bind_apply, readText_apply, htext]
      cases ht : textOf c base s.path with
      | error d =>
        refine ⟨⟨rfl, htime.symm, fun {m} hm => ?_⟩, hm⟩
        rw [load_false]
        simp [pure_apply, Scan.failed, reading, hst, ht, parsedAs]
      | ok text =>
        simp only
        rw [bind_apply]
        refine ⟨⟨rfl, htime.symm, fun {m} hm => ?_⟩, keepImports_beside h hm hs⟩
        rw [load_false]
        simp [pure_apply, reading, hst, ht]

/-! ## Freshness -/

theorem mapM_apply {α β : Type} {f : α → InMemory β} {g : α → β} {xs : List α} (h : ∀ x ∈ xs, f x m = (g x, m)) :
    xs.mapM f m = (xs.map g, m) := by
  induction xs with
  | nil => rfl
  | cons x xs ih =>
    rw [List.forall_mem_cons] at h
    rw [List.mapM_cons, bind_apply, h.1, bind_apply, ih h.2]
    rfl

/-- What decides about the cached module of a source. -/
def standingOf (c : Config) (l : Layout) (native : String → Bool) (m : Memory) (sc : Scan) : Standing :=
  { source := sc.source, time := sc.time, sound := sc.problems.isEmpty,
    imports := l.dependencies? native sc.source.path sc.imports, cacheTime := moduleTimeOf c m sc.source }

theorem standing_apply {native : String → Bool} :
    (sc.standing c l native : InMemory _) m = (standingOf c l native m sc, m) := by
  rw [Scan.standing, bind_apply, moduleTime_apply]
  rfl

theorem judge_apply (native : String → Bool) (scans : List Scan) : ∃ flags, flags.length = scans.length ∧
    (judge c l native scans : InMemory _) m = (scans.zip flags, m) := by
  unfold judge
  rw [bind_apply, mapM_apply fun sc _ => standing_apply, bind_apply, compilerTime_apply]
  exact ⟨_, by simp, rfl⟩

/-- No module that is older than its source or the compiler is fresh. -/
theorem judge_outdated (h : Secluded c l base) (hold : ∀ s ∈ l.sources, outdated c base s = true) {scans : List Scan}
    (hscans : List.Forall₂ (Scanned c l base) l.sources scans) (hm : Beside (importsPlaces c l base.directory) base m)
    {native : String → Bool} :
    (judge c l native scans : InMemory _) m = (scans.map fun sc => (sc, false), m) := by
  have hstale : ∀ sc ∈ scans, ∀ all, isFresh (compilerTimeOf c m) all (standingOf c l native m sc) = false := by
    intro sc hsc all
    obtain ⟨s, hs, hscan⟩ := exists_of_forall₂ hscans hsc
    have hout := hold s hs
    have hcache : (standingOf c l native m sc).cacheTime = moduleTimeOf c base s := by
      rw [standingOf, hscan.source, h.moduleTimeOf_eq hm]
    have htime : (standingOf c l native m sc).time = sourceTimeOf base s := hscan.time
    unfold isFresh
    rw [hcache, h.compilerTimeOf_eq hm]
    unfold outdated at hout
    cases ht : moduleTimeOf c base s with
    | none => rfl
    | some t =>
      rw [ht] at hout
      simp only [Option.all_some, Bool.or_eq_true, Bool.not_eq_true'] at hout
      simp only [Standing.allows, htime]
      rcases hout with hout | hout
      · simp [hout]
      · simp [hout]
  unfold judge
  rw [bind_apply, mapM_apply fun sc _ => standing_apply, bind_apply, compilerTime_apply, pure_apply]
  congr 1
  rw [List.map_map, ← List.map_prod_left_eq_zip]
  exact List.map_congr_left fun sc hsc => by rw [Function.comp_apply, hstale sc hsc]

/-! ## Modules -/

/-- The module of an analyzed source, or the problems that keep it from being compiled. -/
def produced (c : Config) (store : Store) (a : Analyzed) : Product :=
  match a.content, a.unit.program? with
  | .cached data _, _ => { source := a.source, data, compiled := false, problems := [] }
  | .parsed _, none => .failed a.source "no program"
  | .parsed _, some p =>
    match c.review a.unit with
    | some text => .failed a.source text
    | none =>
      match compiledModule store a p with
      | .error v => .failed a.source v.message
      | .ok data => { source := a.source, data, compiled := true, problems := [] }

theorem produce_holds (h : Secluded c l base) (hm : Beside (cachePlaces c base.directory) base m) {store : Store}
    {a : Analyzed} : ((produce c store a : InMemory _) m).1 = .ok (produced c store a) ∧
      Beside (cachePlaces c base.directory) base ((produce c store a : InMemory _) m).2 := by
  have hkeep : ∀ data, ((keepModule c a.source data : InMemory _) m).1 = .ok ⟨⟩ ∧
      Beside (cachePlaces c base.directory) base ((keepModule c a.source data : InMemory _) m).2 := by
    intro data
    unfold keepModule
    cases hf : c.cacheFiles? a.source with
    | none => exact ⟨rfl, hm⟩
    | some f =>
      obtain ⟨m'', hw, hbeside⟩ := hm.write_place (cacheFiles_locate h.ready hf).2 (module_mem_cachePlaces hf) (b := data)
      simp only
      rw [bind_apply, write_apply, InMemory.change, hw]
      exact ⟨rfl, hbeside⟩
  unfold produce produced
  cases a.content with
  | cached data module => exact ⟨rfl, hm⟩
  | parsed tree =>
    cases a.unit.program? with
    | none => exact ⟨rfl, hm⟩
    | some p =>
      simp only
      cases c.review a.unit with
      | some text => exact ⟨rfl, hm⟩
      | none =>
        simp only
        cases compiledModule store a p with
        | error v => exact ⟨rfl, hm⟩
        | ok data =>
          simp only
          rw [bind_apply, (hkeep data).1]
          exact ⟨rfl, (hkeep data).2⟩

/-! ## The stages together -/

/-- The modules and the problems of a build, from what its sources hold. -/
def finished (c : Config) (l : Layout) (loaded : List Loaded) : List Product × List Diagnostic :=
  let problems := loaded.flatMap Loaded.problems
  if !problems.isEmpty then ([], problems)
  else
    let ((problems, analyzed), store) :=
      analyze c.natives.registry l (loaded.filterMap fun x => x.content.map fun content => (x.source, content))
        c.natives.store
    if !problems.isEmpty then ([], problems)
    else
      let products := analyzed.map (produced c store)
      let problems := products.flatMap Product.problems
      if !problems.isEmpty then (products, problems) else (products, (collisions analyzed store).1)

theorem run_mk_bind {α β : Type} {x : InMemory (Except Failure α)} {f : α → ExceptT Failure InMemory β} {a : α}
    (hx : x m = (.ok a, m')) : (ExceptT.mk x >>= f).run m = (f a).run m' := by
  change (ExceptT.bindCont (m := InMemory) f (x m).1) (x m).2 = _
  rw [hx]
  rfl

theorem run_lift_bind {α β : Type} {x : InMemory α} {f : α → ExceptT Failure InMemory β} :
    (ExceptT.lift x >>= f).run m = (f (x m).1).run (x m).2 := rfl

theorem workersFor_pos (files : Nat) (wanted : Int) : 0 < workersFor files wanted := by
  unfold workersFor
  split <;> omega

theorem scan_stage (h : Secluded c l base) {workers : Nat} (hw : 0 < workers) :
    ∃ scans m', (stage workers (fun s => do return .ok (← scan c s)) l.sources : InMemory (Except Failure _)) base =
      (.ok scans, m') ∧ List.Forall₂ (Scanned c l base) l.sources scans ∧
        Beside (importsPlaces c l base.directory) base m' :=
  stage_holds (Beside (importsPlaces c l base.directory) base) (Scanned c l base) _ hw
    (fun _ hs _ hm => ⟨_, rfl, scan_holds h hm hs⟩) (Beside.refl h.files_imports)

theorem load_stage {scans : List Scan} (hscans : List.Forall₂ (Scanned c l base) l.sources scans)
    (hm : Beside (importsPlaces c l base.directory) base m) {workers : Nat} (hw : 0 < workers) :
    ∃ m', (stage workers (fun (sc, fresh) => do return .ok (← load c sc fresh)) (scans.map fun sc => (sc, false)) :
      InMemory (Except Failure _)) m = (.ok (l.sources.map (reading c base)), m') ∧
        Beside (importsPlaces c l base.directory) base m' := by
  have hstep : ∀ x ∈ scans.map (fun sc => (sc, false)), ∀ m, Beside (importsPlaces c l base.directory) base m →
      ∃ b, ((fun (sc, fresh) => do return .ok (← load c sc fresh) : Scan × Bool → InMemory (Except Failure Loaded)) x m).1 =
        .ok b ∧ b = reading c base x.1.source ∧ Beside (importsPlaces c l base.directory) base
          ((fun (sc, fresh) => do return .ok (← load c sc fresh) : Scan × Bool → InMemory (Except Failure Loaded)) x m).2 := by
    intro x hx m hm
    obtain ⟨sc, hsc, rfl⟩ := List.mem_map.mp hx
    obtain ⟨s, -, hscan⟩ := exists_of_forall₂ hscans hsc
    refine ⟨reading c base s, ?_, by rw [hscan.source], ?_⟩
    · change Except.ok ((load c sc false : InMemory _) m).1 = _
      rw [hscan.load hm]
    · change Beside _ base ((load c sc false : InMemory _) m).2
      rw [hscan.load hm]
      exact hm
  obtain ⟨loaded, m', hrun, hall, hm'⟩ := stage_holds _ _ _ hw hstep hm
  refine ⟨m', ?_, hm'⟩
  have hloaded := eq_map_of_forall₂ hall (g := id) fun _ _ h => h
  have hsources : scans.map Scan.source = l.sources.map id := eq_map_of_forall₂ hscans fun _ _ h => h.source
  rw [List.map_id, List.map_map] at hloaded
  rw [hrun, hloaded, ← List.map_id l.sources, ← hsources, List.map_map]
  rfl

theorem produce_stage (h : Secluded c l base) (hm : Beside (cachePlaces c base.directory) base m) (store : Store)
    (analyzed : List Analyzed) {workers : Nat} (hw : 0 < workers) :
    ∃ m', (stage workers (produce c store) analyzed : InMemory _) m = (.ok (analyzed.map (produced c store)), m') ∧
      Beside (cachePlaces c base.directory) base m' := by
  obtain ⟨products, m', hrun, hall, hm'⟩ := stage_holds (Beside (cachePlaces c base.directory) base)
    (fun a p => p = produced c store a) (produce c store) hw
    (fun _ _ m hm => ⟨_, (produce_holds h hm).1, rfl, (produce_holds h hm).2⟩) hm
  have hproducts := eq_map_of_forall₂ hall (g := id) fun _ _ h => h
  rw [List.map_id] at hproducts
  exact ⟨m', by rw [hrun, hproducts], hm'⟩

/-- The sources with whether a build takes their cached modules. -/
def judged (c : Config) (l : Layout) (m : Memory) : List (Scan × Bool) :=
  let scanned := (stage (workersFor l.sources.length c.workers) (fun s => do return .ok (← scan c s)) l.sources :
    InMemory (Except Failure _)) m
  ((judge c l (fun p => (c.natives.registry.lookup? p).isSome) (scanned.1.toOption.getD []) : InMemory _) scanned.2).1

/-- Whether every module that was kept is outdated for a build: older than its source, than a source that this one imports,
directly or not, or than the compiler. -/
def allOutdated (c : Config) (l : Layout) (m : Memory) : Bool := (judged c l m).all fun j => !j.2

theorem judge_of_allOutdated (hold : allOutdated c l base = true) {scans : List Scan}
    (hscan : (stage (workersFor l.sources.length c.workers) (fun s => do return .ok (← scan c s)) l.sources :
      InMemory (Except Failure _)) base = (.ok scans, m)) :
    (judge c l (fun p => (c.natives.registry.lookup? p).isSome) scans : InMemory _) m =
      (scans.map fun sc => (sc, false), m) := by
  obtain ⟨flags, hflags, hjudge⟩ := judge_apply (c := c) (l := l) (m := m)
    (fun p => (c.natives.registry.lookup? p).isSome) scans
  unfold allOutdated judged at hold
  rw [hscan] at hold
  simp only [Except.toOption, Option.getD_some, hjudge, List.all_eq_true, Bool.not_eq_true'] at hold
  rw [hjudge]
  congr 1
  calc scans.zip flags
      = (scans.zip flags).map fun j => (j.1, false) := (List.map_id _).symm.trans
        (List.map_congr_left fun j hj => Prod.ext rfl (hold j hj))
    _ = ((scans.zip flags).map Prod.fst).map fun sc => (sc, false) := by rw [List.map_map]; rfl
    _ = scans.map fun sc => (sc, false) := by rw [List.map_fst_zip (Nat.le_of_eq hflags.symm)]

/-- Modules that are older than their own sources are outdated. -/
theorem allOutdated_of_outdated (h : Secluded c l base) (hold : ∀ s ∈ l.sources, outdated c base s = true) :
    allOutdated c l base = true := by
  obtain ⟨scans, m₁, hscan, hscans, hm₁⟩ := scan_stage h (workersFor_pos l.sources.length c.workers)
  unfold allOutdated judged
  rw [hscan]
  simp only [Except.toOption, Option.getD_some, judge_outdated h hold hscans hm₁]
  simp

/-- A build whose cached modules are outdated makes its modules from what its sources say. -/
theorem runStages_outdated (h : Secluded c l base) (hold : allOutdated c l base = true) :
    ∃ stats m', (runStages c l : InMemory _) base = (.ok
      { products := (finished c l (l.sources.map (reading c base))).1,
        problems := (finished c l (l.sources.map (reading c base))).2, stats }, m') ∧
      Beside (cachePlaces c base.directory) base m' := by
  have hw := workersFor_pos l.sources.length c.workers
  obtain ⟨scans, m₁, hscan, hscans, hm₁⟩ := scan_stage h hw
  obtain ⟨m₂, hload, hm₂⟩ := load_stage hscans hm₁ hw
  have hcache := hm₂.mono importsPlaces_subset h.files_cache
  unfold runStages finished
  rw [run_mk_bind hscan, run_lift_bind, judge_of_allOutdated hold hscan, run_mk_bind hload]
  simp only
  split
  · exact ⟨_, _, rfl, hcache⟩
  · generalize analyze c.natives.registry l _ c.natives.store = analysis
    obtain ⟨⟨problems, analyzed⟩, store'⟩ := analysis
    simp only
    split
    · exact ⟨_, _, rfl, hcache⟩
    · obtain ⟨m₃, hproduce, hm₃⟩ := produce_stage h hcache store' analyzed hw
      rw [run_mk_bind hproduce]
      split <;> exact ⟨_, _, rfl, hm₃⟩

end Weft.Build
