import Weft.Proofs.Build.Outdated

/-!
# Builds with an empty cache directory

What is kept between builds is found by the times of files alone, and nothing in it says with which settings it was made.
A build gives what it gives with an empty cache directory if what was kept is outdated; with other settings and nothing
outdated it need not.
-/

namespace Weft.Build

open Memory

variable {c : Config} {l : Layout} {m m' : Memory}

/-- What a build says of a project: all of its result but for the counts. -/
def Result.told (r : Result) : Option String × List String × List Diagnostic := (r.artifact, r.modules, r.diagnostics)

/-- The files with nothing inside the cache directory of a build. -/
def emptied (c : Config) (m : Memory) : Memory := m.without (cachePlaces c m.directory)

/-! ## Results -/

/-- The counts take no part in what is written and in what is said. -/
theorem conclude_counts (c : Config) (m : Memory) (products : List Product) (problems : List Diagnostic)
    (counts counts' : Stats) :
    ((conclude c ⟨products, problems, counts⟩ : InMemory _) m).1.map Result.told =
        ((conclude c ⟨products, problems, counts'⟩ : InMemory _) m).1.map Result.told ∧
      ((conclude c ⟨products, problems, counts⟩ : InMemory _) m).2 =
        ((conclude c ⟨products, problems, counts'⟩ : InMemory _) m).2 := by
  unfold conclude
  simp only
  split
  · rw [bind_apply, bind_apply]
    cases ((writeArtifact c (ordered c products) : InMemory _) m).1 <;> exact ⟨rfl, rfl⟩
  · rw [bind_apply, bind_apply]
    cases ((writeProblems c (Diagnostic.sort problems) : InMemory _) m).1 <;> exact ⟨rfl, rfl⟩

section Blind

variable {places : Set (List String)} {directory : String}

theorem blind_writeArtifact (hstages : ∀ p ∈ c.output, ∀ s ∈ Path.stages (Path.parent p), Clear places directory s)
    (houtput : ∀ p ∈ c.output, Clear places directory p) {products : List Product} :
    Blind places directory (writeArtifact c products : InMemory _) := by
  unfold writeArtifact
  cases hc : c.output with
  | none => exact Blind.pure _
  | some path =>
    simp only
    cases Artifact.encode c.encoding (products.map (Product.entry c)) with
    | error name => exact Blind.pure _
    | ok data =>
      refine Blind.bind (blind_makeDirectory (hstages path hc)) fun made => ?_
      cases made with
      | error f => exact Blind.pure _
      | ok _ => exact Blind.bind (blind_write (houtput path hc)) fun _ => Blind.pure _

theorem blind_writeProblems (herror : ∀ p ∈ c.errorFile, Clear places directory p) {problems : List Diagnostic} :
    Blind places directory (writeProblems c problems : InMemory _) := by
  unfold writeProblems
  split
  · exact Blind.pure _
  · exact Blind.pure _
  · next path _ hc => exact Blind.bind (blind_write (herror path hc)) fun _ => Blind.pure _

theorem blind_conclude (h : ∀ p ∈ usedPaths c l, Clear places directory p) {o : Outcome} :
    Blind places directory (conclude c o : InMemory _) := by
  have houtput : ∀ p ∈ c.output, Clear places directory p := fun p hp => h p (by simp [usedPaths, Option.mem_def.mp hp])
  have herror : ∀ p ∈ c.errorFile, Clear places directory p := fun p hp => h p (by simp [usedPaths, Option.mem_def.mp hp])
  have hstages : ∀ p ∈ c.output, ∀ s ∈ Path.stages (Path.parent p), Clear places directory s :=
    fun p hp s hs => h s (by simp [usedPaths, Option.mem_def.mp hp, hs])
  unfold conclude
  simp only
  split
  · refine Blind.bind (blind_writeArtifact hstages houtput) fun written => ?_
    cases written <;> exact Blind.pure _
  · refine Blind.bind (blind_writeProblems herror) fun written => ?_
    cases written <;> exact Blind.pure _

end Blind

/-! ## Empty cache directories -/

theorem makeAll_found {ps : List String} (h : ∀ p ∈ ps, m.find p = .ok .directory) : m.makeAll ps = .ok m := by
  induction ps with
  | nil => rfl
  | cons p ps ih =>
    rw [List.forall_mem_cons] at h
    rw [makeAll, h.1]
    exact ih h.2

/-- A cache directory that is there is not made again. -/
theorem prepareCache_ready (h : Secluded c l m) : (prepareCache c : InMemory _) m = (.ok ⟨⟩, m) := by
  unfold prepareCache
  cases hd : c.cacheDir with
  | none => rfl
  | some d =>
    have hmake : m.makeDirectory d = .ok m := makeAll_found (find_stages (h.ready d hd))
    simp only
    rw [bind_apply, makeDirectory_apply, InMemory.change, hmake]
    rfl

namespace Secluded

variable (h : Secluded c l m)
include h

theorem beside_emptied : Beside (cachePlaces c m.directory) m (emptied c m) := beside_without h.files_cache

theorem emptied : Secluded c l (emptied c m) where
  ready d hd := h.beside_emptied.find_of_directory (h.ready d hd)
  files e he := h.files e (List.mem_filter.mp he).1
  apart := h.apart

/-- Nothing is kept in an empty cache directory. -/
theorem moduleTimeOf_emptied {s : Source} : moduleTimeOf c (Build.emptied c m) s = none := by
  unfold moduleTimeOf
  cases hf : c.cacheFiles? s with
  | none => rfl
  | some f =>
    have hgone : (Build.emptied c m).node? (goal m.directory f.module) = none := by
      rw [Build.emptied, node?_without, if_pos (module_mem_cachePlaces hf)]
    have hfind : (Build.emptied c m).find f.module = .error .missing := by
      rw [find, (cacheFiles_locate h.emptied.ready hf).2]
      simp only
      rw [show goal (Build.emptied c m).directory f.module = goal m.directory f.module from rfl, hgone]
    rw [Option.bind_some, Memory.statOf, hfind]
    rfl

theorem reading_eq (hbeside : Beside (cachePlaces c m.directory) m m') {s : Source} (hs : s ∈ l.sources) :
    reading c m' s = reading c m s := by
  have hclear := h.apart s.path (by simp only [usedPaths, List.mem_append, List.mem_map]; grind)
  unfold reading textOf
  rw [hbeside.statOf hclear, hbeside.read hclear]

end Secluded

/-! ## Builds -/

theorem run_of_stages {o : Outcome} (hencoding : ¬(c.encoding = .ref ∧ c.cacheDir.isNone))
    (hl : Layout.new m.directory c.includes c.files = l) (h : Secluded c l m)
    (hstages : (runStages c l : InMemory _) m = (.ok o, m')) :
    (run c : InMemory _) m = (conclude c o : InMemory _) m' := by
  have hdirectory : (Disk.directory : InMemory _) m = (m.directory, m) := rfl
  unfold run
  rw [if_neg hencoding, run_mk_bind (prepareCache_ready h), run_lift_bind, hdirectory, hl, run_mk_bind hstages,
    ExceptT.run_mk]

/-- Builds of the same sources say and write the same where their files differ inside the cache directory alone, as long as
what is kept there is outdated. -/
theorem run_beside (hl : Layout.new m.directory c.includes c.files = l) (h : Secluded c l m) (h' : Secluded c l m')
    (hbeside : Beside (cachePlaces c m.directory) m m') (hold : allOutdated c l m = true)
    (hold' : allOutdated c l m' = true) :
    ((run c : InMemory _) m).1.map Result.told = ((run c : InMemory _) m').1.map Result.told ∧
      Beside (cachePlaces c m.directory) ((run c : InMemory _) m).2 ((run c : InMemory _) m').2 ∧
        ((run c : InMemory _) m).2.directory = m.directory := by
  by_cases hencoding : c.encoding = .ref ∧ c.cacheDir.isNone
  · have hrun : ∀ m : Memory, (run c : InMemory _) m = (.error .refWithoutCache, m) := by
      intro m
      unfold run
      rw [if_pos hencoding]
      rfl
    rw [hrun, hrun]
    exact ⟨rfl, hbeside, rfl⟩
  · have hreading : l.sources.map (reading c m') = l.sources.map (reading c m) :=
      List.map_congr_left fun s hs => h.reading_eq hbeside hs
    obtain ⟨counts, m₁, hstages, hm₁⟩ := runStages_outdated h hold
    obtain ⟨counts', m₂, hstages', hm₂⟩ := runStages_outdated h' hold'
    rw [hreading] at hstages'
    rw [hbeside.directory] at hm₂
    obtain ⟨htold, hfiles, hdirectory⟩ :=
      blind_conclude h.apart (o := ⟨_, _, counts⟩) hm₁.directory (hm₁.symm.trans (hbeside.trans hm₂))
    obtain ⟨hcounts, hstate⟩ := conclude_counts c m₂ _ _ counts' counts
    rw [run_of_stages hencoding hl h hstages, run_of_stages hencoding (hbeside.directory ▸ hl) h' hstages', hcounts, hstate,
      htold]
    exact ⟨rfl, hfiles, hdirectory⟩

/-- A build says and writes what it says and writes with an empty cache directory if each module that was kept is older than
its source, than a source that this one imports, directly or not, or than the compiler. The settings that it was made with
do not matter: neither names that were defined nor others. -/
theorem run_outdated (h : Secluded c (.new m.directory c.includes c.files) m)
    (hold : allOutdated c (.new m.directory c.includes c.files) m = true) :
    ((run c : InMemory _) m).1.map Result.told = ((run c : InMemory _) (emptied c m)).1.map Result.told ∧
      ∀ p ∈ c.output, ((run c : InMemory _) m).2.read p = ((run c : InMemory _) (emptied c m)).2.read p := by
  have hold' : allOutdated c (.new m.directory c.includes c.files) (emptied c m) = true := by
    refine allOutdated_of_outdated h.emptied fun s _ => ?_
    rw [outdated, h.moduleTimeOf_emptied]
    rfl
  obtain ⟨htold, hfiles, hdirectory⟩ := run_beside rfl h h.emptied h.beside_emptied hold hold'
  refine ⟨htold, fun p hp => (hfiles.read ?_).symm⟩
  rw [hdirectory]
  exact h.apart p (by simp [usedPaths, Option.mem_def.mp hp])

/-! ## A file that is a program only where a name is not defined -/

/-- A file that is a program only where a name is not defined, and a compiler that is older than it. -/
def guarded : Memory :=
  let m := (Memory.new "/w").put ["w", "m.loom"] (.file (Text.encode "#if X\n\x7d\n#endif\n") 1)
  { m.put ["w", "k"] (.file [] 0) with now := 2 }

/-- A build of this file with some names defined. The hash is that of its place. -/
def guardedWith (defines : List String) : Config :=
  { Config.empty with
    files := ["m.loom"], includes := ["."], cacheDir := some "c", output := some "a", defines, compiler := some "k",
    hash := fun _ => 0xF64BC39611CD60EF }

/-- The files after a build without the name. -/
def guardedBuilt : Memory := ((run (guardedWith []) : InMemory _) guarded).2

set_option maxRecDepth 100000 in
/-- After the source was touched, a build with the name defined says what it says with an empty cache directory. -/
theorem run_guarded_touched :
    let m := guardedBuilt.touch "m.loom" 3
    let c := guardedWith ["X"]
    Secluded c (.new m.directory c.includes c.files) m ∧
      allOutdated c (.new m.directory c.includes c.files) m = true ∧
        ((run c : InMemory _) m).1.map Result.told = ((run c : InMemory _) (emptied c m)).1.map Result.told ∧
          ∀ p ∈ c.output, ((run c : InMemory _) m).2.read p = ((run c : InMemory _) (emptied c m)).2.read p := by
  intro m c
  obtain ⟨h, hold⟩ : Secluded c (.new m.directory c.includes c.files) m ∧
      allOutdated c (.new m.directory c.includes c.files) m = true := by
    decide +kernel
  exact ⟨h, hold, run_outdated h hold⟩

set_option maxRecDepth 100000 in
/-- As long as the source is not touched, a build with the name defined takes the module that was kept without it, and says
nothing of the problem that it finds with an empty cache directory. -/
theorem run_guarded_untouched :
    ((run (guardedWith ["X"]) : InMemory _) guardedBuilt).1.map Result.told ≠
      ((run (guardedWith ["X"]) : InMemory _) (emptied (guardedWith ["X"]) guardedBuilt)).1.map Result.told := by
  obtain ⟨hkept, hempty⟩ :
      (((run (guardedWith ["X"]) : InMemory _) guardedBuilt).1.map Result.told).toOption.map (·.2.2.length) = some 0 ∧
      (((run (guardedWith ["X"]) : InMemory _) (emptied (guardedWith ["X"]) guardedBuilt)).1.map
        Result.told).toOption.map (·.2.2.length) = some 1 := by
    decide +kernel
  intro h
  rw [h, hempty] at hkept
  cases hkept

end Weft.Build
