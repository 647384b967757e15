import Weft.Proofs.Build.Files
import Weft.Proofs.Build.Outdated

/-!
# What sources hold

A build finds what its sources hold in the files as they were before it. The lists of imports that it keeps on the way are at
other places.
-/

namespace Weft.Build

open Bytecode Memory

variable {c : Config} {l : Layout} {m base : Memory} {s : Source} {sc : Scan} {text : Bytes}

/-- The paths that a build writes lead to other places than those that it uses besides: the artifact is at no place of a cache
file or of the file for problems, no source is where a list of imports is kept, and the hash that names cache files does not
give one place to the modules of different files. -/
structure Apart (c : Config) (l : Layout) (directory : String) : Prop where
  cache : ∀ p ∈ c.output, ∀ s ∈ l.sources, ∀ f ∈ c.cacheFiles? s,
    goal directory p ≠ goal directory f.imports ∧ goal directory p ≠ goal directory f.module
  errors : ∀ p ∈ c.output, ∀ e ∈ c.errorFile, goal directory p ≠ goal directory e
  sources : ∀ s ∈ l.sources, ∀ o ∈ l.sources, ∀ f ∈ c.cacheFiles? o, goal directory s.path ≠ goal directory f.imports
  noCollision : ∀ s ∈ l.sources, ∀ o ∈ l.sources, ∀ f ∈ c.cacheFiles? s, ∀ g ∈ c.cacheFiles? o,
    goal directory f.module = goal directory g.module → s.place = o.place

instance (c : Config) (l : Layout) (directory : String) : Decidable (Apart c l directory) :=
  decidable_of_iff
    ((∀ p ∈ c.output, ∀ s ∈ l.sources, ∀ f ∈ c.cacheFiles? s,
        goal directory p ≠ goal directory f.imports ∧ goal directory p ≠ goal directory f.module) ∧
      (∀ p ∈ c.output, ∀ e ∈ c.errorFile, goal directory p ≠ goal directory e) ∧
      (∀ s ∈ l.sources, ∀ o ∈ l.sources, ∀ f ∈ c.cacheFiles? o, goal directory s.path ≠ goal directory f.imports) ∧
      ∀ s ∈ l.sources, ∀ o ∈ l.sources, ∀ f ∈ c.cacheFiles? s, ∀ g ∈ c.cacheFiles? o,
        goal directory f.module = goal directory g.module → s.place = o.place)
    ⟨fun ⟨cache, errors, sources, noCollision⟩ => ⟨cache, errors, sources, noCollision⟩,
      fun ⟨cache, errors, sources, noCollision⟩ => ⟨cache, errors, sources, noCollision⟩⟩

/-- The text of a source: the bytes of its file with its conditions applied. -/
def HasText (c : Config) (m : Memory) (s : Source) (text : Bytes) : Prop :=
  ∃ b t, m.file? (goal m.directory s.path) = some (b, t) ∧ Directive.apply c.defined b = .ok text

/-- What a source can hold: the tree of its text, if that is read without problems, or the module that is kept of it, if that
has its name. -/
inductive Holds (c : Config) (m : Memory) (s : Source) : Content → Prop
  | parsed {text : Bytes} {tree : Tree.File} (hasText : HasText c m s text) (parse : Tree.parseFile s.path text = (tree, [])) :
    Holds c m s (.parsed tree)
  | cached {f : CacheFiles} {data : Bytes} {t : Int} {module : Compiled} (kept : c.cacheFiles? s = some f)
      (file : m.file? (goal m.directory f.module) = some (data, t)) (decode : Compiled.decode data = .ok module)
      (name : module.name = s.module) : Holds c m s (.cached data module)

namespace Apart

variable (h : Apart c l base.directory)
include h

theorem source_notMem (hs : s ∈ l.sources) : goal base.directory s.path ∉ importsPlaces c l base.directory := by
  rintro ⟨o, ho, f, hf, he⟩
  exact h.sources s hs o ho f hf he

/-- What is read of a source on the way is what its file said before. -/
theorem hasText_of_textOf (hm : Outside (importsPlaces c l base.directory) base m) (hs : s ∈ l.sources)
    (ht : textOf c m s.path = .ok text) : HasText c base s text := by
  unfold textOf at ht
  cases hread : m.read s.path with
  | error f => rw [hread] at ht; cases ht
  | ok b =>
    rw [hread] at ht
    obtain ⟨t, hfile⟩ := file?_of_read hread
    rw [hm.directory, hm.file _ (h.source_notMem hs)] at hfile
    refine ⟨b, t, hfile, ?_⟩
    cases happly : Directive.apply c.defined b with
    | error e => simp [happly, Except.mapError] at ht
    | ok text' =>
      simp only [happly, Except.mapError, Except.ok.injEq] at ht
      rw [ht]

end Apart

/-! ## Scans -/

/-- A scan of a source, which may have its text. -/
structure ScanOf (c : Config) (base : Memory) (s : Source) (sc : Scan) : Prop where
  source : sc.source = s
  text : ∀ text ∈ sc.text, HasText c base s text

theorem confined_keepImports {imports : List String} {directory : String} (hs : s ∈ l.sources) :
    Confined (importsPlaces c l directory) directory (keepImports c s imports : InMemory _) := by
  unfold keepImports
  cases hf : c.cacheFiles? s with
  | none => exact .pure _
  | some f =>
    refine (confined_write.bind fun _ => Confined.pure _).mono ?_
    rintro _ rfl
    exact ⟨s, hs, f, hf, rfl⟩

theorem scan_of (h : Apart c l base.directory) (hm : Outside (importsPlaces c l base.directory) base m) (hs : s ∈ l.sources) :
    ScanOf c base s ((scan c s : InMemory _) m).1 ∧
      Outside (importsPlaces c l base.directory) base ((scan c s : InMemory _) m).2 := by
  unfold scan
  rw [bind_apply, stat_apply]
  cases m.statOf s.path with
  | error cause => exact ⟨⟨rfl, fun _ ht => nomatch ht⟩, hm⟩
  | ok st =>
    simp only
    rw [bind_apply, cachedImports_snd]
    cases ((cachedImports c s st.time : InMemory _) m).1 with
    | some imports => exact ⟨⟨rfl, fun _ ht => nomatch ht⟩, hm⟩
    | none =>
      simp only
      rw [bind_apply, readText_apply]
      cases ht : textOf c m s.path with
      | error d => exact ⟨⟨rfl, fun _ ht => nomatch ht⟩, hm⟩
      | ok text =>
        simp only
        rw [bind_apply]
        refine ⟨⟨rfl, fun text' htext => ?_⟩, hm.trans (confined_keepImports hs hm.directory)⟩
        obtain rfl := Option.some.inj htext
        exact h.hasText_of_textOf hm hs ht

/-! ## Contents -/

/-- What was found of a source: if it has no problems, it is known what it holds, and the module that is kept of it can still
be read. -/
structure Gathered (c : Config) (base m : Memory) (s : Source) (x : Loaded) : Prop where
  source : x.source = s
  content : x.problems = [] → ∃ content ∈ x.content, Holds c base s content ∧
    ∀ data module, content = .cached data module → ∀ f ∈ c.cacheFiles? s, m.read f.module = .ok data

theorem cachedModule_apply : ∃ found, (cachedModule c s : InMemory _) m = (found, m) ∧ ∀ content ∈ found,
    ∃ f data module, c.cacheFiles? s = some f ∧ m.read f.module = .ok data ∧ Compiled.decode data = .ok module ∧
      module.name = s.module ∧ content = .cached data module := by
  unfold cachedModule
  cases c.cacheFiles? s with
  | none => exact ⟨none, rfl, fun _ h => nomatch h⟩
  | some f =>
    simp only
    rw [bind_apply, read_apply]
    cases hread : m.read f.module with
    | error e => exact ⟨none, rfl, fun _ h => nomatch h⟩
    | ok data =>
      simp only
      cases hdecode : Compiled.decode data with
      | error e => exact ⟨none, rfl, fun _ h => nomatch h⟩
      | ok module =>
        simp only
        refine ⟨_, rfl, fun content hcontent => ?_⟩
        split at hcontent
        · next hname =>
          obtain rfl := Option.some.inj hcontent
          exact ⟨f, data, module, rfl, hread, hdecode, hname, rfl⟩
        · cases hcontent

theorem gathered_parse (h : Apart c l base.directory) (hm : Outside (importsPlaces c l base.directory) base m)
    (hs : s ∈ l.sources) (hsc : ScanOf c base s sc) :
    Gathered c base m s (parsedAs sc.source (sc.text.elim (textOf c m sc.source.path) .ok)) := by
  obtain rfl := hsc.source
  have hheld : ∀ text, sc.text.elim (textOf c m sc.source.path) .ok = .ok text → HasText c base sc.source text := by
    intro text ht
    cases hsaid : sc.text with
    | none =>
      rw [hsaid] at ht
      exact h.hasText_of_textOf hm hs ht
    | some text' =>
      rw [hsaid] at ht
      obtain rfl := Except.ok.inj ht
      exact hsc.text _ hsaid
  cases htext : sc.text.elim (textOf c m sc.source.path) Except.ok with
  | error d => exact ⟨rfl, fun hp => nomatch hp⟩
  | ok text =>
    refine ⟨rfl, fun hp => ⟨_, rfl, .parsed (hheld text htext) (Prod.ext rfl hp), fun _ _ hc => nomatch hc⟩⟩

theorem load_gathered (h : Apart c l base.directory) (hm : Outside (importsPlaces c l base.directory) base m)
    (hs : s ∈ l.sources) (hsc : ScanOf c base s sc) (fresh : Bool) :
    ∃ x, (load c sc fresh : InMemory _) m = (x, m) ∧ Gathered c base m s x := by
  have hread : ∃ x, (parse c sc : InMemory _) m = (x, m) ∧ Gathered c base m s x :=
    ⟨_, parse_apply, gathered_parse h hm hs hsc⟩
  unfold load
  cases hp : sc.problems.isEmpty with
  | false =>
    refine ⟨_, rfl, hsc.source, fun hnone => ?_⟩
    have hempty : sc.problems = [] := hnone
    simp [hempty] at hp
  | true =>
    cases fresh with
    | false => exact hread
    | true =>
      obtain ⟨found, hrun, hfound⟩ := cachedModule_apply (c := c) (s := sc.source) (m := m)
      simp only [Bool.not_true, Bool.false_eq_true, if_false, if_true]
      rw [bind_apply, hrun]
      cases found with
      | none => exact hread
      | some content =>
        obtain rfl := hsc.source
        obtain ⟨f, data, module, hf, hdata, hdecode, hname, rfl⟩ := hfound content rfl
        obtain ⟨t, hfile⟩ := file?_of_read hdata
        rw [hm.directory, hm.file _ (module_notMem_importsPlaces hf)] at hfile
        refine ⟨_, rfl, rfl, fun _ => ⟨_, rfl, .cached hf hfile hdecode hname, ?_⟩⟩
        rintro data' module' ⟨⟩ f' hf'
        obtain rfl := Option.some.inj (hf.symm.trans hf')
        exact hdata

/-! ## The first stages -/

/-- The first stages of a build find out what the sources hold, and keep lists of imports. -/
theorem gather (h : Apart c l base.directory) (hm : Outside (importsPlaces c l base.directory) base m)
    (native : String → Bool) {workers : Nat} (hw : 0 < workers) : ∃ scans judged loaded m',
    (stage workers (fun s => do return .ok (← scan c s)) l.sources : InMemory (Except Failure _)) m = (.ok scans, m') ∧
      (judge c l native scans : InMemory _) m' = (judged, m') ∧
      (stage workers (fun (sc, fresh) => do return .ok (← load c sc fresh)) judged : InMemory (Except Failure _)) m' =
        (.ok loaded, m') ∧
      Outside (importsPlaces c l base.directory) base m' ∧ List.Forall₂ (Gathered c base m') l.sources loaded := by
  obtain ⟨scans, m', hscan, hscans, hm'⟩ := stage_holds (Outside (importsPlaces c l base.directory) base)
    (ScanOf c base) (fun s => do return .ok (← scan c s) : Source → InMemory (Except Failure Scan)) hw (fun _ hs _ hm => ⟨_, rfl, scan_of h hm hs⟩) hm
  obtain ⟨flags, hflags, hjudge⟩ := judge_apply (c := c) (l := l) (m := m') native scans
  have hsources : (scans.zip flags).map (·.1.source) = l.sources := by
    have hsource := eq_map_of_forall₂ hscans (f := id) fun _ _ hsc => hsc.source
    calc (scans.zip flags).map (·.1.source) = ((scans.zip flags).map Prod.fst).map Scan.source := by rw [List.map_map]; rfl
      _ = scans.map Scan.source := by rw [List.map_fst_zip (Nat.le_of_eq hflags.symm)]
      _ = l.sources := by rw [hsource, List.map_id]
  have hstep : ∀ x ∈ scans.zip flags, ∀ m₁, m' = m₁ →
      ∃ b, ((fun (sc, fresh) => do return .ok (← load c sc fresh) : Scan × Bool → InMemory (Except Failure Loaded)) x m₁).1 =
        .ok b ∧ Gathered c base m' x.1.source b ∧
          m' = ((fun (sc, fresh) => do return .ok (← load c sc fresh) : Scan × Bool → InMemory (Except Failure Loaded)) x m₁).2 := by
    rintro ⟨sc, fresh⟩ hx _ rfl
    obtain ⟨s, hs, hsc⟩ := exists_of_forall₂ hscans (List.of_mem_zip hx).1
    obtain ⟨x, hload, hx⟩ := load_gathered h hm' hs hsc fresh
    refine ⟨x, ?_, hsc.source ▸ hx, ?_⟩
    · change Except.ok ((load c sc fresh : InMemory _) m').1 = _
      rw [hload]
    · change _ = ((load c sc fresh : InMemory _) m').2
      rw [hload]
  obtain ⟨loaded, m'', hload, hloaded, rfl⟩ := stage_holds (m' = ·) _ _ hw hstep rfl
  refine ⟨scans, scans.zip flags, loaded, m', hscan, hjudge, hload, hm', ?_⟩
  rw [← hsources]
  exact List.forall₂_map_left_iff.mpr hloaded

/-- Sources that were found without problems, with what they hold. -/
theorem contents_of_gathered {sources : List Source} {loaded : List Loaded} (h : List.Forall₂ (Gathered c base m) sources loaded)
    (hp : ∀ x ∈ loaded, x.problems = []) :
    (loaded.filterMap fun x => x.content.map fun content => (x.source, content)).map Prod.fst = sources ∧
      ∀ x ∈ loaded.filterMap fun x => x.content.map fun content => (x.source, content), Holds c base x.1 x.2 ∧
        ∀ data module, x.2 = .cached data module → ∀ f ∈ c.cacheFiles? x.1, m.read f.module = .ok data := by
  induction h with
  | nil => simp
  | @cons s x sources loaded hx _ ih =>
    rw [List.forall_mem_cons] at hp
    obtain ⟨hsources, hall⟩ := ih hp.2
    obtain ⟨content, hcontent, hholds⟩ := hx.content hp.1
    obtain rfl := hx.source
    rw [List.filterMap_cons_some (by rw [Option.mem_def.mp hcontent]; rfl)]
    refine ⟨by rw [List.map_cons, hsources], ?_⟩
    rw [List.forall_mem_cons]
    exact ⟨hholds, hall⟩

end Weft.Build
