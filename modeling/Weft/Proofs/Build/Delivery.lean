import Weft.Proofs.Artifact.PrefixCode
import Weft.Proofs.Build.Emptied
import Weft.Proofs.Build.Produced
import Weft.Proofs.Bytecode.Origins

/-!
# Builds are all or nothing

A build either leaves the file for the artifact as it was, or writes an artifact of one module for each of its sources. What
it writes does not depend on how the work is shared out.
-/

namespace Weft.Build

open Bytecode Memory

variable {c : Config} {l : Layout} {m m' base : Memory} {directory path : String} {store : Store} {a : Analyzed}
  {products : List Product}

/-! ## What is delivered -/

/-- An analysis of all sources of a build that finds no problem. -/
structure Accepted (c : Config) (l : Layout) (m : Memory) (analyzed : List Analyzed) (store : Store) : Prop where
  sources : analyzed.map Analyzed.source = l.sources
  holds : ∀ a ∈ analyzed, Holds c m a.source a.content
  quiet : analyze c.natives.registry l (analyzed.map fun a => (a.source, a.content)) c.natives.store = (([], analyzed), store)

/-- The bytes of the module of an analyzed source: those of the module that was kept of it, or those of the module that its
program is compiled to, which has its name. -/
inductive ModuleBytes (store : Store) (a : Analyzed) : Bytes → Prop
  | cached {data : Bytes} {module : Compiled} (kept : a.content = .cached data module) : ModuleBytes store a data
  | compiled {tree : Tree.File} {items : List Analysis.Item} {imports : List Analysis.Imported} {p : Typed.Program}
      {module : Compiled} (read : a.content = .parsed tree) (unit : a.unit.source = .fresh tree items imports)
      (program : a.unit.program? = some p) (compile : compile store a.unit.module p = .ok module)
      (name : module.name = a.source.module) : ModuleBytes store a module.encode

/-- Sources in the order of an artifact: that of the files, or that of their paths, where sources with one path keep their
order. -/
def Arranged (c : Config) (sources arranged : List Source) : Prop :=
  if c.deterministic then
    arranged.Perm sources ∧ arranged.Pairwise (fun s o => s.path ≤ o.path) ∧
      ∀ s o, s.path ≤ o.path → [s, o].Sublist sources → [s, o].Sublist arranged
  else arranged = sources

/-- The modules of a build: one for each source, with the bytes of the module that was kept of it or that it is compiled to. -/
structure Delivered (c : Config) (l : Layout) (m : Memory) (products : List Product) : Prop where
  files : l.sources.map Source.path = c.files.map Path.clean
  order : Arranged c l.sources (products.map Product.source)
  modules : ∃ analyzed store, Accepted c l m analyzed store ∧
    ∀ p ∈ products, ∃ a ∈ analyzed, a.source = p.source ∧ ModuleBytes store a p.data

theorem perm_ordered : (ordered c products).Perm products := by
  unfold ordered
  split
  · exact List.mergeSort_perm _ _
  · exact .refl _

theorem arranged_ordered : Arranged c (products.map Product.source) ((ordered c products).map Product.source) := by
  unfold Arranged ordered
  split
  · have hsort : (products.mergeSort fun a b => a.source.path ≤ b.source.path).map Product.source =
        (products.map Product.source).mergeSort fun s o => s.path ≤ o.path := List.map_mergeSort fun _ _ _ _ => rfl
    have htrans : ∀ s o t : Source, decide (s.path ≤ o.path) = true → decide (o.path ≤ t.path) = true →
        decide (s.path ≤ t.path) = true := by
      simp only [decide_eq_true_eq]
      exact fun _ _ _ => String.le_trans
    have htotal : ∀ s o : Source, (decide (s.path ≤ o.path) || decide (o.path ≤ s.path)) = true := by
      simp only [Bool.or_eq_true, decide_eq_true_eq]
      exact fun _ _ => String.le_total _ _
    rw [hsort]
    refine ⟨List.mergeSort_perm _ _, ?_, fun s o hle hpair => ?_⟩
    · exact (List.pairwise_mergeSort htrans htotal _).imp of_decide_eq_true
    · exact List.pair_sublist_mergeSort htrans htotal (decide_eq_true hle) hpair
  · rfl

/-- A source that is compiled without problems has the bytes of its module. -/
theorem produced_sound (hu : UnitOf (a.source, a.content) a.unit) (hp : (produced c store a).problems = []) :
    ModuleBytes store a (produced c store a).data ∧
      (a.content.isParsed = true → (produced c store a).compiled = true) := by
  unfold produced at hp ⊢
  cases ha : a.content with
  | cached data module => exact ⟨.cached ha, fun h => nomatch h⟩
  | parsed tree =>
    rw [ha] at hp
    cases hprogram : a.unit.program? with
    | none => rw [hprogram] at hp; cases hp
    | some p =>
      rw [hprogram] at hp
      simp only at hp ⊢
      cases hreview : c.review a.unit with
      | some text => rw [hreview] at hp; cases hp
      | none =>
        rw [hreview] at hp
        simp only at hp ⊢
        cases hmodule : compiledModule store a p with
        | error v => rw [hmodule] at hp; cases hp
        | ok data =>
          refine ⟨?_, fun _ => rfl⟩
          obtain ⟨items, imports, hunit⟩ := hu.tree tree ha
          unfold compiledModule at hmodule
          cases hcompile : compile store a.unit.module p with
          | error v => rw [hcompile] at hmodule; cases hmodule
          | ok module =>
            rw [hcompile] at hmodule
            obtain rfl := Except.ok.inj hmodule
            exact .compiled ha hunit hprogram hcompile ((compile_fields hcompile).2.1.trans hu.name)

/-! ## The stages -/

/-- The places of the files that a build keeps of its sources. -/
def keptPlaces (c : Config) (l : Layout) (directory : String) : Set (List String) :=
  {q | ∃ s ∈ l.sources, ∃ f ∈ c.cacheFiles? s, q = goal directory f.imports ∨ q = goal directory f.module}

theorem importsPlaces_subset_kept : importsPlaces c l directory ⊆ keptPlaces c l directory := by
  rintro q ⟨s, hs, f, hf, he⟩
  exact ⟨s, hs, f, hf, .inl he⟩

theorem storedPlaces_subset_kept (ha : a.source ∈ l.sources) : storedPlaces c directory a ⊆ keptPlaces c l directory := by
  rintro q ⟨-, f, hf, he⟩
  exact ⟨a.source, ha, f, hf, .inr he⟩

/-- What the stages of a build leave if they find no problem: the modules of all sources, which can be read where they are
referred to. -/
structure Made (c : Config) (l : Layout) (base m : Memory) (products : List Product) : Prop where
  sources : products.map Product.source = l.sources
  modules : ∃ analyzed store, Accepted c l base analyzed store ∧
    ∀ p ∈ products, ∃ a ∈ analyzed, a.source = p.source ∧ ModuleBytes store a p.data
  referred : c.encoding = .ref → ∀ p ∈ products, ∀ f ∈ c.cacheFiles? p.source, m.read f.module = .ok p.data

theorem run_mk_bind_error {α β : Type} {x : InMemory (Except Failure α)} {f : α → ExceptT Failure InMemory β} {e : Failure}
    (hx : x m = (.error e, m')) : (ExceptT.mk x >>= f).run m = (.error e, m') := by
  change (ExceptT.bindCont (m := InMemory) f (x m).1) (x m).2 = _
  rw [hx]
  rfl

/-- A step that does not fail is followed by another that does not. -/
theorem run_mk_bind_ok {α β : Type} {x : InMemory (Except Failure α)} {f : α → ExceptT Failure InMemory β} {b : β}
    (h : (ExceptT.mk x >>= f).run m = (.ok b, m')) : ∃ a m₁, x m = (.ok a, m₁) ∧ (f a).run m₁ = (.ok b, m') := by
  rcases hx : x m with ⟨e | a, m₁⟩
  · rw [run_mk_bind_error hx] at h
    cases h
  · rw [run_mk_bind hx] at h
    exact ⟨a, m₁, rfl, h⟩

theorem source_produced : (produced c store a).source = a.source := by
  unfold produced
  split
  · rfl
  · rfl
  · split
    · rfl
    · split <;> rfl

/-- The modules of sources that are analyzed and compiled without problems. -/
theorem made_of_steps {files : List String} (hl : l = .new base.directory c.includes files) (hapart : Apart c l base.directory)
    {analyzed : List Analyzed} {m₁ : Memory} (hdirectory : m₁.directory = base.directory) (h : Accepted c l base analyzed store)
    (hread : ∀ a ∈ analyzed, ∀ data module, a.content = .cached data module → ∀ f ∈ c.cacheFiles? a.source,
      m₁.read f.module = .ok data)
    (hsteps : Steps (produce c store : Analyzed → InMemory _) analyzed m₁ products m)
    (hp : ∀ p ∈ products, p.problems = []) : Made c l base m products := by
  obtain ⟨hnodup, -, hunits⟩ := analyze_quiet h.quiet
  have hmodules : (analyzed.map (·.source.module)).Nodup := by
    rw [List.map_map] at hnodup
    exact hnodup
  have hsource : ∀ a ∈ analyzed, a.source ∈ l.sources := fun a ha => h.sources ▸ List.mem_map_of_mem ha
  have hplace : ∀ a ∈ analyzed, ∀ b ∈ analyzed, ∀ f ∈ c.cacheFiles? a.source, ∀ g ∈ c.cacheFiles? b.source,
      goal m₁.directory f.module = goal m₁.directory g.module → a = b := by
    intro a ha b hb f hf g hg he
    rw [hdirectory] at he
    have hsame := hapart.noCollision _ (hsource a ha) _ (hsource b hb) f hf g hg he
    exact List.inj_on_of_nodup_map hmodules ha hb (module_of_place (hl ▸ hsource a ha) (hl ▸ hsource b hb) hsame)
  have hplaces : analyzed.Pairwise (KeptApart c m₁.directory) := by
    have hne : analyzed.Pairwise fun a b => a ≠ b := (List.Nodup.of_map _ hmodules)
    exact hne.imp_of_mem fun ha hb hne f hf g hg he => hne (hplace _ ha _ hb f hf g hg he)
  obtain ⟨rfl, houtside, hcompiled⟩ := produce_steps hsteps hplaces
  have hquiet : ∀ a ∈ analyzed, (produced c store a).problems = [] := fun a ha => hp _ (List.mem_map_of_mem ha)
  refine ⟨?_, ⟨analyzed, store, h, ?_⟩, fun href => ?_⟩
  · rw [List.map_map, ← h.sources]
    exact List.map_congr_left fun a _ => source_produced
  · rintro p hp
    obtain ⟨a, ha, rfl⟩ := List.mem_map.mp hp
    exact ⟨a, ha, source_produced.symm, (produced_sound (hunits a ha) (hquiet a ha)).1⟩
  · rintro p hp f hf
    obtain ⟨a, ha, rfl⟩ := List.mem_map.mp hp
    rw [source_produced] at hf
    cases hcontent : a.content with
    | parsed tree =>
      have hdone := (produced_sound (hunits a ha) (hquiet a ha)).2 (by rw [hcontent]; rfl)
      exact hcompiled href a ha hdone f hf
    | cached data module =>
      have hdata : (produced c store a).data = data := by rw [produced, hcontent]
      rw [hdata]
      refine houtside.read ?_ (hread a ha data module hcontent f hf)
      rintro ⟨b, hb, hparsed, g, hg, he⟩
      obtain rfl := hplace b hb a ha g hg f hf he.symm
      rw [hcontent] at hparsed
      cases hparsed

/-- The stages of a build change no files but those that are kept of its sources, and make the modules of all sources or find
problems. -/
theorem runStages_made {files : List String} (hl : l = .new base.directory c.includes files)
    (h : Apart c l base.directory) (hm : Outside ∅ base m) {x : Except Failure Outcome}
    (hrun : (runStages c l : InMemory _) m = (x, m')) :
    Outside (keptPlaces c l base.directory) base m' ∧
      ∀ o, x = .ok o → o.problems = [] → Made c l base m' o.products := by
  have hw := workersFor_pos l.sources.length c.workers
  unfold runStages at hrun
  obtain ⟨scans, judged, loaded, m₁, hscan, hjudge, hload, hm₁, hgathered⟩ :=
    gather h (hm.mono (Set.empty_subset _)) (fun p => (c.natives.registry.lookup? p).isSome) hw
  have hkept : Outside (keptPlaces c l base.directory) base m₁ := hm₁.mono importsPlaces_subset_kept
  rw [run_mk_bind hscan, run_lift_bind, hjudge, run_mk_bind hload] at hrun
  simp only at hrun
  split at hrun
  · next hproblems =>
    obtain ⟨rfl, rfl⟩ := Prod.mk.inj hrun
    refine ⟨hkept, fun o ho hnone => ?_⟩
    obtain rfl := Except.ok.inj ho
    rw [show loaded.flatMap Loaded.problems = [] from hnone] at hproblems
    cases hproblems
  · next hproblems =>
    have hquiet : ∀ x ∈ loaded, x.problems = [] := by simpa using hproblems
    obtain ⟨hsources, hholds⟩ := contents_of_gathered hgathered hquiet
    generalize loaded.filterMap (fun x => x.content.map fun content => (x.source, content)) = contents at *
    rcases hanalyze : analyze c.natives.registry l contents c.natives.store with ⟨⟨problems, analyzed⟩, store'⟩
    rw [hanalyze] at hrun
    simp only at hrun
    split at hrun
    · next hfound =>
      obtain ⟨rfl, rfl⟩ := Prod.mk.inj hrun
      refine ⟨hkept, fun o ho hnone => ?_⟩
      obtain rfl := Except.ok.inj ho
      rw [show problems = [] from hnone] at hfound
      cases hfound
    · next hfound =>
      obtain rfl : problems = [] := by simpa using hfound
      obtain ⟨-, hcontents, -⟩ := analyze_quiet hanalyze
      have haccepted : Accepted c l base analyzed store' := by
        refine ⟨?_, fun a ha => ?_, by rw [hcontents]; exact hanalyze⟩
        · rw [← hsources, ← hcontents, List.map_map]
          rfl
        · exact (hholds _ (hcontents ▸ List.mem_map_of_mem ha)).1
      have hmem : ∀ a ∈ analyzed, a.source ∈ l.sources := fun a ha => haccepted.sources ▸ List.mem_map_of_mem ha
      have hkeeps : Outside (keptPlaces c l base.directory) base
          ((stage (workersFor l.sources.length c.workers) (produce c store') analyzed : InMemory _) m₁).2 := by
        refine stage_keeps (fun a ha s hs => ?_) hkept
        refine hs.trans ((confined_produce store' a hs.directory).mono ?_)
        exact storedPlaces_subset_kept (hmem a ha)
      rcases hstage : (stage (workersFor l.sources.length c.workers) (produce c store') analyzed : InMemory _) m₁ with
        ⟨e | products, m₂⟩
      · rw [hstage] at hkeeps
        rw [run_mk_bind_error hstage] at hrun
        obtain ⟨rfl, rfl⟩ := Prod.mk.inj hrun
        exact ⟨hkeeps, fun o ho => nomatch ho⟩
      · rw [hstage] at hkeeps
        rw [run_mk_bind hstage] at hrun
        have hsteps := (stage_ok_iff hw).mp hstage
        split at hrun
        · next hfailed =>
          obtain ⟨rfl, rfl⟩ := Prod.mk.inj hrun
          refine ⟨hkeeps, fun o ho hnone => ?_⟩
          obtain rfl := Except.ok.inj ho
          rw [show products.flatMap Product.problems = [] from hnone] at hfailed
          cases hfailed
        · next hfailed =>
          obtain ⟨rfl, rfl⟩ := Prod.mk.inj hrun
          refine ⟨hkeeps, fun o ho _ => ?_⟩
          obtain rfl := Except.ok.inj ho
          have hcached : ∀ a ∈ analyzed, ∀ data module, a.content = .cached data module → ∀ f ∈ c.cacheFiles? a.source,
              m₁.read f.module = .ok data :=
            fun a ha => (hholds _ (hcontents ▸ List.mem_map_of_mem ha)).2
          exact made_of_steps hl h hm₁.directory haccepted hcached hsteps (by simpa using hfailed)

/-! ## Writing the artifact -/

theorem writeArtifact_ok (hpath : path ∈ c.output) {u : PUnit}
    (h : (writeArtifact c products : InMemory _) m = (.ok u, m')) : ∃ data,
      Artifact.encode c.encoding (products.map (Product.entry c)) = .ok data ∧ Outside {goal m.directory path} m m' ∧
        m'.read path = .ok data := by
  unfold writeArtifact at h
  rw [Option.mem_def.mp hpath] at h
  simp only at h
  cases hencode : Artifact.encode c.encoding (products.map (Product.entry c)) with
  | error name => rw [hencode] at h; cases h
  | ok data =>
    rw [hencode] at h
    simp only at h
    rw [bind_apply, makeDirectory_apply, InMemory.change] at h
    cases hmake : m.makeDirectory (Path.parent path) with
    | error e => rw [hmake] at h; cases h
    | ok m₁ =>
      rw [hmake] at h
      simp only at h
      rw [bind_apply, write_apply, InMemory.change] at h
      have hdirectories := outside_makeAll hmake
      cases hwrite : m₁.write path data with
      | error e => rw [hwrite] at h; cases h
      | ok m₂ =>
        rw [hwrite] at h
        obtain ⟨-, rfl⟩ := Prod.mk.inj h
        refine ⟨data, rfl, (hdirectories.mono (Set.empty_subset _)).trans ?_, read_of_write hwrite⟩
        rw [← hdirectories.directory]
        exact outside_write hwrite

/-- An artifact that cannot be written changes no file. -/
theorem writeArtifact_error {e : Failure} (h : (writeArtifact c products : InMemory _) m = (.error e, m')) :
    Outside ∅ m m' := by
  unfold writeArtifact at h
  cases hpath : c.output with
  | none => rw [hpath] at h; cases h
  | some path =>
    rw [hpath] at h
    simp only at h
    cases hencode : Artifact.encode c.encoding (products.map (Product.entry c)) with
    | error name =>
      rw [hencode] at h
      obtain ⟨-, rfl⟩ := Prod.mk.inj h
      exact .refl _ _
    | ok data =>
      rw [hencode] at h
      simp only at h
      rw [bind_apply, makeDirectory_apply, InMemory.change] at h
      cases hmake : m.makeDirectory (Path.parent path) with
      | error e =>
        rw [hmake] at h
        obtain ⟨-, rfl⟩ := Prod.mk.inj h
        exact .refl _ _
      | ok m₁ =>
        rw [hmake] at h
        simp only at h
        rw [bind_apply, write_apply, InMemory.change] at h
        cases hwrite : m₁.write path data with
        | error e =>
          rw [hwrite] at h
          obtain ⟨-, rfl⟩ := Prod.mk.inj h
          exact outside_makeAll hmake
        | ok m₂ => rw [hwrite] at h; cases h

theorem confined_writeProblems (problems : List Diagnostic) :
    Confined {q | ∃ e ∈ c.errorFile, q = goal directory e} directory (writeProblems c problems : InMemory _) := by
  unfold writeProblems
  split
  · exact .pure _
  · exact .pure _
  · next e _ he =>
    have hplace : {goal directory e} ⊆ {q | ∃ e ∈ c.errorFile, q = goal directory e} := by
      rintro _ rfl
      exact ⟨e, he, rfl⟩
    exact (confined_write.mono hplace).bind fun _ => .pure _

theorem sort_ne_nil {ds : List Diagnostic} (h : ds ≠ []) : Diagnostic.sort ds ≠ [] := fun hnil =>
  h (List.nil_perm.mp (hnil ▸ List.mergeSort_perm ds Diagnostic.le))

/-- The last step of a build writes the artifact if there are no problems, and the problems otherwise. -/
theorem conclude_cases {o : Outcome} {x : Except Failure Result} (h : (conclude c o : InMemory _) m = (x, m')) :
    (o.problems = [] ∧ (writeArtifact c (ordered c o.products) : InMemory _) m = (.ok ⟨⟩, m') ∧ x = .ok
      { artifact := c.output, modules := (ordered c o.products).map (·.source.module), diagnostics := [], stats := o.stats }) ∨
    ((∃ e, x = .error e) ∧ Outside ∅ m m') ∨
    ((∀ r, x = .ok r → r.artifact = none ∧ r.diagnostics ≠ []) ∧
      Outside {q | ∃ e ∈ c.errorFile, q = goal m.directory e} m m') := by
  unfold conclude at h
  split at h
  · next hproblems =>
    simp only at h
    rw [bind_apply] at h
    rcases hwrite : (writeArtifact c (ordered c o.products) : InMemory _) m with ⟨e | u, m₁⟩
    · rw [hwrite] at h
      obtain ⟨rfl, rfl⟩ := Prod.mk.inj h
      exact .inr (.inl ⟨⟨e, rfl⟩, writeArtifact_error hwrite⟩)
    · rw [hwrite] at h
      obtain ⟨rfl, rfl⟩ := Prod.mk.inj h
      exact .inl ⟨List.isEmpty_iff.mp hproblems, rfl, rfl⟩
  · next hproblems =>
    have hne : o.problems ≠ [] := fun hnil => hproblems (List.isEmpty_iff.mpr hnil)
    simp only at h
    rw [bind_apply] at h
    have hconfined := confined_writeProblems (c := c) (Diagnostic.sort o.problems) (rfl : m.directory = m.directory)
    rcases hwrite : (writeProblems c (Diagnostic.sort o.problems) : InMemory _) m with ⟨e | u, m₁⟩
    · rw [hwrite] at h hconfined
      obtain ⟨rfl, rfl⟩ := Prod.mk.inj h
      exact .inr (.inr ⟨fun r hr => (nomatch hr), hconfined⟩)
    · rw [hwrite] at h hconfined
      obtain ⟨rfl, rfl⟩ := Prod.mk.inj h
      refine .inr (.inr ⟨fun r hr => ?_, hconfined⟩)
      obtain rfl := Except.ok.inj hr
      exact ⟨rfl, sort_ne_nil hne⟩

/-! ## Builds -/

theorem confined_prepareCache : Confined ∅ directory (prepareCache c : InMemory _) := by
  unfold prepareCache
  cases c.cacheDir with
  | none => exact .pure _
  | some d => exact confined_makeDirectory.bind fun _ => .pure _

/-- The places that a build writes besides that of the artifact. -/
def sidePlaces (c : Config) (l : Layout) (directory : String) : Set (List String) :=
  keptPlaces c l directory ∪ {q | ∃ e ∈ c.errorFile, q = goal directory e}

/-- A build writes the artifact of modules that it made of all sources, or it leaves all files alone but those that it keeps and
the one for problems. -/
theorem run_cases (h : Apart c (.new m.directory c.includes c.files) m.directory) {x : Except Failure Result}
    (hrun : (run c : InMemory _) m = (x, m')) :
    (Outside (sidePlaces c (.new m.directory c.includes c.files) m.directory) m m' ∧
      ∀ r, x = .ok r → r.artifact = none ∧ r.diagnostics ≠ []) ∨
    ∃ (o : Outcome) (m₁ : Memory), Made c (.new m.directory c.includes c.files) m m₁ o.products ∧ m₁.directory = m.directory ∧
      (writeArtifact c (ordered c o.products) : InMemory _) m₁ = (.ok ⟨⟩, m') ∧ x = .ok
        { artifact := c.output, modules := (ordered c o.products).map (·.source.module), diagnostics := [],
          stats := o.stats } := by
  have hdirectory : ∀ m : Memory, (Disk.directory : InMemory _) m = (m.directory, m) := fun _ => rfl
  unfold run at hrun
  split at hrun
  · obtain ⟨rfl, rfl⟩ := Prod.mk.inj hrun
    exact .inl ⟨.refl _ _, fun r hr => nomatch hr⟩
  · have hprepared := confined_prepareCache (c := c) (rfl : m.directory = m.directory)
    rcases hprepare : (prepareCache c : InMemory _) m with ⟨e | u, m₁⟩
    · rw [hprepare] at hprepared
      rw [run_mk_bind_error hprepare] at hrun
      obtain ⟨rfl, rfl⟩ := Prod.mk.inj hrun
      exact .inl ⟨hprepared.mono (Set.empty_subset _), fun r hr => nomatch hr⟩
    · rw [hprepare] at hprepared
      rw [run_mk_bind hprepare, run_lift_bind, hdirectory, hprepared.directory] at hrun
      rcases hstages : (runStages c (.new m.directory c.includes c.files) : InMemory _) m₁ with ⟨e | o, m₂⟩
      · obtain ⟨hkept, -⟩ := runStages_made rfl h hprepared hstages
        rw [run_mk_bind_error hstages] at hrun
        obtain ⟨rfl, rfl⟩ := Prod.mk.inj hrun
        exact .inl ⟨hkept.mono Set.subset_union_left, fun r hr => nomatch hr⟩
      · obtain ⟨hkept, hmade⟩ := runStages_made rfl h hprepared hstages
        rw [run_mk_bind hstages, ExceptT.run_mk] at hrun
        rcases conclude_cases hrun with ⟨hnone, hwrite, rfl⟩ | ⟨⟨e, rfl⟩, hwrite⟩ | ⟨hresult, hwrite⟩
        · exact .inr ⟨o, m₂, hmade o rfl hnone, hkept.directory, hwrite, rfl⟩
        · refine .inl ⟨(hkept.mono Set.subset_union_left).trans (hwrite.mono (Set.empty_subset _)), ?_⟩
          exact fun r hr => nomatch hr
        · rw [hkept.directory] at hwrite
          exact .inl ⟨(hkept.mono Set.subset_union_left).trans (hwrite.mono Set.subset_union_right), hresult⟩

theorem Apart.output_notMem (h : Apart c l directory) (hpath : path ∈ c.output) : goal directory path ∉ sidePlaces c l directory := by
  rintro (⟨s, hs, f, hf, he | he⟩ | ⟨e, he, hplace⟩)
  · exact (h.cache path hpath s hs f hf).1 he
  · exact (h.cache path hpath s hs f hf).2 he
  · exact h.errors path hpath e he hplace

/-! ## Sharing out -/

theorem stage_workers {α β : Type} {step : α → InMemory (Except Failure β)} {xs : List α} {bs : List β} {w w' : Nat}
    (hw : 0 < w) (hw' : 0 < w') (h : stage w step xs m = (.ok bs, m')) : stage w' step xs m = (.ok bs, m') :=
  (stage_ok_iff hw').mpr ((stage_ok_iff hw).mp h)

/-- Stages that do not fail do the same however the work is shared out. -/
theorem runStages_workers {o : Outcome} (workers : Int) (h : (runStages c l : InMemory _) m = (.ok o, m')) :
    (runStages { c with workers } l : InMemory _) m = (.ok o, m') := by
  have hw := workersFor_pos l.sources.length c.workers
  have hw' := workersFor_pos l.sources.length workers
  have hscanStep : (scan { c with workers } : Source → InMemory _) = scan c := rfl
  have hjudgeStep : (judge { c with workers } : Layout → _ → _ → InMemory _) = judge c := rfl
  have hloadStep : (load { c with workers } : Scan → Bool → InMemory _) = load c := rfl
  have hproduceStep : (produce { c with workers } : Store → Analyzed → InMemory _) = produce c := rfl
  unfold runStages at h ⊢
  simp only [hscanStep, hjudgeStep, hloadStep, hproduceStep] at h ⊢
  obtain ⟨scans, m₁, hscan, h⟩ := run_mk_bind_ok h
  rw [run_lift_bind] at h
  rw [run_mk_bind (stage_workers hw hw' hscan), run_lift_bind]
  obtain ⟨loaded, m₂, hload, h⟩ := run_mk_bind_ok h
  rw [run_mk_bind (stage_workers hw hw' hload)]
  split at h
  · next hproblems => rwa [if_pos hproblems]
  · next hproblems =>
    rw [if_neg hproblems]
    generalize analyze c.natives.registry l _ c.natives.store = analysis at h ⊢
    obtain ⟨⟨problems, analyzed⟩, store'⟩ := analysis
    simp only at h ⊢
    split at h
    · next hfound => rwa [if_pos hfound]
    · next hfound =>
      rw [if_neg hfound]
      obtain ⟨products, m₃, hproduce, h⟩ := run_mk_bind_ok h
      rwa [run_mk_bind (stage_workers hw hw' hproduce)]

/-- A build that does not fail does the same however the work is shared out. -/
theorem run_workers {r : Result} (workers : Int) (h : (run c : InMemory _) m = (.ok r, m')) :
    (run { c with workers } : InMemory _) m = (.ok r, m') := by
  have hprepareStep : (prepareCache { c with workers } : InMemory _) = prepareCache c := rfl
  have hconcludeStep : (conclude { c with workers } : Outcome → InMemory _) = conclude c := rfl
  unfold run at h ⊢
  simp only [hprepareStep, hconcludeStep] at h ⊢
  split at h
  · cases h
  · next hencoding =>
    rw [if_neg hencoding]
    obtain ⟨u, m₁, hprepare, h⟩ := run_mk_bind_ok h
    rw [run_lift_bind] at h
    rw [run_mk_bind hprepare, run_lift_bind]
    obtain ⟨o, m₂, hstages, h⟩ := run_mk_bind_ok h
    rwa [run_mk_bind (runStages_workers workers hstages)]

/-! ## All or nothing -/

theorem made_delivered (h : Made c (.new m.directory c.includes c.files) m m' products) :
    Delivered c (.new m.directory c.includes c.files) m (ordered c products) where
  files := by
    unfold Layout.new
    simp [List.map_map, Function.comp_def]
  order := h.sources ▸ arranged_ordered
  modules := by
    obtain ⟨analyzed, store, haccepted, hbytes⟩ := h.modules
    exact ⟨analyzed, store, haccepted, fun p hp => hbytes p (perm_ordered.mem_iff.mp hp)⟩

/-- **A build is all or nothing.** A build that fails or finds problems leaves the file at the path of the artifact as it was,
and its result names no artifact. A build that finds no problem writes there an artifact that is read as one module for each
source, with its name and the bytes of the module that was kept of it or that it is compiled to, in the order of the files or
of their paths, as long as the lengths of its names and stored modules fit in their fields. What a build writes does not depend
on the number of workers. -/
theorem run_allOrNothing (h : Apart c (.new m.directory c.includes c.files) m.directory) :
    (∀ x m', (run c : InMemory _) m = (x, m') → (∀ r, x = .ok r → r.diagnostics ≠ []) →
      (∀ r, x = .ok r → r.artifact = none) ∧
        ∀ path ∈ c.output, m'.file? (goal m.directory path) = m.file? (goal m.directory path)) ∧
    (∀ r m', (run c : InMemory _) m = (.ok r, m') → r.diagnostics = [] → ∀ path ∈ c.output, ∃ products data,
      Delivered c (.new m.directory c.includes c.files) m products ∧ r.artifact = some path ∧
        r.modules = products.map (·.source.module) ∧ m'.read path = .ok data ∧
          Artifact.encode c.encoding (products.map (Product.entry c)) = .ok data ∧
          (products.length < 2 ^ 32 → (∀ p ∈ products, (p.entry c).Fits c.encoding) →
            Artifact.decode (m := Id) m'.read data =
              .ok (products.map fun p => ⟨Text.encode p.source.module, c.encoding, p.data⟩))) ∧
    (∀ r m' workers, (run c : InMemory _) m = (.ok r, m') → (run { c with workers } : InMemory _) m = (.ok r, m')) := by
  refine ⟨fun x m' hrun hfound => ?_, fun r m' hrun hnone path hpath => ?_, fun r m' workers hrun => run_workers workers hrun⟩
  · rcases run_cases h hrun with ⟨houtside, hresult⟩ | ⟨o, m₁, -, -, -, rfl⟩
    · exact ⟨fun r hr => (hresult r hr).1, fun path hpath => houtside.file _ (h.output_notMem hpath)⟩
    · exact absurd rfl (hfound _ rfl)
  · rcases run_cases h hrun with ⟨-, hresult⟩ | ⟨o, m₁, hmade, hdirectory, hwrite, hr⟩
    · exact absurd hnone (hresult r rfl).2
    · obtain rfl := Except.ok.inj hr
      obtain ⟨data, hencode, houtside, hread⟩ := writeArtifact_ok hpath hwrite
      refine ⟨ordered c o.products, data, made_delivered hmade, hpath, rfl, hread, hencode, fun hcount hfits => ?_⟩
      have hheld : ∀ e ∈ (ordered c o.products).map (Product.entry c), e.Held m'.read c.encoding := by
        intro e he href file hfile
        obtain ⟨p, hp, rfl⟩ := List.mem_map.mp he
        have hmem := perm_ordered.mem_iff.mp hp
        obtain ⟨f, hf, rfl⟩ := Option.map_eq_some_iff.mp hfile
        refine houtside.read ?_ (hmade.referred href p hmem f hf)
        have hsource := hmade.sources ▸ List.mem_map_of_mem hmem
        rw [hdirectory]
        exact fun hplace => (h.cache path hpath _ hsource f hf).2 hplace.symm
      rw [Artifact.decode_encode hencode (by rwa [List.length_map]) (List.forall_mem_map.mpr hfits) hheld, List.map_map]
      rfl

set_option maxRecDepth 100000 in
/-- A file that is a program only where a name is not defined: a build without the name writes an artifact that is read as one
module, and one with the name finds a problem and leaves this artifact alone. -/
theorem run_guarded_allOrNothing :
    let m := guardedBuilt.touch "m.loom" 3
    let l := Layout.new m.directory ["."] ["m.loom"]
    (Apart (guardedWith []) l m.directory ∧ ∃ r m', (run (guardedWith []) : InMemory _) m = (.ok r, m') ∧ r.modules = ["m"] ∧
      ∃ products data, Delivered (guardedWith []) l m products ∧ r.artifact = some "a" ∧
        r.modules = products.map (·.source.module) ∧ m'.read "a" = .ok data ∧
          Artifact.decode (m := Id) m'.read data = .ok (products.map fun p => ⟨Text.encode p.source.module, .raw, p.data⟩)) ∧
    (Apart (guardedWith ["X"]) l m.directory ∧ ∃ r m', (run (guardedWith ["X"]) : InMemory _) m = (.ok r, m') ∧
      r.diagnostics ≠ [] ∧ r.artifact = none ∧ m'.file? ["w", "a"] = m.file? ["w", "a"] ∧ (m.file? ["w", "a"]).isSome) := by
  intro m l
  obtain ⟨happart, happart', hquiet, hshort, hfound, hthere, hplace⟩ : Apart (guardedWith []) l m.directory ∧
      Apart (guardedWith ["X"]) l m.directory ∧
      ((run (guardedWith []) : InMemory _) m).1.toOption.map (fun r => (r.modules, r.diagnostics.isEmpty)) =
        some (["m"], true) ∧
      (((run (guardedWith []) : InMemory _) m).2.read "a").toOption.all (·.length < 2 ^ 32) ∧
      ((run (guardedWith ["X"]) : InMemory _) m).1.toOption.map (·.diagnostics.isEmpty) = some false ∧
      (m.file? ["w", "a"]).isSome ∧ goal m.directory "a" = ["w", "a"] := by
    decide +kernel
  constructor
  · rcases hrun : (run (guardedWith []) : InMemory _) m with ⟨e | r, m'⟩
    · rw [hrun] at hquiet
      cases hquiet
    rw [hrun] at hquiet hshort
    obtain ⟨hmodules, hnone⟩ := Prod.mk.inj (Option.some.inj hquiet)
    obtain ⟨products, data, hdelivered, hartifact, hnames, hread, hencode, hdecode⟩ :=
      (run_allOrNothing happart).2.1 r m' hrun (List.isEmpty_iff.mp hnone) "a" rfl
    rw [hread] at hshort
    obtain ⟨hcount, hfits⟩ := Artifact.fits_of_length hencode (of_decide_eq_true hshort)
    rw [List.length_map] at hcount
    exact ⟨happart, r, m', rfl, hmodules, products, data, hdelivered, hartifact, hnames, hread,
      hdecode hcount (List.forall_mem_map.mp hfits)⟩
  · rcases hrun : (run (guardedWith ["X"]) : InMemory _) m with ⟨e | r, m'⟩
    · rw [hrun] at hfound
      cases hfound
    rw [hrun] at hfound
    have hne : r.diagnostics ≠ [] := by
      have hempty : r.diagnostics.isEmpty = false := Option.some.inj hfound
      intro hnil
      rw [hnil] at hempty
      cases hempty
    obtain ⟨hartifact, hfile⟩ := (run_allOrNothing happart').1 _ m' hrun fun r' hr => Except.ok.inj hr ▸ hne
    exact ⟨happart', r, m', rfl, hne, hartifact r rfl, hplace ▸ hfile "a" rfl, hthere⟩

end Weft.Build
