import Mathlib.Data.List.Nodup
import Mathlib.Data.List.Perm.Subperm
import Mathlib.Data.List.Sort
import Weft.Manifest.Dependency
import Weft.Proofs.Build.Paths
import Weft.Proofs.Manifest.Settings

/-!
# The order of dependencies

Projects depend on others by the paths in their manifests, so the manifests on a disk form a graph. Resolving walks this graph
and adds each project behind all that it depends on. It keeps two things apart: the projects that were added, which are
complete, and those on the way, which must not come again. The way never outgrows the disk, so the bound on its length is
never met.
-/

namespace Weft

/-! ## Looking at files -/

namespace InMemory

variable {α β : Type} {x : InMemory α} {k : α → InMemory β}

/-- A computation that leaves all files as they are. -/
def Still (x : InMemory α) : Prop := ∀ m, (x m).2 = m

theorem Still.apply (hx : Still x) (m : Memory) : x m = ((x m).1, m) := Prod.ext rfl (hx m)

theorem Still.bind_apply (hx : Still x) (m : Memory) : (x >>= k) m = k (x m).1 m := by
  change k (x m).1 (x m).2 = _
  rw [hx m]

theorem Still.pure (a : α) : Still (Pure.pure a : InMemory α) := fun _ => rfl

theorem Still.bind (hx : Still x) (hk : ∀ a, Still (k a)) : Still (x >>= k) := fun m => by
  rw [hx.bind_apply]
  exact hk _ m

theorem still_read (p : String) : Still (Disk.read p : InMemory _) := fun _ => rfl

theorem still_stat (p : String) : Still (Disk.stat p : InMemory _) := fun _ => by rw [Memory.stat_apply]

theorem still_absolute (p : String) : Still (Disk.absolute p : InMemory _) := fun _ => rfl

theorem still_bound : Still (Disk.bound : InMemory Nat) := fun _ => rfl

theorem still_load (directory : String) : Still (Manifest.load directory : InMemory _) := by
  refine (still_read _).bind fun r => ?_
  cases r with
  | error f => exact .pure _
  | ok b =>
    refine (still_absolute _).bind fun place => ?_
    split
    · exact .pure _
    · split <;> exact .pure _


end InMemory

namespace Path
variable {name d p q : String} {absolute : Bool} {ps done : List String} {place : List String}

/-- At the root nothing is left to go up to, so the parts of a clean path from the root are names. -/
theorem plain_of_mem_kept (habsolute : isAbsolute p = true) (h : name ∈ kept p) : Plain name := by
  have hfold : ∀ ps done : List String, (∀ x ∈ done, x ≠ "." ∧ x ≠ "..") →
      ∀ x ∈ ps.foldl (step true) done, x ≠ "." ∧ x ≠ ".." := by
    intro ps
    induction ps with
    | nil => exact fun _ h => h
    | cons part ps ih =>
      refine fun done hdone => ih _ fun x hx => ?_
      unfold step at hx
      split at hx
      · exact hdone x hx
      · next hhere =>
        split at hx
        · split at hx
          · simp at hx
          · exact absurd rfl (hdone _ List.mem_cons_self).2
          · exact hdone x (List.mem_cons_of_mem _ hx)
        · next hup =>
          rcases List.mem_cons.mp hx with rfl | hx
          · exact ⟨hhere, hup⟩
          · exact hdone x hx
  have hnames := hfold (parts p) [] (by simp) name (by rw [kept, habsolute] at h; exact List.mem_reverse.mp h)
  exact ⟨part_of_mem_kept h, hnames.1, hnames.2⟩

theorem isAbsolute_append (h : isAbsolute d = true) : isAbsolute (d ++ q) = true := by
  rw [isAbsolute_iff] at h ⊢
  rw [String.toList_append]
  cases hlist : d.toList with
  | nil => simp [hlist] at h
  | cons c cs => simpa [hlist] using h

/-- A path from the root, seen from a directory with such a path, is a clean one. -/
theorem absolute_eq_clean (h : isAbsolute d = true) (q : String) : ∃ r, isAbsolute r = true ∧ Path.absolute d q = clean r := by
  have hd : d ≠ "" := by
    rintro rfl
    simp [isAbsolute_iff] at h
  rw [Path.absolute]
  split
  · next hq => exact ⟨q, hq, rfl⟩
  · rw [join, if_neg hd]
    split
    · exact ⟨d, h, rfl⟩
    · exact ⟨d ++ "/" ++ q, isAbsolute_append (isAbsolute_append h), rfl⟩

end Path

namespace Memory
open Weft.Path
variable {m : Memory} {directory d p name part : String} {place : List String} {ps qs done : List String} {absolute : Bool}

theorem foldl_onward_plain (h : ∀ x ∈ ps, Plain x) : ps.foldl onward place = place ++ ps := by
  induction ps generalizing place with
  | nil => simp
  | cons x ps ih =>
    rw [List.forall_mem_cons] at h
    rw [List.foldl_cons, onward_plain h.1, ih h.2, List.append_assoc, List.singleton_append]

theorem clean_eq_goal (h : isAbsolute p = true) (directory : String) :
    clean p = "/" ++ "/".intercalate (goal directory (clean p)) := by
  by_cases hne : kept p = []
  · have hroot : clean p = "/" := by
      unfold clean
      simp only [kept, h, List.reverse_eq_nil_iff] at hne ⊢
      rw [hne]
      rfl
    have hgoal : goal directory "/" = [] := by
      have habsolute : isAbsolute "/" = true := by decide +kernel
      rw [goal, start, if_pos habsolute]
      decide +kernel
    rw [hroot, hgoal]
    rfl
  · have hparts : ∀ x ∈ kept p, Part x := fun _ hx => part_of_mem_kept hx
    rw [clean_eq_assembled hne, h, goal, start, isAbsolute_assembled hparts hne, if_pos rfl, pieces_assembled hparts hne,
      List.foldl_append, foldl_root, foldl_onward_plain fun x hx => plain_of_mem_kept h hx]
    rfl

end Memory

open InMemory

/-- The manifest that is read in a directory. -/
def Memory.manifest (m : Memory) (directory : String) : Except Manifest.Problem Manifest :=
  ((Manifest.load directory : InMemory _) m).1

namespace Dependency

variable {m : Memory} {root x y : Manifest} {d e : Dependency} {name path : String} {active trail : List String}
  {found : List Dependency}

/-! ## One dependency -/

/-- Where a dependency of a project lies. -/
def place (m : Memory) (x : Manifest) (path : String) : String := Path.absolute m.directory (x.path path)

/-- What a setting of a project leads to. -/
def found? (m : Memory) (x : Manifest) (name path : String) : Except Manifest.Problem Dependency :=
  ((find x name path : InMemory _) m).1

theorem still_find (x : Manifest) (name path : String) : Still (find x name path : InMemory _) := by
  unfold find
  split
  · exact .pure _
  · refine (still_absolute _).bind fun place => (still_stat place).bind fun r => ?_
    split
    · exact .pure _
    · refine (still_load place).bind fun r => ?_
      split
      · exact .pure _
      · split <;> exact .pure _
      · exact .pure _

theorem found?_eq (m : Memory) (x : Manifest) (name path : String) : found? m x name path =
    if path = "" then .error (.noPath name)
    else match m.statOf (place m x path) with
      | .error c => .error (.notFound name (place m x path) ⟨"stat", place m x path, c⟩)
      | .ok _ => match m.manifest (place m x path) with
        | .ok y => .ok ⟨name, place m x path, y⟩
        | .error (.unreadable p f) =>
          if f.cause = .missing then .ok ⟨name, place m x path, Manifest.bare (place m x path) name⟩
          else .error (.unreadable p f)
        | .error p => .error p := by
  unfold found? find
  split
  · rfl
  · have hplace : ((Disk.absolute (x.path path) : InMemory String) m).1 = place m x path := rfl
    rw [(still_absolute _).bind_apply, hplace, (still_stat _).bind_apply, Memory.stat_apply]
    cases m.statOf (place m x path) with
    | error c => rfl
    | ok s =>
      dsimp only
      rw [(still_load _).bind_apply]
      unfold Memory.manifest
      generalize ((Manifest.load (place m x path) : InMemory _) m).1 = r
      cases r with
      | ok y => rfl
      | error p =>
        cases p with
        | unreadable q f =>
          dsimp only
          split <;> rfl
        | _ => rfl

/-- A dependency cannot be found: it has no path, nothing is there, or a manifest is there and cannot be read. -/
inductive Lost (m : Memory) (x : Manifest) (path : String) : Prop
  | noPath (h : path = "")
  | missing {c : Cause} (h : m.statOf (place m x path) = .error c)
  | unreadable {p : Manifest.Problem} (h : m.manifest (place m x path) = .error p)
      (hthere : ∀ q f, p = .unreadable q f → f.cause ≠ .missing)

/-- A directory without a manifest is a project as well, and any other directory has the one that is read there. -/
structure Leads (m : Memory) (x : Manifest) (name path : String) (d : Dependency) : Prop where
  called : d.name = name
  lies : d.path = place m x path
  there : ∃ s, m.statOf d.path = .ok s
  manifest : m.manifest d.path = .ok d.manifest ∨
    (∃ p f, m.manifest d.path = .error (.unreadable p f) ∧ f.cause = .missing) ∧ d.manifest = Manifest.bare d.path name

theorem found?_cases (m : Memory) (x : Manifest) (name path : String) :
    (∃ p, found? m x name path = .error p ∧ Lost m x path) ∨ ∃ d, found? m x name path = .ok d ∧ Leads m x name path d := by
  rw [found?_eq]
  split
  · next hpath => exact .inl ⟨_, rfl, .noPath hpath⟩
  · cases hstat : m.statOf (place m x path) with
    | error c => exact .inl ⟨_, rfl, .missing hstat⟩
    | ok s =>
      cases hload : m.manifest (place m x path) with
      | ok y => exact .inr ⟨_, rfl, rfl, rfl, ⟨s, hstat⟩, .inl hload⟩
      | error p =>
        by_cases hthere : ∃ q f, p = .unreadable q f ∧ f.cause = .missing
        · obtain ⟨q, f, rfl, hf⟩ := hthere
          exact .inr ⟨⟨name, place m x path, .bare (place m x path) name⟩, by simp [hf], rfl, rfl, ⟨s, hstat⟩,
            .inr ⟨⟨q, f, hload, hf⟩, rfl⟩⟩
        · refine .inl ⟨p, ?_, .unreadable hload fun q f hp hf => hthere ⟨q, f, hp, hf⟩⟩
          cases p with
          | unreadable q f =>
            dsimp only
            rw [if_neg fun hf => hthere ⟨q, f, rfl, hf⟩]
          | _ => rfl

theorem found?_of_lost (name : String) (h : Lost m x path) : ∃ p, found? m x name path = .error p := by
  rw [found?_eq]
  split
  · exact ⟨_, rfl⟩
  · next hpath =>
    cases hstat : m.statOf (place m x path) with
    | error c => exact ⟨_, rfl⟩
    | ok s =>
      cases h with
      | noPath h => exact absurd h hpath
      | missing h =>
        rw [hstat] at h
        cases h
      | @unreadable p h hthere =>
        rw [h]
        cases p with
        | unreadable q f =>
          dsimp only
          rw [if_neg (hthere q f rfl)]
          exact ⟨_, rfl⟩
        | _ => exact ⟨_, rfl⟩

theorem Leads.same {name' path' : String} (h : Leads m x name path d) (h' : Leads m y name' path' e) (hpath : d.path = e.path) :
    d.manifest.directory = e.manifest.directory ∧ d.manifest.dependencies = e.manifest.dependencies := by
  have h' := h'.manifest
  rw [← hpath] at h'
  rcases h.manifest with hd | ⟨⟨p, f, hd, -⟩, hbare⟩
  · rcases h' with he | ⟨⟨p, f, he, -⟩, -⟩
    · rw [hd] at he
      rw [Except.ok.inj he]
      exact ⟨rfl, rfl⟩
    · rw [hd] at he
      cases he
  · rcases h' with he | ⟨-, hbare'⟩
    · rw [hd] at he
      cases he
    · rw [hbare, hbare']
      exact ⟨rfl, rfl⟩

theorem found?_congr (h : x.directory = y.directory) (name path : String) : found? m x name path = found? m y name path := by
  have hplace : place m x path = place m y path := by
    rw [place, place, Manifest.path, Manifest.path, h]
  rw [found?_eq, found?_eq, hplace]

/-! ## The graph of projects -/

/-- A project depends on another one. -/
def Edge (m : Memory) (x : Manifest) (d : Dependency) : Prop :=
  ∃ name path, (name, path) ∈ x.dependencies ∧ found? m x name path = .ok d

/-- A project depends on another one, directly or not. -/
inductive Reaches (m : Memory) (x : Manifest) : Dependency → Prop
  | direct {d : Dependency} (h : Edge m x d) : Reaches m x d
  | further {d e : Dependency} (h : Reaches m x d) (he : Edge m d.manifest e) : Reaches m x e

/-- Some dependency of a project, or of one that it depends on, cannot be found. -/
def Broken (m : Memory) (x : Manifest) : Prop :=
  ∃ y, (y = x ∨ ∃ d, Reaches m x d ∧ d.manifest = y) ∧ ∃ name path, (name, path) ∈ y.dependencies ∧ Lost m y path

/-- A project depends on itself, or one of those that it depends on does. -/
def Cyclic (m : Memory) (x : Manifest) : Prop :=
  (∃ d, Reaches m x d ∧ d.path = x.directory) ∨ ∃ d e, Reaches m x d ∧ Reaches m d.manifest e ∧ e.path = d.path

theorem Edge.leads (h : Edge m x d) : ∃ name path, Leads m x name path d := by
  obtain ⟨name, path, -, hfound⟩ := h
  rcases found?_cases m x name path with ⟨p, hp, -⟩ | ⟨d', hd, hleads⟩
  · rw [hp] at hfound
    cases hfound
  · rw [hd] at hfound
    cases hfound
    exact ⟨name, path, hleads⟩

theorem Reaches.leads (h : Reaches m x d) : ∃ y name path, Leads m y name path d := by
  cases h with
  | direct h => exact ⟨_, h.leads⟩
  | further _ h => exact ⟨_, h.leads⟩

theorem Edge.congr (h : Edge m x d) (hdir : x.directory = y.directory) (hdeps : x.dependencies = y.dependencies) : Edge m y d := by
  obtain ⟨name, path, hmem, hfound⟩ := h
  exact ⟨name, path, hdeps ▸ hmem, found?_congr hdir name path ▸ hfound⟩

theorem Reaches.trans (h : Reaches m x d) (h' : Reaches m d.manifest e) : Reaches m x e := by
  induction h' with
  | direct he => exact .further h he
  | further _ he ih => exact .further ih he

/-! ## Adding dependencies -/

/-- All dependencies of a project are found among some projects. -/
def Settled (m : Memory) (x : Manifest) (ds : List Dependency) : Prop :=
  ∀ name path, (name, path) ∈ x.dependencies → ∃ d, found? m x name path = .ok d ∧ d.path ∈ ds.map (·.path)

/-- The projects that are added: each once and after all its dependencies, none of them on the way. -/
structure Ordered (m : Memory) (root : Manifest) (active : List String) (ds : List Dependency) : Prop where
  nodup : (ds.map (·.path)).Nodup
  away : ∀ p ∈ active, p ∉ ds.map (·.path)
  reached : ∀ d ∈ ds, Reaches m root d
  settled : ∀ before d after, ds = before ++ d :: after → Settled m d.manifest before

/-- The projects on the way from the root to a project, this one included: they are different, all but the root lie on the
disk, and who comes back to one of them has found a cycle. -/
structure Way (m : Memory) (root : Manifest) (active : List String) (x : Manifest) : Prop where
  nodup : active.Nodup
  last : x = root ∨ ∃ d, Reaches m root d ∧ d.manifest = x
  lies : ∀ p ∈ active, p = root.directory ∨ ∃ y name path d, Leads m y name path d ∧ d.path = p
  cycle : ∀ d, Reaches m x d → d.path ∈ active → Cyclic m root

theorem Way.start (m : Memory) (root : Manifest) : Way m root [root.directory] root where
  nodup := by simp
  last := .inl rfl
  lies p hp := .inl (List.mem_singleton.mp hp)
  cycle d hd hp := .inl ⟨d, hd, List.mem_singleton.mp hp⟩

theorem Way.reaches (h : Way m root active x) (hd : Edge m x d) : Reaches m root d := by
  rcases h.last with rfl | ⟨e, he, rfl⟩
  · exact .direct hd
  · exact .further he hd

theorem Way.push (h : Way m root active x) (hd : Edge m x d) (hnew : d.path ∉ active) :
    Way m root (d.path :: active) d.manifest where
  nodup := List.nodup_cons.mpr ⟨hnew, h.nodup⟩
  last := .inr ⟨d, h.reaches hd, rfl⟩
  lies p hp := by
    rcases List.mem_cons.mp hp with rfl | hp
    · obtain ⟨name, path, hleads⟩ := hd.leads
      exact .inr ⟨x, name, path, d, hleads, rfl⟩
    · exact h.lies p hp
  cycle e he hp := by
    rcases List.mem_cons.mp hp with hp | hp
    · exact .inr ⟨d, e, h.reaches hd, he, hp⟩
    · exact h.cycle e (.trans (.direct hd) he) hp

/-- What lies on the disk has a place of its own. -/
theorem Leads.node (h : Leads m x name path d) (hdir : Path.isAbsolute m.directory = true) :
    d.path = "/" ++ "/".intercalate (Memory.goal m.directory d.path) ∧
      Memory.goal m.directory d.path ∈ m.nodes.map Prod.fst := by
  constructor
  · obtain ⟨r, hr, hclean⟩ := Path.absolute_eq_clean hdir (x.path path)
    rw [h.lies, place, hclean]
    exact Memory.clean_eq_goal hr m.directory
  · obtain ⟨s, hs⟩ := h.there
    unfold Memory.statOf Memory.find at hs
    cases hl : m.locate d.path with
    | error c => simp [hl] at hs
    | ok q =>
      obtain ⟨-, -, rfl⟩ := Memory.locate_ok_iff.mp hl
      cases hn : m.node? (Memory.goal m.directory d.path) with
      | none => simp [hl, hn] at hs
      | some n => exact List.mem_map.mpr ⟨_, Memory.mem_nodes_of_node? hn, rfl⟩

theorem Way.length_le (h : Way m root active x) (hdir : Path.isAbsolute m.directory = true) :
    active.length ≤ m.nodes.length + 1 := by
  have hlies : ∀ p ∈ active.erase root.directory, p = "/" ++ "/".intercalate (Memory.goal m.directory p) ∧
      Memory.goal m.directory p ∈ m.nodes.map Prod.fst := by
    intro p hp
    rcases h.lies p (List.mem_of_mem_erase hp) with rfl | ⟨y, name, path, d, hleads, rfl⟩
    · exact absurd hp h.nodup.not_mem_erase
    · exact hleads.node hdir
  have hnodup : ((active.erase root.directory).map (Memory.goal m.directory)).Nodup := by
    refine (h.nodup.erase _).map_on fun p hp q hq he => ?_
    rw [(hlies p hp).1, (hlies q hq).1, he]
  have hsub : (active.erase root.directory).map (Memory.goal m.directory) ⊆ m.nodes.map Prod.fst := by
    intro q hq
    obtain ⟨p, hp, rfl⟩ := List.mem_map.mp hq
    exact (hlies p hp).2
  have hle := (hnodup.subperm hsub).length_le
  have herase := List.length_erase_le (a := root.directory) (l := active)
  have herase' : active.length - 1 ≤ (active.erase root.directory).length := by
    rw [List.length_erase]
    split <;> omega
  rw [List.length_map, List.length_map] at hle
  omega

/-- What comes of adding dependencies of a project to those found so far. -/
inductive Added (m : Memory) (root : Manifest) (active : List String) (x : Manifest) (found : List Dependency)
    (deps : List (String × String)) : Except Manifest.Problem (List Dependency) → Prop
  | all {ds : List Dependency} (hinitial : found <+: ds) (hordered : Ordered m root active ds)
      (hdeps : ∀ name path, (name, path) ∈ deps → ∃ d, found? m x name path = .ok d ∧ d.path ∈ ds.map (·.path)) :
      Added m root active x found deps (.ok ds)
  | fails {p : Manifest.Problem} (h : Broken m root ∨ Cyclic m root) : Added m root active x found deps (.error p)

theorem Way.broken (h : Way m root active x) (hmem : (name, path) ∈ x.dependencies) (hlost : Lost m x path) : Broken m root :=
  ⟨x, h.last, name, path, hmem, hlost⟩

theorem Ordered.settled_of_mem (h : Ordered m root active found) (hd : d ∈ found) :
    ∃ before after, found = before ++ d :: after ∧ Settled m d.manifest before := by
  obtain ⟨before, after, rfl⟩ := List.append_of_mem hd
  exact ⟨before, after, rfl, h.settled before d after rfl⟩

theorem Ordered.push (h : Ordered m root (d.path :: active) found) (hd : Reaches m root d) (hnew : d.path ∉ active)
    (hdeps : Settled m d.manifest found) : Ordered m root active (found ++ [d]) where
  nodup := by
    rw [List.map_append, List.nodup_append]
    refine ⟨h.nodup, by simp, fun p hp q hq => ?_⟩
    rintro rfl
    obtain rfl : p = d.path := by simpa using hq
    exact h.away _ List.mem_cons_self hp
  away p hp hmem := by
    rw [List.map_append, List.mem_append] at hmem
    rcases hmem with hmem | hmem
    · exact h.away p (List.mem_cons_of_mem _ hp) hmem
    · obtain rfl : p = d.path := by simpa using hmem
      exact hnew hp
  reached e he := by
    rcases List.mem_append.mp he with he | he
    · exact h.reached e he
    · exact List.mem_singleton.mp he ▸ hd
  settled before e after hsplit := by
    rcases List.eq_nil_or_concat after with rfl | ⟨after, e', rfl⟩
    · obtain ⟨rfl, he⟩ := List.append_inj' hsplit rfl
      obtain rfl : d = e := by simpa using he
      exact hdeps
    · rw [List.concat_eq_append, ← List.cons_append, ← List.append_assoc] at hsplit
      exact h.settled before e after (List.append_inj' hsplit rfl).1

/-- Fewer projects are on the way to what was found before. -/
theorem Ordered.enter (h : Ordered m root active found) (hnew : d.path ∉ found.map (·.path)) :
    Ordered m root (d.path :: active) found :=
  { h with away := List.forall_mem_cons.mpr ⟨hnew, h.away⟩ }

theorem Added.cons {ds : List Dependency} {rest : List (String × String)} {r : Except Manifest.Problem (List Dependency)}
    (h : Added m root active x ds rest r) (hinitial : found <+: ds) (hfound : found? m x name path = .ok d)
    (hd : d.path ∈ ds.map (·.path)) : Added m root active x found ((name, path) :: rest) r := by
  cases h with
  | fails h => exact .fails h
  | all hinitial' hordered hdeps =>
    refine .all (hinitial.trans hinitial') hordered fun name' path' hmem => ?_
    rcases List.mem_cons.mp hmem with h | hmem
    · cases h
      exact ⟨d, hfound, (hinitial'.map _).subset hd⟩
    · exact hdeps name' path' hmem

variable {inside : List String → List String → List Dependency → Manifest → InMemory (Except Manifest.Problem (List Dependency))}
  {deps : List (String × String)}

theorem still_addAll (hinside : ∀ active trail found x, Still (inside active trail found x)) (active trail : List String)
    (x : Manifest) (found : List Dependency) (deps : List (String × String)) : Still (addAll inside active trail x found deps) := by
  induction deps generalizing found with
  | nil => exact .pure _
  | cons e rest ih =>
    refine (still_find x e.1 e.2).bind fun r => ?_
    cases r with
    | error p => exact .pure _
    | ok d =>
      dsimp only
      split
      · exact .pure _
      · split
        · exact ih found
        · refine (hinside _ _ _ _).bind fun r => ?_
          cases r with
          | error p => exact .pure _
          | ok found => exact ih _

theorem still_addDepth (n : Nat) (active trail : List String) (found : List Dependency) (x : Manifest) :
    Still (addDepth n active trail found x : InMemory _) := by
  induction n generalizing active trail found x with
  | zero => exact .pure _
  | succ n ih => exact still_addAll ih active trail x found (sorted x)

theorem addAll_cons (hinside : ∀ active trail found x, Still (inside active trail found x)) (active trail : List String)
    (x : Manifest) (found : List Dependency) (name path : String) (rest : List (String × String)) (m : Memory) :
    (addAll inside active trail x found ((name, path) :: rest) m).1 =
      match found? m x name path with
      | .error p => .error (.resolving name p)
      | .ok d =>
        if active.contains d.path then .error (.cycle (trail ++ [name]))
        else if found.any (·.path = d.path) then (addAll inside active trail x found rest m).1
        else match (inside (d.path :: active) (trail ++ [name]) found d.manifest m).1 with
          | .error p => .error p
          | .ok ds => (addAll inside active trail x (ds ++ [d]) rest m).1 := by
  rw [addAll, (still_find x name path).bind_apply]
  unfold found?
  cases ((find x name path : InMemory _) m).1 with
  | error p => rfl
  | ok d =>
    dsimp only
    split
    · rfl
    · split
      · rfl
      · rw [(hinside _ _ _ _).bind_apply]
        cases (inside (d.path :: active) (trail ++ [name]) found d.manifest m).1 <;> rfl

theorem added_addAll (hstill : ∀ active trail found x, Still (inside active trail found x))
    (hinside : ∀ (d : Dependency) (trail : List String) (found : List Dependency), Way m root (d.path :: active) d.manifest → Ordered m root (d.path :: active) found →
      Added m root (d.path :: active) d.manifest found (sorted d.manifest)
        (inside (d.path :: active) trail found d.manifest m).1)
    (hway : Way m root active x) (hdeps : ∀ e ∈ deps, e ∈ x.dependencies) (hfound : Ordered m root active found) :
    Added m root active x found deps (addAll inside active trail x found deps m).1 := by
  induction deps generalizing found with
  | nil => exact .all (List.prefix_rfl) hfound (by simp)
  | cons e rest ih =>
    obtain ⟨name, path⟩ := e
    rw [List.forall_mem_cons] at hdeps
    rw [addAll_cons hstill]
    rcases found?_cases m x name path with ⟨p, hp, hlost⟩ | ⟨d, hd, -⟩
    · rw [hp]
      exact .fails (.inl (hway.broken hdeps.1 hlost))
    · rw [hd]
      dsimp only
      have hedge : Edge m x d := ⟨name, path, hdeps.1, hd⟩
      split
      · next hactive => exact .fails (.inr (hway.cycle d (.direct hedge) (List.contains_iff_mem.mp hactive)))
      · next hactive =>
        have hnew : d.path ∉ active := fun h => hactive (List.contains_iff_mem.mpr h)
        split
        · next hknown =>
          refine (ih hdeps.2 hfound).cons List.prefix_rfl hd ?_
          obtain ⟨e, he, hpath⟩ := List.any_eq_true.mp hknown
          exact List.mem_map.mpr ⟨e, he, of_decide_eq_true hpath⟩
        · next hknown =>
          have hfresh : d.path ∉ found.map (·.path) := by
            intro h
            obtain ⟨e, he, hpath⟩ := List.mem_map.mp h
            exact hknown (List.any_eq_true.mpr ⟨e, he, decide_eq_true hpath⟩)
          have hadded := hinside d (trail ++ [name]) found (hway.push hedge hnew) (hfound.enter hfresh)
          generalize (inside (d.path :: active) (trail ++ [name]) found d.manifest m).1 = r at hadded ⊢
          cases hadded with
          | fails h => exact .fails h
          | all hinitial hordered hds =>
            have hsettled : Settled m d.manifest _ := fun name path hmem => hds name path (List.mem_mergeSort.mpr hmem)
            exact (ih hdeps.2 (hordered.push (hway.reaches hedge) hnew hsettled)).cons
              (hinitial.trans (List.prefix_append _ _)) hd (by simp)

theorem added_addDepth (hdir : Path.isAbsolute m.directory = true) {n : Nat} (hway : Way m root active x)
    (hfound : Ordered m root active found) (hroom : m.nodes.length + 3 ≤ active.length + n) :
    Added m root active x found (sorted x) ((addDepth n active trail found x : InMemory _) m).1 := by
  induction n generalizing active trail found x with
  | zero =>
    have := hway.length_le hdir
    omega
  | succ n ih =>
    refine added_addAll (still_addDepth n) (fun d trail found hway hfound => ?_) hway
      (fun e he => List.mem_mergeSort.mp he) hfound
    exact ih hway hfound (by rw [List.length_cons]; omega)

/-! ## All dependencies -/

variable {c : Dependency} {before after : List Dependency}

theorem Settled.edge {ds : List Dependency} (h : Settled m x ds) (he : Edge m x e) : e.path ∈ ds.map (·.path) := by
  obtain ⟨name, path, hmem, hfound⟩ := he
  obtain ⟨e', hfound', hpath⟩ := h name path hmem
  rw [hfound] at hfound'
  exact Except.ok.inj hfound' ▸ hpath

theorem Reaches.same (h : Reaches m root d) (h' : Reaches m root e) (hpath : d.path = e.path) :
    d.manifest.directory = e.manifest.directory ∧ d.manifest.dependencies = e.manifest.dependencies := by
  obtain ⟨_, _, _, hd⟩ := h.leads
  obtain ⟨_, _, _, he⟩ := h'.leads
  exact hd.same he hpath

theorem Ordered.mem_of_edge (h : Ordered m root active found) (hsplit : found = before ++ d :: after) (hc : Reaches m root c)
    (hpath : c.path = d.path) (he : Edge m c.manifest e) : e.path ∈ before.map (·.path) := by
  have hmem : d ∈ found := hsplit ▸ List.mem_append_right _ List.mem_cons_self
  obtain ⟨hdirectory, hdeps⟩ := hc.same (h.reached d hmem) hpath
  exact (h.settled before d after hsplit).edge (he.congr hdirectory hdeps)

theorem Ordered.complete (h : Ordered m root active found) (hroot : Settled m root found) (hd : Reaches m root d) :
    d.path ∈ found.map (·.path) := by
  induction hd with
  | direct hd => exact hroot.edge hd
  | further hd he ih =>
    obtain ⟨d', hd', hpath⟩ := List.mem_map.mp ih
    obtain ⟨before, after, hsplit⟩ := List.append_of_mem hd'
    rw [hsplit, List.map_append]
    exact List.mem_append_left _ (h.mem_of_edge hsplit hd hpath.symm he)

theorem Ordered.precedes (h : Ordered m root active found) (hsplit : found = before ++ d :: after) (hc : Reaches m root c)
    (hpath : c.path = d.path) (he : Reaches m c.manifest e) : e.path ∈ before.map (·.path) := by
  induction he with
  | direct he => exact h.mem_of_edge hsplit hc hpath he
  | further he hnext ih =>
    obtain ⟨d', hd', hsame⟩ := List.mem_map.mp ih
    obtain ⟨first, last, rfl⟩ := List.append_of_mem hd'
    rw [List.append_assoc, List.cons_append] at hsplit
    rw [List.map_append]
    exact List.mem_append_left _ (h.mem_of_edge hsplit (hc.trans he) hsame.symm hnext)

theorem Ordered.not_broken (h : Ordered m root active found) (hroot : Settled m root found) : ¬ Broken m root := by
  rintro ⟨y, hy, name, path, hmem, hlost⟩
  have hfound : ∃ d, found? m y name path = .ok d := by
    rcases hy with rfl | ⟨d, hd, rfl⟩
    · obtain ⟨d, hfound, -⟩ := hroot name path hmem
      exact ⟨d, hfound⟩
    · obtain ⟨d', hd', hpath⟩ := List.mem_map.mp (h.complete hroot hd)
      obtain ⟨before, after, -, hsettled⟩ := h.settled_of_mem hd'
      obtain ⟨hdirectory, hdeps⟩ := (h.reached d' hd').same hd hpath
      obtain ⟨e, hfound, -⟩ := hsettled name path (hdeps ▸ hmem)
      exact ⟨e, found?_congr hdirectory name path ▸ hfound⟩
  obtain ⟨d, hd⟩ := hfound
  obtain ⟨p, hp⟩ := found?_of_lost name hlost
  rw [hp] at hd
  cases hd

theorem Ordered.not_cyclic (h : Ordered m root [root.directory] found) (hroot : Settled m root found) : ¬ Cyclic m root := by
  rintro (⟨d, hd, hpath⟩ | ⟨d, e, hd, he, hpath⟩)
  · exact h.away _ List.mem_cons_self (hpath ▸ h.complete hroot hd)
  · obtain ⟨d', hd', hsame⟩ := List.mem_map.mp (h.complete hroot hd)
    obtain ⟨before, after, hsplit⟩ := List.append_of_mem hd'
    have hbefore : d'.path ∈ before.map (·.path) := hsame ▸ hpath ▸ h.precedes hsplit hd hsame.symm he
    have hnodup := h.nodup
    rw [hsplit, List.map_append, List.map_cons, List.nodup_append] at hnodup
    exact hnodup.2.2 _ hbefore _ List.mem_cons_self rfl

/-! ## Orders of a map -/

/-- Add the dependencies of a project as `addDepth` does, where those of each project come in some order at first. -/
def addDepthIn {m : Type → Type} [Monad m] [Disk m] (order : Manifest → List (String × String)) :
    Nat → List String → List String → List Dependency → Manifest → m (Except Manifest.Problem (List Dependency))
  | 0, _, trail, _, _ => return .error (.cycle trail)
  | n + 1, active, trail, found, x =>
    addAll (addDepthIn order n) active trail x found ((order x).mergeSort fun a b => a.1 ≤ b.1)

/-- The dependencies of a project, where those of each project come in some order at first. -/
def resolveIn {m : Type → Type} [Monad m] [Disk m] (order : Manifest → List (String × String)) (x : Manifest) :
    m (Except Manifest.Problem (List Dependency)) := do
  addDepthIn order ((← Disk.bound) + 2) [x.directory] [] [] x

open Manifest (Distinct)

theorem sorted_perm (hnames : Distinct x) (hperm : deps.Perm x.dependencies) :
    (deps.mergeSort fun a b => a.1 ≤ b.1) = sorted x := by
  have htrans : ∀ a b c : String × String, decide (a.1 ≤ b.1) = true → decide (b.1 ≤ c.1) = true →
      decide (a.1 ≤ c.1) = true := by
    simp only [decide_eq_true_eq]
    exact fun _ _ _ => String.le_trans
  have htotal : ∀ a b : String × String, (decide (a.1 ≤ b.1) || decide (b.1 ≤ a.1)) = true := by
    simp only [Bool.or_eq_true, decide_eq_true_eq]
    exact fun _ _ => String.le_total _ _
  refine List.Perm.eq_of_pairwise (fun a b ha hb hab hba => ?_) (List.pairwise_mergeSort htrans htotal _)
    (List.pairwise_mergeSort htrans htotal _) ?_
  · exact List.inj_on_of_nodup_map hnames (hperm.subset (List.mem_mergeSort.mp ha)) (List.mem_mergeSort.mp hb)
      (String.le_antisymm (of_decide_eq_true hab) (of_decide_eq_true hba))
  · exact ((List.mergeSort_perm _ _).trans hperm).trans (List.mergeSort_perm _ _).symm

theorem distinct_manifest {directory : String} (h : m.manifest directory = .ok x) : Distinct x := by
  unfold Memory.manifest Manifest.load at h
  rw [(still_read _).bind_apply] at h
  cases hread : ((Disk.read (Path.join directory Manifest.fileName) : InMemory _) m).1 with
  | error f =>
    rw [hread] at h
    cases h
  | ok b =>
    rw [hread] at h
    dsimp only at h
    rw [(still_absolute _).bind_apply] at h
    cases hparse : (Toml.parse? b).bind (Manifest.ofTable? ((Disk.absolute directory : InMemory String) m).1) with
    | none =>
      rw [hparse] at h
      cases h
    | some y =>
      rw [hparse] at h
      dsimp only at h
      obtain ⟨t, ht, hy⟩ := Option.bind_eq_some_iff.mp hparse
      have hdistinct : Distinct y.1 := Manifest.distinct_ofTable? (Toml.distinct_parse? ht) hy
      cases hencoding : Encoding.ofName? y.2 with
      | none =>
        rw [hencoding] at h
        cases h
      | some encoding =>
        rw [hencoding] at h
        exact Except.ok.inj h ▸ hdistinct

theorem distinct_of_found (h : found? m x name path = .ok d) : Distinct d.manifest := by
  obtain ⟨p, hp, -⟩ | ⟨d', hd, hleads⟩ := found?_cases m x name path
  · rw [hp] at h
    cases h
  · obtain rfl : d' = d := by simpa [hd] using h
    rcases hleads.manifest with h | ⟨-, hbare⟩
    · exact distinct_manifest h
    · rw [hbare]
      exact List.nodup_nil

theorem addAll_congr {other : List String → List String → List Dependency → Manifest → InMemory (Except Manifest.Problem (List Dependency))}
    (hinside : ∀ active trail found x, Still (inside active trail found x))
    (hother : ∀ active trail found x, Still (other active trail found x))
    (hsame : ∀ active trail found x, Distinct x → (other active trail found x m).1 = (inside active trail found x m).1) :
    (addAll other active trail x found deps m).1 = (addAll inside active trail x found deps m).1 := by
  induction deps generalizing found with
  | nil => rfl
  | cons e rest ih =>
    rw [addAll_cons hinside, addAll_cons hother]
    cases hfound : found? m x e.1 e.2 with
    | error p => rfl
    | ok d =>
      dsimp only
      rw [hsame _ _ _ _ (distinct_of_found hfound), ih]
      simp only [ih]

theorem still_addDepthIn (order : Manifest → List (String × String)) (n : Nat) (active trail : List String)
    (found : List Dependency) (x : Manifest) : Still (addDepthIn order n active trail found x : InMemory _) := by
  induction n generalizing active trail found x with
  | zero => exact .pure _
  | succ n ih => exact still_addAll ih active trail x found _

theorem addDepthIn_eq {order : Manifest → List (String × String)} (horder : ∀ x, (order x).Perm x.dependencies) (n : Nat)
    (active trail : List String) (found : List Dependency) (hx : Distinct x) :
    ((addDepthIn order n active trail found x : InMemory _) m).1 = ((addDepth n active trail found x : InMemory _) m).1 := by
  induction n generalizing active trail found x with
  | zero => rfl
  | succ n ih =>
    rw [addDepthIn, addDepth, sorted_perm hx (horder x)]
    exact addAll_congr (still_addDepth n) (still_addDepthIn order n) fun active trail found x hx => ih active trail found hx

theorem still_resolve (x : Manifest) : Still (resolve x : InMemory _) := still_bound.bind fun _ => still_addDepth _ _ _ _ _

/-- Resolving sorts the projects that a project depends on by what they depend on, or finds one that is missing or a cycle. -/
theorem resolve_sorts (root : Manifest) (m : Memory) (hdir : Path.isAbsolute m.directory = true) :
    ((resolve root : InMemory _) m).2 = m ∧
    (∀ ds, ((resolve root : InMemory _) m).1 = .ok ds →
      (ds.map (·.path)).Nodup ∧ (∀ p, p ∈ ds.map (·.path) ↔ ∃ d, Reaches m root d ∧ d.path = p) ∧
      root.directory ∉ ds.map (·.path) ∧
      ∀ before d after, ds = before ++ d :: after → ∀ e, Edge m d.manifest e → e.path ∈ before.map (·.path)) ∧
    ((∃ p, ((resolve root : InMemory _) m).1 = .error p) ↔ Broken m root ∨ Cyclic m root) ∧
    (Distinct root → ∀ order : Manifest → List (String × String), (∀ x, (order x).Perm x.dependencies) →
      (resolveIn order root : InMemory _) m = (resolve root : InMemory _) m) := by
  have hadded : Added m root [root.directory] root [] (sorted root) ((resolve root : InMemory _) m).1 := by
    rw [resolve, still_bound.bind_apply]
    refine added_addDepth hdir (.start m root) ⟨by simp, by simp, by simp, by simp⟩ ?_
    change _ ≤ 1 + (m.nodes.length + 2)
    omega
  refine ⟨still_resolve root m, fun ds hds => ?_, ?_, fun hnames order horder => ?_⟩
  · rw [hds] at hadded
    cases hadded with
    | all _ hordered hdeps =>
      have hroot : Settled m root ds := fun name path hmem => hdeps name path (List.mem_mergeSort.mpr hmem)
      refine ⟨hordered.nodup, fun p => ⟨fun hp => ?_, ?_⟩, hordered.away _ List.mem_cons_self, ?_⟩
      · obtain ⟨d, hd, rfl⟩ := List.mem_map.mp hp
        exact ⟨d, hordered.reached d hd, rfl⟩
      · rintro ⟨d, hd, rfl⟩
        exact hordered.complete hroot hd
      · exact fun before d after hsplit e he => (hordered.settled before d after hsplit).edge he
  · generalize ((resolve root : InMemory _) m).1 = r at hadded
    cases hadded with
    | fails h => exact ⟨fun _ => h, fun _ => ⟨_, rfl⟩⟩
    | all _ hordered hdeps =>
      have hroot : Settled m root _ := fun name path hmem => hdeps name path (List.mem_mergeSort.mpr hmem)
      refine ⟨by simp, fun h => ?_⟩
      rcases h with h | h
      · exact absurd h (hordered.not_broken hroot)
      · exact absurd h (hordered.not_cyclic hroot)
  · have hstill : Still (resolveIn order root : InMemory _) := still_bound.bind fun _ => still_addDepthIn _ _ _ _ _ _
    rw [(still_resolve root).apply, hstill.apply]
    rw [resolve, resolveIn, still_bound.bind_apply, still_bound.bind_apply, addDepthIn_eq horder _ _ _ _ hnames]

/-- Two projects beside each other, one of which depends on the other. -/
def neighbours : Memory := (Memory.new "/p/b").store "/p/a/loom.toml" (Text.encode "dependencies.b.path=\"../b\"") 1

/-- A project that depends on the first one. -/
def user : Manifest := { Manifest.bare "/p" "p" with dependencies := [("a", "a")] }

/-- A project that depends on itself. -/
def selfUser : Manifest := { Manifest.bare "/p" "p" with dependencies := [("p", ".")] }

/-- A project whose dependency depends on another one needs both, the other one first. If a project depends on itself, nothing
can be resolved. -/
theorem resolve_sorts_neighbours :
    Path.isAbsolute neighbours.directory = true ∧ (∃ ds, ((resolve user : InMemory _) neighbours).1 = .ok ds ∧
      ds.map (·.path) = ["/p/b", "/p/a"] ∧ (∃ d, Reaches neighbours user d ∧ d.path = "/p/b") ∧
      ¬(Broken neighbours user ∨ Cyclic neighbours user)) ∧ (Broken neighbours selfUser ∨ Cyclic neighbours selfUser) := by
  have hdir : Path.isAbsolute neighbours.directory = true := by decide +kernel
  have hpaths : ((resolve user : InMemory _) neighbours).1.toOption.map (·.map (·.path)) = some ["/p/b", "/p/a"] := by
    decide +kernel
  have hnone : ((resolve selfUser : InMemory _) neighbours).1.toOption.isNone = true := by decide +kernel
  obtain ⟨-, hsorted, hfails, -⟩ := resolve_sorts user neighbours hdir
  obtain ⟨-, -, hfails', -⟩ := resolve_sorts selfUser neighbours hdir
  refine ⟨hdir, ?_, hfails'.mp ?_⟩
  · cases hresolve : ((resolve user : InMemory _) neighbours).1 with
    | error p =>
      rw [hresolve] at hpaths
      cases hpaths
    | ok ds =>
      rw [hresolve] at hpaths
      have hlist : ds.map (·.path) = ["/p/b", "/p/a"] := Option.some.inj hpaths
      refine ⟨ds, rfl, hlist, ((hsorted ds hresolve).2.1 "/p/b").mp (by simp [hlist]), fun h => ?_⟩
      obtain ⟨p, hp⟩ := hfails.mpr h
      rw [hresolve] at hp
      cases hp
  · cases hresolve : ((resolve selfUser : InMemory _) neighbours).1 with
    | error p => exact ⟨p, rfl⟩
    | ok ds =>
      rw [hresolve] at hnone
      cases hnone

end Dependency
end Weft
