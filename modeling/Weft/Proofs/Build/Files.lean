import Mathlib.Data.Set.Basic
import Weft.Disk.Memory

/-!
# Files in memory

What operations on files find and what they write.
-/

/-! ## Files that differ in some places

Following a path looks at the places on its way and nowhere else. What is done with paths that keep clear of some places has
the same outcome whatever files are at these places.
-/

namespace Weft.Memory

/-- One step along a path. -/
def onward (place : List String) (part : String) : List String :=
  if part = "" ∨ part = "." then place else if part = ".." then place.dropLast else place ++ [part]

/-- The places that have to be directories for parts to be followed. -/
def trail (place : List String) : List String → List (List String)
  | [] => []
  | part :: rest => place :: trail (onward place part) rest

/-- Where a path starts, seen from a directory. -/
def start (directory p : String) : List String := if Path.isAbsolute p then [] else Path.parts directory

/-- The places on the way along a path. -/
def way (directory p : String) : List (List String) := trail (start directory p) (Text.pieces '/' p)

/-- Where a path ends. -/
def goal (directory p : String) : List String := (Text.pieces '/' p).foldl onward (start directory p)

/-- A path that neither leads through one of the places nor ends there. -/
def Clear (places : Set (List String)) (directory p : String) : Prop :=
  (∀ q ∈ way directory p, q ∉ places) ∧ goal directory p ∉ places

instance (places : Set (List String)) [DecidablePred (· ∈ places)] (directory p : String) :
    Decidable (Clear places directory p) :=
  inferInstanceAs (Decidable (_ ∧ _))

instance {ε α : Type} [DecidableEq α] (x : Except ε α) (a : α) : Decidable (x = .ok a) :=
  match x with
  | .ok b => decidable_of_iff (b = a) ⟨fun h => h ▸ rfl, Except.ok.inj⟩
  | .error _ => isFalse fun h => nomatch h

/-- Two states of the files that are the same but for the files at some places. -/
structure Beside (places : Set (List String)) (m m' : Memory) : Prop where
  directory : m'.directory = m.directory
  now : m'.now = m.now
  node : ∀ q, q ∉ places → m'.node? q = m.node? q
  files : ∀ q ∈ places, m.node? q ≠ some .directory
  files' : ∀ q ∈ places, m'.node? q ≠ some .directory

variable {places : Set (List String)} {m m' : Memory} {directory p : String} {place q : List String} {parts : List String}

theorem Clear.mono {more : Set (List String)} (h : Clear more directory p) (hsub : places ⊆ more) : Clear places directory p :=
  ⟨fun q hq hmem => h.1 q hq (hsub hmem), fun hmem => h.2 (hsub hmem)⟩

theorem node?_put {n : Node} : (m.put place n).node? q = if q = place then some n else m.node? q := by
  unfold node? put
  rw [List.lookup_cons]
  by_cases hq : q = place
  · simp [hq]
  · have hfilter : (m.nodes.filter fun e => e.1 ≠ place).lookup q = m.nodes.lookup q := by
      induction m.nodes with
      | nil => rfl
      | cons e rest ih =>
        obtain ⟨r, x⟩ := e
        by_cases hr : r = place
        · have hqr : (q == r) = false := by rw [hr]; simpa using hq
          rw [List.filter_cons_of_neg (by simpa using hr), ih, List.lookup_cons, hqr]
        · rw [List.filter_cons_of_pos (by simpa using hr), List.lookup_cons, List.lookup_cons, ih]
    have hne : (q == place) = false := by simpa using hq
    rw [hne, if_neg hq]
    exact hfilter

/-! ## Following paths -/

theorem follow_cons_directory {part : String} (h : m.node? place = some .directory) :
    m.follow place (part :: parts) = m.follow (onward place part) parts := by
  rw [follow, h, onward]
  simp only
  split
  · rfl
  · split
    · rfl
    · rfl

theorem follow_ok_iff : m.follow place parts = .ok q ↔
    (∀ r ∈ trail place parts, m.node? r = some .directory) ∧ q = parts.foldl onward place := by
  induction parts generalizing place with
  | nil => simp [follow, trail, eq_comm]
  | cons part rest ih =>
    rw [trail, List.forall_mem_cons, List.foldl_cons]
    by_cases h : m.node? place = some .directory
    · rw [follow_cons_directory h, ih]
      simp [h]
    · have herr : ∃ c, m.follow place (part :: rest) = .error c := by
        rw [follow]
        cases hn : m.node? place with
        | none => exact ⟨_, rfl⟩
        | some n =>
          cases n with
          | file b t => exact ⟨_, rfl⟩
          | directory => exact absurd hn h
      obtain ⟨c, hc⟩ := herr
      simp [hc, h]

theorem follow_congr (h : ∀ r ∈ trail place parts, m'.node? r = m.node? r) :
    m'.follow place parts = m.follow place parts := by
  induction parts generalizing place with
  | nil => rfl
  | cons part rest ih =>
    rw [trail, List.forall_mem_cons] at h
    by_cases hd : m.node? place = some .directory
    · rw [follow_cons_directory hd, follow_cons_directory (h.1.trans hd), ih h.2]
    · rw [follow, follow, h.1]
      cases hn : m.node? place with
      | none => rfl
      | some n =>
        cases n with
        | file b t => rfl
        | directory => exact absurd hn hd

theorem locate_ok_iff : m.locate p = .ok q ↔
    p ≠ "" ∧ (∀ r ∈ way m.directory p, m.node? r = some .directory) ∧ q = goal m.directory p := by
  unfold locate
  by_cases hp : p = ""
  · simp [hp]
  · rw [if_neg hp, follow_ok_iff]
    exact (and_iff_right hp).symm

theorem locate_congr (hd : m'.directory = m.directory) (h : ∀ r ∈ way m.directory p, m'.node? r = m.node? r) :
    m'.locate p = m.locate p := by
  unfold locate
  rw [hd]
  split
  · rfl
  · exact follow_congr h

theorem find_congr (hd : m'.directory = m.directory) (h : ∀ r ∈ way m.directory p, m'.node? r = m.node? r)
    (hgoal : m'.node? (goal m.directory p) = m.node? (goal m.directory p)) : m'.find p = m.find p := by
  unfold find
  rw [locate_congr hd h]
  cases hl : m.locate p with
  | error c => rfl
  | ok q =>
    obtain ⟨-, -, rfl⟩ := locate_ok_iff.mp hl
    simp only [hgoal]

theorem find_directory (h : m.find p = .ok .directory) :
    (∀ r ∈ way m.directory p, m.node? r = some .directory) ∧ m.node? (goal m.directory p) = some .directory := by
  unfold find at h
  cases hl : m.locate p with
  | error c => rw [hl] at h; cases h
  | ok q =>
    obtain ⟨-, hway, rfl⟩ := locate_ok_iff.mp hl
    refine ⟨hway, ?_⟩
    simp only [hl] at h
    cases hn : m.node? (goal m.directory p) with
    | none => rw [hn] at h; cases h
    | some n => rw [hn] at h; rw [Except.ok.inj h]

/-! ## The operations on files -/

/-- What is known about a path. -/
def statOf (m : Memory) (p : String) : Except Cause Stat :=
  match m.find p with
  | .ok (.file _ time) => .ok ⟨time, false⟩
  | .ok .directory => .ok ⟨m.now, true⟩
  | .error c => .error c

theorem stat_apply : (Disk.stat p : InMemory _) m = (m.statOf p, m) := by
  change (match m.find p with | .ok (.file _ time) => _ | .ok .directory => _ | .error c => _ : InMemory (Except Cause Stat)) m = _
  unfold statOf
  cases m.find p with
  | error c => rfl
  | ok n => cases n <;> rfl

theorem read_apply : (Disk.read p : InMemory _) m = (m.read p, m) := rfl

theorem write_apply {b : Bytes} : (Disk.write p b : InMemory _) m = InMemory.change (·.write p b) m := rfl

theorem makeDirectory_apply : (Disk.makeDirectory p : InMemory _) m = InMemory.change (·.makeDirectory p) m := rfl

/-! ## The two states -/

theorem Beside.refl (h : ∀ q ∈ places, m.node? q ≠ some .directory) : Beside places m m := ⟨rfl, rfl, fun _ _ => rfl, h, h⟩

namespace Beside

theorem symm (h : Beside places m m') : Beside places m' m :=
  ⟨h.directory.symm, h.now.symm, fun q hq => (h.node q hq).symm, h.files', h.files⟩

theorem trans {m'' : Memory} (h : Beside places m m') (h' : Beside places m' m'') : Beside places m m'' :=
  ⟨h'.directory.trans h.directory, h'.now.trans h.now, fun q hq => (h'.node q hq).trans (h.node q hq), h.files, h'.files'⟩

/-- States that differ at some places differ at these and others, if no directories are there. -/
theorem mono {more : Set (List String)} (h : Beside places m m') (hsub : places ⊆ more)
    (hfiles : ∀ q ∈ more, m.node? q ≠ some .directory) : Beside more m m' where
  directory := h.directory
  now := h.now
  node q hq := h.node q fun hmem => hq (hsub hmem)
  files := hfiles
  files' q hq := by
    by_cases hmem : q ∈ places
    · exact h.files' q hmem
    · rw [h.node q hmem]
      exact hfiles q hq

variable (h : Beside places m m')
include h

theorem locate (hway : ∀ q ∈ way m.directory p, q ∉ places) : m'.locate p = m.locate p :=
  locate_congr h.directory fun r hr => h.node r (hway r hr)

/-- The places on the way are directories, and so none of those where the states differ. -/
theorem locate_of_ok (hl : m.locate p = .ok q) : m'.locate p = .ok q := by
  obtain ⟨-, hway, -⟩ := locate_ok_iff.mp hl
  rw [h.locate fun r hr hmem => h.files r hmem (hway r hr), hl]

theorem find (hp : Clear places m.directory p) : m'.find p = m.find p :=
  find_congr h.directory (fun r hr => h.node r (hp.1 r hr)) (h.node _ hp.2)

theorem find_of_directory (hf : m.find p = .ok .directory) : m'.find p = .ok .directory := by
  obtain ⟨hway, hgoal⟩ := find_directory hf
  rw [h.find ⟨fun r hr hmem => h.files r hmem (hway r hr), fun hmem => h.files _ hmem hgoal⟩, hf]

theorem read (hp : Clear places m.directory p) : m'.read p = m.read p := by
  unfold Memory.read
  rw [h.find hp]

theorem statOf (hp : Clear places m.directory p) : m'.statOf p = m.statOf p := by
  unfold Memory.statOf
  rw [h.find hp, h.now]

theorem put {n : Node} (hq : q ∉ places) : Beside places (m.put q n) (m'.put q n) := by
  have hne : ∀ r ∈ places, r ≠ q := fun r hr he => hq (he ▸ hr)
  refine ⟨h.directory, h.now, fun r hr => ?_, fun r hr => ?_, fun r hr => ?_⟩
  · rw [node?_put, node?_put, h.node r hr]
  · rw [node?_put, if_neg (hne r hr)]
    exact h.files r hr
  · rw [node?_put, if_neg (hne r hr)]
    exact h.files' r hr

/-- A file is put at one of the places. -/
theorem put_file {b : Bytes} {t : Int} (hq : q ∈ places) : Beside places m (m'.put q (.file b t)) := by
  refine ⟨h.directory, h.now, fun r hr => ?_, h.files, fun r hr => ?_⟩
  · have hne : r ≠ q := fun he => hr (he ▸ hq)
    rw [node?_put, if_neg hne, h.node r hr]
  · rw [node?_put]
    split
    · exact fun he => by cases he
    · exact h.files' r hr

/-- A file at one of the places is written wherever its path can be followed. -/
theorem write_place {b : Bytes} (hl : m.locate p = .ok q) (hq : q ∈ places) :
    ∃ m'', m'.write p b = .ok m'' ∧ Beside places m m'' := by
  refine ⟨m'.put q (.file b m'.now), ?_, h.put_file hq⟩
  unfold Memory.write
  rw [h.locate_of_ok hl]
  simp only
  rw [if_neg (h.files' q hq)]

end Beside

/-! ## Files that are removed -/

/-- The files but for those at some places. -/
def without (m : Memory) (places : Set (List String)) [DecidablePred (· ∈ places)] : Memory :=
  { m with nodes := m.nodes.filter fun e => e.1 ∉ places }

theorem mem_nodes_of_node? {n : Node} (h : m.node? q = some n) : (q, n) ∈ m.nodes := by
  unfold node? at h
  rw [List.lookup_eq_some_iff] at h
  obtain ⟨l₁, l₂, heq, -⟩ := h
  rw [heq]
  exact List.mem_append_right _ List.mem_cons_self

theorem node?_without [DecidablePred (· ∈ places)] : (m.without places).node? q = if q ∈ places then none else m.node? q := by
  unfold node? without
  induction m.nodes with
  | nil => simp
  | cons e rest ih =>
    obtain ⟨r, x⟩ := e
    by_cases hr : r ∈ places
    · rw [List.filter_cons_of_neg (by simpa using hr), ih]
      split
      · rfl
      · next hq =>
        have hqr : (q == r) = false := by simpa using fun he : q = r => hq (he ▸ hr)
        rw [List.lookup_cons, hqr]
    · rw [List.filter_cons_of_pos (by simpa using hr), List.lookup_cons, List.lookup_cons, ih]
      by_cases hqr : q = r
      · simp [hqr, hr]
      · have hqr' : (q == r) = false := by simpa using hqr
        rw [hqr']

theorem beside_without [DecidablePred (· ∈ places)] (h : ∀ q ∈ places, m.node? q ≠ some .directory) :
    Beside places m (m.without places) where
  directory := rfl
  now := rfl
  node q hq := by rw [node?_without, if_neg hq]
  files := h
  files' q hq := by simp [node?_without, hq]

/-! ## Operations that see no difference -/

/-- An operation with the same outcome in states that differ at some places, which leaves such states. -/
def Blind {α : Type} (places : Set (List String)) (directory : String) (x : InMemory α) : Prop :=
  ∀ ⦃m m'⦄, m.directory = directory → Beside places m m' →
    (x m').1 = (x m).1 ∧ Beside places (x m).2 (x m').2 ∧ (x m).2.directory = directory

section Blind

variable {α β : Type} {x : InMemory α} {k : α → InMemory β}

theorem Blind.pure (a : α) : Blind places directory (pure a) := fun _ _ hd h => ⟨rfl, h, hd⟩

theorem Blind.bind (hx : Blind places directory x) (hk : ∀ a, Blind places directory (k a)) :
    Blind places directory (x >>= k) := by
  intro m m' hd h
  obtain ⟨hout, hbeside, hd'⟩ := hx hd h
  have hrest := hk (x m).1 hd' hbeside
  change (k (x m').1 (x m').2).1 = (k (x m).1 (x m).2).1 ∧ Beside places (k (x m).1 (x m).2).2 (k (x m').1 (x m').2).2 ∧ _
  rw [hout]
  exact hrest

/-- Changing the files in a way that puts the same things at other places. -/
theorem Blind.change {f : Memory → Except Fault Memory}
    (hf : ∀ {m m'}, m.directory = directory → Beside places m m' →
      (∃ e, f m = .error e ∧ f m' = .error e) ∨
        ∃ a a', f m = .ok a ∧ f m' = .ok a' ∧ Beside places a a' ∧ a.directory = directory) :
    Blind places directory (InMemory.change f) := by
  intro m m' hd h
  unfold InMemory.change
  rcases hf hd h with ⟨e, he, he'⟩ | ⟨a, a', ha, ha', hbeside, hda⟩
  · rw [he, he']
    exact ⟨rfl, h, hd⟩
  · rw [ha, ha']
    exact ⟨rfl, hbeside, hda⟩

theorem blind_write {b : Bytes} (hp : Clear places directory p) : Blind places directory (Disk.write p b : InMemory _) := by
  refine Blind.change fun {m m'} hd h => ?_
  subst hd
  unfold Memory.write
  rw [h.locate hp.1]
  cases hl : m.locate p with
  | error c => exact .inl ⟨_, rfl, rfl⟩
  | ok q =>
    have hq : q ∉ places := by
      obtain ⟨-, -, rfl⟩ := locate_ok_iff.mp hl
      exact hp.2
    simp only [h.node q hq, h.now]
    split
    · exact .inl ⟨_, rfl, rfl⟩
    · exact .inr ⟨_, _, rfl, rfl, h.put hq, rfl⟩

theorem blind_makeDirectory (hp : ∀ s ∈ Path.stages p, Clear places directory s) :
    Blind places directory (Disk.makeDirectory p : InMemory _) := by
  refine Blind.change fun {m m'} hd h => ?_
  unfold Memory.makeDirectory
  generalize Path.stages p = stages at hp ⊢
  induction stages generalizing m m' with
  | nil => exact .inr ⟨m, m', rfl, rfl, h, hd⟩
  | cons s rest ih =>
    rw [List.forall_mem_cons] at hp
    have hs : Clear places m.directory s := hd ▸ hp.1
    unfold makeAll
    rw [h.find hs, h.locate hs.1]
    cases hf : m.find s with
    | ok n =>
      cases n with
      | directory => exact ih hd h hp.2
      | file b t => exact .inl ⟨_, rfl, rfl⟩
    | error c =>
      cases hl : m.locate s with
      | error c => exact .inl ⟨_, rfl, rfl⟩
      | ok q =>
        have hq : q ∉ places := by
          obtain ⟨-, -, rfl⟩ := locate_ok_iff.mp hl
          exact hs.2
        exact ih hd (h.put hq) hp.2

end Blind

end Weft.Memory

/-! ## What operations write

An operation on files leaves all files alone but those at the places that it writes, and takes no directory away.
-/

namespace Weft.Memory

/-- The file at a place, with the time of its last change. -/
def file? (m : Memory) (q : List String) : Option (Bytes × Int) :=
  match m.node? q with
  | some (.file b t) => some (b, t)
  | _ => none

/-- A later state of the files, in which files have changed at some places alone. -/
structure Outside (places : Set (List String)) (m m' : Memory) : Prop where
  directory : m'.directory = m.directory
  directories : ∀ q, m.node? q = some .directory → m'.node? q = some .directory
  file : ∀ q, q ∉ places → m'.file? q = m.file? q

variable {places more : Set (List String)} {m m' m'' : Memory} {directory p : String} {q : List String} {b : Bytes} {t : Int}

theorem file?_eq_some : m.file? q = some (b, t) ↔ m.node? q = some (.file b t) := by
  unfold file?
  split
  · next b' t' h => simp [h]
  · next h =>
    simp only [reduceCtorEq, false_iff]
    exact h b t

theorem file?_put {n : Node} : (m.put q n).file? = Function.update m.file? q (match n with
    | .file b t => some (b, t)
    | .directory => none) := by
  funext r
  unfold file?
  rw [node?_put]
  by_cases hr : r = q
  · subst hr
    rw [if_pos rfl, Function.update_self]
    cases n <;> rfl
  · rw [if_neg hr, Function.update_of_ne hr]

namespace Outside

theorem refl (places : Set (List String)) (m : Memory) : Outside places m m := ⟨rfl, fun _ h => h, fun _ _ => rfl⟩

theorem trans (h : Outside places m m') (h' : Outside places m' m'') : Outside places m m'' where
  directory := h'.directory.trans h.directory
  directories q hq := h'.directories q (h.directories q hq)
  file q hq := (h'.file q hq).trans (h.file q hq)

theorem mono (h : Outside places m m') (hsub : places ⊆ more) : Outside more m m' :=
  ⟨h.directory, h.directories, fun q hq => h.file q fun hmem => hq (hsub hmem)⟩

/-- A path that can be followed still can. -/
theorem locate (h : Outside places m m') (hl : m.locate p = .ok q) : m'.locate p = .ok q := by
  obtain ⟨hp, hway, rfl⟩ := locate_ok_iff.mp hl
  refine locate_ok_iff.mpr ⟨hp, ?_, by rw [h.directory]⟩
  rw [h.directory]
  exact fun r hr => h.directories r (hway r hr)

end Outside

/-! ## Reading and writing -/

theorem read_ok_iff : m.read p = .ok b ↔ ∃ q t, m.locate p = .ok q ∧ m.file? q = some (b, t) := by
  unfold read find
  cases hl : m.locate p with
  | error c => simp
  | ok q =>
    simp only [Except.ok.injEq, exists_and_left, exists_eq_left', file?_eq_some]
    cases hn : m.node? q with
    | none => simp
    | some n =>
      cases n with
      | file b' t' => simp [eq_comm]
      | directory => simp

/-- What is read of a path is the file at its place. -/
theorem file?_of_read (h : m.read p = .ok b) : ∃ t, m.file? (goal m.directory p) = some (b, t) := by
  obtain ⟨q, t, hl, hf⟩ := read_ok_iff.mp h
  obtain ⟨-, -, rfl⟩ := locate_ok_iff.mp hl
  exact ⟨t, hf⟩

/-- What could be read at other places is still read. -/
theorem Outside.read (h : Outside places m m') (hp : goal m.directory p ∉ places) (hr : m.read p = .ok b) :
    m'.read p = .ok b := by
  obtain ⟨q, t, hl, hf⟩ := read_ok_iff.mp hr
  refine read_ok_iff.mpr ⟨q, t, h.locate hl, ?_⟩
  obtain ⟨-, -, rfl⟩ := locate_ok_iff.mp hl
  rw [h.file _ hp, hf]

theorem write_ok_iff : m.write p b = .ok m' ↔
    ∃ q, m.locate p = .ok q ∧ m.node? q ≠ some .directory ∧ m' = m.put q (.file b m.now) := by
  unfold write
  cases hl : m.locate p with
  | error c => simp
  | ok q =>
    simp only [Except.ok.injEq, exists_eq_left']
    split
    · next h => simp [h]
    · next h => simp [h, eq_comm]

/-- Putting a file where no directory is. -/
theorem outside_put_file (hq : m.node? q ≠ some .directory) : Outside {q} m (m.put q (.file b t)) where
  directory := rfl
  directories r hr := by
    have hne : r ≠ q := by
      rintro rfl
      exact hq hr
    rw [node?_put, if_neg hne, hr]
  file r hr := by
    rw [file?_put, Function.update_of_ne hr]

/-- Making a directory where nothing is. -/
theorem outside_put_directory (hq : m.node? q = none) : Outside ∅ m (m.put q .directory) where
  directory := rfl
  directories r hr := by
    rw [node?_put]
    split
    · rfl
    · exact hr
  file r _ := by
    rw [file?_put]
    by_cases hr : r = q
    · subst hr
      simp [file?, hq]
    · rw [Function.update_of_ne hr]

/-- Writing a path changes the file at its place alone. -/
theorem outside_write (h : m.write p b = .ok m') : Outside {goal m.directory p} m m' := by
  obtain ⟨q, hl, hq, rfl⟩ := write_ok_iff.mp h
  obtain ⟨-, -, rfl⟩ := locate_ok_iff.mp hl
  exact outside_put_file hq

/-- What is written is read back. -/
theorem read_of_write (h : m.write p b = .ok m') : m'.read p = .ok b := by
  obtain ⟨q, hl, hq, rfl⟩ := write_ok_iff.mp h
  refine read_ok_iff.mpr ⟨q, m.now, (outside_put_file hq).locate hl, ?_⟩
  rw [file?_put, Function.update_self]

/-- Making directories changes no file. -/
theorem outside_makeAll {ps : List String} (h : m.makeAll ps = .ok m') : Outside ∅ m m' := by
  induction ps generalizing m with
  | nil =>
    obtain rfl := Except.ok.inj h
    exact .refl _ _
  | cons p ps ih =>
    rw [makeAll] at h
    split at h
    · exact ih h
    · cases h
    · next c hfind =>
      split at h
      · cases h
      · next q hl =>
        have hq : m.node? q = none := by
          unfold find at hfind
          rw [hl] at hfind
          simp only at hfind
          split at hfind
          · cases hfind
          · assumption
        exact (outside_put_directory hq).trans (ih h)

/-! ## Operations that write at some places -/

/-- An operation that changes files at some places alone. -/
def Confined {α : Type} (places : Set (List String)) (directory : String) (x : InMemory α) : Prop :=
  ∀ ⦃m⦄, m.directory = directory → Outside places m (x m).2

namespace Confined

variable {α β : Type} {x : InMemory α} {k : α → InMemory β}

theorem pure (a : α) : Confined places directory (pure a) := fun _ _ => .refl _ _

theorem bind (hx : Confined places directory x) (hk : ∀ a, Confined places directory (k a)) :
    Confined places directory (x >>= k) := by
  intro m hd
  have hfirst := hx hd
  exact hfirst.trans (hk (x m).1 (hfirst.directory.trans hd))

theorem mono (h : Confined places directory x) (hsub : places ⊆ more) : Confined more directory x :=
  fun _ hd => (h hd).mono hsub

theorem change {f : Memory → Except Fault Memory} (h : ∀ m m', m.directory = directory → f m = .ok m' → Outside places m m') :
    Confined places directory (InMemory.change f) := by
  intro m hd
  unfold InMemory.change
  cases hf : f m with
  | error e => exact .refl _ _
  | ok m' => exact h m m' hd hf

end Confined

theorem confined_write : Confined {goal directory p} directory (Disk.write p b : InMemory _) :=
  Confined.change fun _ _ hd h => hd ▸ outside_write h

theorem confined_makeDirectory : Confined ∅ directory (Disk.makeDirectory p : InMemory _) :=
  Confined.change fun _ _ _ h => outside_makeAll h

end Weft.Memory
