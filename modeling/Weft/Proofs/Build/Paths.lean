import Mathlib.Data.String.Basic
import Weft.Build.Config
import Weft.Proofs.Build.Files

/-!
# Paths and the places they lead to

Where a path leads from the working directory, and which places the cache files of a source have.
-/

/-! ## Where paths end

A path that is cleaned ends where it ends, and leads through no other places. The paths of the directories above it, and of the
files below it, lead through the same places.
-/

namespace Weft

namespace Path

/-- A part of a path. -/
structure Part (x : String) : Prop where
  slash : '/' ∉ x.toList
  empty : x ≠ ""

/-- A name of a file, which is no part that means something else. -/
structure Plain (x : String) : Prop extends Part x where
  here : x ≠ "."
  up : x ≠ ".."

variable {name d p : String} {absolute : Bool} {ps done : List String} {place : List String}

/-! ## Parts of paths -/

theorem notMem_of_mem_splitOn {l piece : List Char} (h : piece ∈ l.splitOn '/') : '/' ∉ piece := by
  induction l generalizing piece with
  | nil => simp_all
  | cons c l ih =>
    rw [List.splitOn_cons_eq_if_modifyHead] at h
    split at h
    · rcases List.mem_cons.mp h with rfl | h
      · simp
      · exact ih h
    · next hc =>
      cases hl : l.splitOn '/' with
      | nil => simp [hl] at h
      | cons first rest =>
        rw [hl, List.modifyHead_cons] at h
        rcases List.mem_cons.mp h with rfl | h
        · have hfirst := ih (hl ▸ List.mem_cons_self)
          rw [List.mem_cons, not_or]
          exact ⟨fun he => hc (by simp [← he]), hfirst⟩
        · exact ih (hl ▸ List.mem_cons_of_mem _ h)

theorem part_of_mem_parts (h : name ∈ parts p) : Part name := by
  obtain ⟨hmem, hempty⟩ := List.mem_filter.mp h
  obtain ⟨l, hl, rfl⟩ := List.mem_map.mp hmem
  exact ⟨by rw [String.toList_ofList]; exact notMem_of_mem_splitOn hl, by simpa using hempty⟩

theorem forall_mem_step {P : String → Prop} {part : String} (hup : P "..") (hpart : part ≠ "." → P part)
    (hdone : ∀ x ∈ done, P x) : ∀ x ∈ step absolute done part, P x := by
  intro x hx
  unfold step at hx
  split at hx
  · exact hdone x hx
  · next hhere =>
    split at hx
    · split at hx
      · split at hx
        · cases hx
        · rwa [List.mem_singleton.mp hx]
      · rcases List.mem_cons.mp hx with rfl | hx
        · exact hup
        · exact hdone x hx
      · exact hdone x (List.mem_cons_of_mem _ hx)
    · rcases List.mem_cons.mp hx with rfl | hx
      · exact hpart hhere
      · exact hdone x hx

/-- What is left of parts are some of them and steps up. -/
theorem forall_mem_foldl_step {P : String → Prop} (hup : P "..") (hps : ∀ x ∈ ps, P x) (hdone : ∀ x ∈ done, P x) :
    ∀ x ∈ ps.foldl (step absolute) done, P x := by
  induction ps generalizing done with
  | nil => exact hdone
  | cons p ps ih =>
    rw [List.forall_mem_cons] at hps
    exact ih hps.2 (forall_mem_step hup (fun _ => hps.1) hdone)

/-- The parts that are left of a path when it is cleaned. -/
def kept (p : String) : List String := ((parts p).foldl (step (isAbsolute p)) []).reverse

theorem part_of_mem_kept (h : name ∈ kept p) : Part name :=
  forall_mem_foldl_step ⟨by decide, by decide⟩ (fun _ hx => part_of_mem_parts hx) (by simp) name (List.mem_reverse.mp h)

theorem pieces_slash (front back : List Char) :
    Text.pieces '/' (String.ofList (front ++ '/' :: back)) =
      Text.pieces '/' (String.ofList front) ++ Text.pieces '/' (String.ofList back) := by
  simp only [Text.pieces, String.toList_ofList, List.splitOn_append_cons_self, List.map_append]

theorem pieces_plain (hname : '/' ∉ name.toList) : Text.pieces '/' name = [name] := by
  rw [Text.pieces, List.splitOn_eq_singleton hname, List.map_singleton, String.ofList_toList]

theorem pieces_intercalate (hps : ∀ x ∈ ps, Part x) (hne : ps ≠ []) : Text.pieces '/' ("/".intercalate ps) = ps := by
  have hlists : ∀ l ∈ ps.map String.toList, '/' ∉ l := by
    intro l hl
    obtain ⟨x, hx, rfl⟩ := List.mem_map.mp hl
    exact (hps x hx).slash
  have hsplit := List.splitOn_intercalate '/' hlists (by simpa using hne)
  rw [Text.pieces, String.toList_intercalate]
  change ((['/'].intercalate (ps.map String.toList)).splitOn '/').map String.ofList = ps
  rw [hsplit]
  simp

theorem intercalate_ne_empty (hps : ∀ x ∈ ps, Part x) (hne : ps ≠ []) : "/".intercalate ps ≠ "" := by
  intro h
  have hpieces := pieces_intercalate hps hne
  rw [h] at hpieces
  exact (hps "" (hpieces ▸ by decide)).empty rfl

theorem isAbsolute_iff : isAbsolute p = true ↔ p.toList.head? = some '/' := by
  rw [isAbsolute, String.startsWith_string_iff]
  cases p.toList with
  | nil => simp
  | cons c cs => simp [List.cons_prefix_cons, eq_comm]

/-! ## Paths of parts -/

/-- The path of some parts, from the root or not. -/
def assembled (absolute : Bool) (ps : List String) : String := (if absolute then "/" else "") ++ "/".intercalate ps

theorem pieces_assembled (hps : ∀ x ∈ ps, Part x) (hne : ps ≠ []) :
    Text.pieces '/' (assembled absolute ps) = (if absolute then [""] else []) ++ ps := by
  cases absolute with
  | true =>
    have hlist : assembled true ps = String.ofList ([] ++ '/' :: ("/".intercalate ps).toList) := by
      rw [← String.toList_inj]
      simp [assembled]
    rw [hlist, pieces_slash, String.ofList_toList, pieces_intercalate hps hne]
    rfl
  | false =>
    have hbody : assembled false ps = "/".intercalate ps := by simp [assembled]
    rw [hbody, pieces_intercalate hps hne]
    rfl

theorem isAbsolute_assembled (hps : ∀ x ∈ ps, Part x) (hne : ps ≠ []) : isAbsolute (assembled absolute ps) = absolute := by
  cases absolute with
  | true =>
    rw [isAbsolute_iff]
    simp [assembled]
  | false =>
    rw [Bool.eq_false_iff, Ne, isAbsolute_iff]
    intro hhead
    obtain ⟨cs, hcs⟩ := List.head?_eq_some_iff.mp hhead
    have hlist : assembled false ps = String.ofList ([] ++ '/' :: cs) := by
      rw [← String.toList_inj, hcs]
      simp
    have hpieces : Text.pieces '/' (assembled false ps) = ps := pieces_assembled hps hne
    rw [hlist, pieces_slash] at hpieces
    have hmem : "" ∈ ps := by
      rw [← hpieces]
      exact List.mem_append_left _ (by decide)
    exact (hps "" hmem).empty rfl

theorem assembled_ne_empty (hps : ∀ x ∈ ps, Part x) (hne : ps ≠ []) : assembled absolute ps ≠ "" := by
  intro h
  rw [assembled, String.append_eq_empty_iff] at h
  exact intercalate_ne_empty hps hne h.2

theorem clean_eq_assembled (hne : kept p ≠ []) : clean p = assembled (isAbsolute p) (kept p) := by
  have hbody := intercalate_ne_empty (fun _ hx => part_of_mem_kept (p := p) hx) hne
  unfold clean assembled
  simp only [kept] at hbody ⊢
  split
  · rfl
  · simp

theorem parts_below (hname : Part name) : parts (d ++ "/" ++ name) = parts d ++ [name] := by
  have hlist : d ++ "/" ++ name = String.ofList (d.toList ++ '/' :: name.toList) := by
    rw [← String.toList_inj]
    simp
  rw [parts, hlist, pieces_slash, String.ofList_toList, String.ofList_toList, pieces_plain hname.slash, List.filter_append]
  simp [parts, hname.empty]

theorem parts_plain (hname : Part name) : parts name = [name] := by
  rw [parts, pieces_plain hname.slash]
  simp [hname.empty]

theorem kept_of_parts (hname : Plain name) {q : String} {before : List String} (hq : parts q = before ++ [name]) :
    kept q = (before.foldl (step (isAbsolute q)) []).reverse ++ [name] := by
  rw [kept, hq, List.foldl_append]
  simp [step, hname.here, hname.up]

/-- A name below a path. -/
theorem join_eq_assembled (hname : Plain name) : join d name = assembled (isAbsolute d) (kept d ++ [name]) := by
  by_cases hd : d = ""
  · have hrelative : isAbsolute name = isAbsolute d := by
      rw [hd, Bool.eq_iff_iff, isAbsolute_iff, isAbsolute_iff]
      simp only [String.toList_empty, List.head?_nil, reduceCtorEq, iff_false]
      exact fun hhead => hname.slash (List.mem_of_head? hhead)
    have hkept := kept_of_parts hname (show parts name = [] ++ [name] from parts_plain hname.toPart)
    rw [join, if_pos hd, if_neg hname.empty, clean_eq_assembled (by simp [hkept]), hkept, hrelative, hd]
    rfl
  · have habsolute : isAbsolute (d ++ "/" ++ name) = isAbsolute d := by
      rw [Bool.eq_iff_iff, isAbsolute_iff, isAbsolute_iff, String.toList_append, String.toList_append]
      cases hlist : d.toList with
      | nil => exact absurd (String.toList_inj.mp hlist) hd
      | cons c cs => rfl
    have hkept := kept_of_parts hname (parts_below (d := d) hname.toPart)
    rw [join, if_neg hd, if_neg hname.empty, clean_eq_assembled (by simp [hkept]), hkept, habsolute, kept]

theorem part_of_mem_below (hname : Part name) : ∀ x ∈ kept d ++ [name], Part x := by
  intro x hx
  rcases List.mem_append.mp hx with hx | hx
  · exact part_of_mem_kept hx
  · rwa [List.mem_singleton.mp hx]

/-! ## Where parts lead -/

open Memory

/-- A part that is cleaned leads where it leads. -/
theorem foldl_step_one {part : String} {place : List String} (hplace : absolute = true → place = [])
    (hdone : ∀ x ∈ done, x ≠ "" ∧ x ≠ ".") (hpart : part ≠ "") :
    (step absolute done part).reverse.foldl onward place = onward (done.reverse.foldl onward place) part := by
  unfold step
  split
  · next hhere => simp [hhere, onward]
  · next hhere =>
    split
    · next hup =>
      subst hup
      split
      · split
        · next habs => simp [hplace habs, onward]
        · rfl
      · simp
      · next x rest hx =>
        have hfirst := hdone x List.mem_cons_self
        have hne : x ≠ ".." := fun he => hx he
        simp [onward, hfirst, hne]
    · simp

/-- Parts that are cleaned lead where they lead. -/
theorem foldl_step {place : List String} (hplace : absolute = true → place = []) (hdone : ∀ x ∈ done, x ≠ "" ∧ x ≠ ".")
    (hps : ∀ x ∈ ps, x ≠ "") :
    (ps.foldl (step absolute) done).reverse.foldl onward place = ps.foldl onward (done.reverse.foldl onward place) := by
  induction ps generalizing done with
  | nil => rfl
  | cons part ps ih =>
    rw [List.forall_mem_cons] at hps
    have hstep : ∀ x ∈ step absolute done part, x ≠ "" ∧ x ≠ "." :=
      forall_mem_step (by decide) (fun hhere => ⟨hps.1, hhere⟩) hdone
    rw [List.foldl_cons, List.foldl_cons, ih hstep hps.2, foldl_step_one hplace hdone hps.1]

theorem onward_plain (hname : Plain name) : onward place name = place ++ [name] := by
  simp [onward, hname.empty, hname.here, hname.up]

end Path

namespace Memory

open Weft.Path

variable {m : Memory} {directory d p name part : String} {place : List String} {ps qs done : List String} {absolute : Bool}

/-- Parts without a name lead nowhere. -/
theorem foldl_filter_ne : (ps.filter (· ≠ "")).foldl onward place = ps.foldl onward place := by
  rw [List.foldl_filter]
  congr
  funext place part
  by_cases hpart : part = ""
  · simp [hpart, onward]
  · simp [hpart]

theorem foldl_root : (if absolute then [""] else []).foldl onward place = place := by
  cases absolute <;> simp [onward]

theorem start_assembled (hps : ∀ x ∈ ps, Part x) (hne : ps ≠ []) :
    start directory (assembled (isAbsolute d) ps) = start directory d := by
  rw [start, start, isAbsolute_assembled hps hne]

/-- A name below a path is at the place of this name inside the place of the path. -/
theorem goal_join (hname : Plain name) : goal directory (join d name) = goal directory d ++ [name] := by
  have hps := part_of_mem_below (d := d) hname.toPart
  have hkept : (kept d).foldl onward (start directory d) = goal directory d := by
    rw [kept, foldl_step (fun habsolute => by rw [start, if_pos habsolute]) (by simp)
      fun _ hx => (part_of_mem_parts hx).empty, parts, foldl_filter_ne]
    rfl
  rw [join_eq_assembled hname, goal, start_assembled hps (by simp), pieces_assembled hps (by simp), List.foldl_append,
    foldl_root, List.foldl_append, hkept, List.foldl_cons, onward_plain hname]
  rfl

/-! ## Directories on the way -/

/-- Some parts lead through directories, and to one. -/
def Walked (m : Memory) (place ps : List String) : Prop := ∀ qs, qs <+: ps → m.node? (qs.foldl onward place) = some .directory

theorem Walked.here (h : m.Walked place ps) : m.node? place = some .directory := h [] (List.nil_prefix)

theorem Walked.of_prefix (h : m.Walked place ps) (hqs : qs <+: ps) : m.Walked place qs :=
  fun rs hrs => h rs (hrs.trans hqs)

theorem walked_cons : m.Walked place (part :: ps) ↔ m.node? place = some .directory ∧ m.Walked (onward place part) ps := by
  constructor
  · exact fun h => ⟨h.here, fun qs hqs => h (part :: qs) ((List.prefix_cons_inj part).mpr hqs)⟩
  · rintro ⟨hplace, h⟩ qs hqs
    rcases List.prefix_cons_iff.mp hqs with rfl | ⟨rs, rfl, hrs⟩
    · exact hplace
    · exact h rs hrs

theorem walked_iff : m.Walked place ps ↔
    (∀ r ∈ trail place ps, m.node? r = some .directory) ∧ m.node? (ps.foldl onward place) = some .directory := by
  induction ps generalizing place with
  | nil => simp [Walked, trail]
  | cons part ps ih => rw [walked_cons, ih, trail, List.forall_mem_cons, List.foldl_cons, and_assoc]

theorem trail_concat : trail place (ps ++ [part]) = trail place ps ++ [ps.foldl onward place] := by
  induction ps generalizing place with
  | nil => rfl
  | cons q ps ih => rw [List.cons_append, trail, trail, ih]; rfl

theorem find_directory_iff :
    m.find p = .ok .directory ↔ p ≠ "" ∧ m.Walked (start m.directory p) (Text.pieces '/' p) := by
  rw [walked_iff]
  constructor
  · intro h
    refine ⟨?_, find_directory h⟩
    rintro rfl
    simp [find, locate] at h
  · rintro ⟨hp, hway, hgoal⟩
    have hlocate : m.locate p = .ok (goal m.directory p) := locate_ok_iff.mpr ⟨hp, hway, rfl⟩
    rw [find, hlocate]
    simp only [goal, hgoal]

/-- Parts that are left out take no part. -/
theorem Walked.parts (h : m.Walked place (Text.pieces '/' p)) : m.Walked place (parts p) := by
  intro qs hqs
  obtain ⟨rs, hrs, rfl⟩ := List.prefix_filter_iff.mp hqs
  rw [foldl_filter_ne]
  exact h rs hrs

/-- Parts that are cleaned lead through directories if they do. -/
theorem Walked.step_one (hdone : m.Walked place done.reverse)
    (hnext : m.node? (onward (done.reverse.foldl onward place) part) = some .directory) :
    m.Walked place (step absolute done part).reverse := by
  have hpush : ∀ x, x = part → m.Walked place (x :: done).reverse := by
    rintro x rfl qs hqs
    rw [List.reverse_cons, List.prefix_concat_iff] at hqs
    rcases hqs with rfl | hqs
    · rw [List.foldl_append]
      exact hnext
    · exact hdone qs hqs
  unfold step
  split
  · exact hdone
  · split
    · next hup =>
      split
      · split
        · exact hdone
        · exact hpush ".." hup.symm
      · exact hpush ".." hup.symm
      · exact hdone.of_prefix (by simp)
    · exact hpush part rfl

theorem Walked.kept (h : m.Walked (start directory p) (Text.pieces '/' p)) : m.Walked (start directory p) (kept p) := by
  have hfold : ∀ (ps done : List String), (∀ x ∈ ps, x ≠ "") → (∀ x ∈ done, x ≠ "" ∧ x ≠ ".") →
      m.Walked (start directory p) done.reverse → m.Walked (done.reverse.foldl onward (start directory p)) ps →
      m.Walked (start directory p) (ps.foldl (step (isAbsolute p)) done).reverse := by
    intro ps
    induction ps with
    | nil => exact fun _ _ _ h _ => h
    | cons part ps ih =>
      intro done hps hdone hwalked hrest
      rw [List.forall_mem_cons] at hps
      rw [walked_cons] at hrest
      refine ih _ hps.2 (forall_mem_step (by decide) (fun hhere => ⟨hps.1, hhere⟩) hdone)
        (hwalked.step_one hrest.2.here) ?_
      rw [foldl_step_one (fun habsolute => by rw [start, if_pos habsolute]) hdone hps.1]
      exact hrest.2
  refine hfold (Path.parts p) [] (fun _ hx => (part_of_mem_parts hx).empty) (by simp) ?_ h.parts
  exact fun qs hqs => by rw [List.prefix_nil.mp hqs]; exact h.here

theorem Walked.root (h : m.Walked place ps) : m.Walked place ((if absolute then [""] else []) ++ ps) := by
  cases absolute with
  | true => exact walked_cons.mpr ⟨h.here, by simpa [onward] using h⟩
  | false => exact h

theorem walked_assembled (hps : ∀ x ∈ ps, Part x) (hne : ps ≠ []) (h : m.Walked (start directory d) ps) :
    m.Walked (start directory (assembled (isAbsolute d) ps)) (Text.pieces '/' (assembled (isAbsolute d) ps)) := by
  rw [start_assembled hps hne, pieces_assembled hps hne]
  exact h.root

/-- The directories above one that is there are there. -/
theorem find_stages (h : m.find d = .ok .directory) : ∀ s ∈ stages d, m.find s = .ok .directory := by
  intro s hs
  obtain ⟨-, hwalked⟩ := find_directory_iff.mp h
  obtain ⟨i, hi, rfl⟩ := List.mem_map.mp hs
  have hps : ∀ x ∈ (parts d).take (i + 1), Part x := fun x hx => part_of_mem_parts (List.mem_of_mem_take hx)
  have hne : (parts d).take (i + 1) ≠ [] := by
    rw [List.mem_range] at hi
    exact List.ne_nil_of_length_pos (by rw [List.length_take]; omega)
  exact find_directory_iff.mpr
    ⟨assembled_ne_empty hps hne, walked_assembled hps hne (hwalked.parts.of_prefix (List.take_prefix _ _))⟩

/-- A name below a directory that is there can be reached. -/
theorem locate_join (hname : Plain name) (h : m.find d = .ok .directory) :
    m.locate (join d name) = .ok (goal m.directory (join d name)) := by
  obtain ⟨-, hwalked⟩ := find_directory_iff.mp h
  have hps := part_of_mem_below (d := d) hname.toPart
  rw [locate_ok_iff, join_eq_assembled hname]
  refine ⟨assembled_ne_empty hps (by simp), ?_, rfl⟩
  obtain ⟨htrail, hend⟩ := walked_iff.mp hwalked.kept.root
  rw [way, start_assembled hps (by simp), pieces_assembled hps (by simp), ← List.append_assoc, trail_concat,
    List.forall_mem_append]
  exact ⟨htrail, by simpa using hend⟩

end Memory

end Weft

/-! ## Where cache files are

Each cache file is inside the cache directory, and no list of imports is kept where a module is.
-/

namespace Weft.Build

theorem notMem_hexDigits (n v : Nat) : '/' ∉ (Text.hexDigits n v).toList := by
  induction n generalizing v with
  | zero => simp [Text.hexDigits]
  | succ n ih => simp [Text.hexDigits, ih]

variable {c : Config} {l : Layout} {directory : String}

/-- The name of a cache file, with an extension that is longer than the names for directories. -/
theorem plain_cacheName {extension : String} (s : Source) (hslash : '/' ∉ extension.toList) (hlong : 2 < extension.toList.length) :
    Path.Plain (c.cacheName s ++ extension) := by
  have hlength : 2 < (c.cacheName s ++ extension).toList.length := by
    rw [String.toList_append, List.length_append]
    omega
  have hne : ∀ x : String, x.toList.length ≤ 2 → c.cacheName s ++ extension ≠ x := by
    rintro x hx rfl
    omega
  refine { slash := ?_, empty := hne "" (by decide), here := hne "." (by decide), up := hne ".." (by decide) }
  rw [String.toList_append, List.mem_append, not_or]
  exact ⟨notMem_hexDigits _ _, hslash⟩

theorem plain_imports (s : Source) : Path.Plain (c.cacheName s ++ importsExtension) := plain_cacheName s (by decide) (by decide)

theorem plain_module (s : Source) : Path.Plain (c.cacheName s ++ moduleExtension) := plain_cacheName s (by decide) (by decide)

/-- The places of the lists of imports that a build keeps. -/
def importsPlaces (c : Config) (l : Layout) (directory : String) : Set (List String) :=
  {q | ∃ s ∈ l.sources, ∃ f ∈ c.cacheFiles? s, q = Memory.goal directory f.imports}

/-- The places inside the cache directory of a build. -/
def cachePlaces (c : Config) (directory : String) : Set (List String) :=
  {q | ∃ d ∈ c.cacheDir, Memory.goal directory d <+: q ∧ q ≠ Memory.goal directory d}

instance : DecidablePred (· ∈ cachePlaces c directory) :=
  fun q => inferInstanceAs (Decidable (∃ d ∈ c.cacheDir, Memory.goal directory d <+: q ∧ q ≠ Memory.goal directory d))

/-- The cache files of a source are inside the cache directory. -/
theorem cacheFiles_goal {s : Source} {f : CacheFiles} (directory : String) (hf : f ∈ c.cacheFiles? s) : ∃ d ∈ c.cacheDir,
    Memory.goal directory f.imports = Memory.goal directory d ++ [c.cacheName s ++ importsExtension] ∧
      Memory.goal directory f.module = Memory.goal directory d ++ [c.cacheName s ++ moduleExtension] := by
  obtain ⟨d, hd, rfl⟩ := Option.map_eq_some_iff.mp hf
  exact ⟨d, hd, Memory.goal_join (plain_imports s), Memory.goal_join (plain_module s)⟩

/-- The cache files of a source can be reached if the cache directory is there. -/
theorem cacheFiles_locate {m : Memory} {s : Source} {f : CacheFiles} (h : ∀ d ∈ c.cacheDir, m.find d = .ok .directory)
    (hf : f ∈ c.cacheFiles? s) : m.locate f.imports = .ok (Memory.goal m.directory f.imports) ∧
      m.locate f.module = .ok (Memory.goal m.directory f.module) := by
  obtain ⟨d, hd, rfl⟩ := Option.map_eq_some_iff.mp hf
  exact ⟨Memory.locate_join (plain_imports s) (h d hd), Memory.locate_join (plain_module s) (h d hd)⟩

theorem mem_cachePlaces {d name : String} (hd : d ∈ c.cacheDir) : Memory.goal directory d ++ [name] ∈ cachePlaces c directory :=
  ⟨d, hd, List.prefix_append _ _, by simp⟩

theorem module_mem_cachePlaces {s : Source} {f : CacheFiles} (hf : f ∈ c.cacheFiles? s) :
    Memory.goal directory f.module ∈ cachePlaces c directory := by
  obtain ⟨d, hd, -, hmodule⟩ := cacheFiles_goal directory hf
  rw [hmodule]
  exact mem_cachePlaces hd

theorem importsPlaces_subset : importsPlaces c l directory ⊆ cachePlaces c directory := by
  rintro q ⟨s, -, f, hf, rfl⟩
  obtain ⟨d, hd, himports, -⟩ := cacheFiles_goal directory hf
  rw [himports]
  exact mem_cachePlaces hd

/-- No module is kept where a list of imports is. -/
theorem module_notMem_importsPlaces {s : Source} {f : CacheFiles} (hf : f ∈ c.cacheFiles? s) :
    Memory.goal directory f.module ∉ importsPlaces c l directory := by
  rintro ⟨s', -, f', hf', he⟩
  obtain ⟨d, -, -, hmodule⟩ := cacheFiles_goal directory hf
  obtain ⟨d', -, himports, -⟩ := cacheFiles_goal directory hf'
  rw [hmodule, himports] at he
  have hname := congrArg String.toList (List.cons.inj (List.append_inj_right' he (by simp))).1
  rw [String.toList_append, String.toList_append] at hname
  have hlast := congrArg List.getLast? hname
  rw [List.getLast?_append_of_ne_nil _ (by decide), List.getLast?_append_of_ne_nil _ (by decide)] at hlast
  revert hlast
  decide

end Weft.Build
