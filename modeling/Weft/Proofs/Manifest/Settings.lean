import Mathlib.Data.List.Nodup
import Weft.Manifest

/-!
# Names in settings files

In a table of a settings file each name stands once, whether the table was opened by a header, on the way to another key, or
written inside a line. So a manifest names each dependency once.
-/

namespace Weft.Toml

/-! ## Tables that name each value once -/

/-- In all tables of a value each name stands once. -/
inductive Value.Distinct : Value → Prop
  | string (s : String) : Distinct (.string s)
  | int (n : Int) : Distinct (.int n)
  | bool (b : Bool) : Distinct (.bool b)
  | float : Distinct .float
  | time : Distinct .time
  | array {items : List Value} (h : ∀ v ∈ items, Distinct v) : Distinct (.array items)
  | table {t : Table} (hnames : (t.map Prod.fst).Nodup) (hvalues : ∀ e ∈ t, Distinct e.2) : Distinct (.table t)
  | tables {ts : List Table} (hnames : ∀ t ∈ ts, (t.map Prod.fst).Nodup) (hvalues : ∀ t ∈ ts, ∀ e ∈ t, Distinct e.2) :
      Distinct (.tables ts)

/-- In a table, and in all tables below it, each name stands once. -/
structure Table.Distinct (t : Table) : Prop where
  names : (t.map Prod.fst).Nodup
  values : ∀ e ∈ t, e.2.Distinct

variable {t t' u : Table} {ts : List Table} {v : Value} {name : String} {path key context : List String}

namespace Table.Distinct

theorem nil : Distinct [] := ⟨List.nodup_nil, by simp⟩

theorem append (h : Distinct t) (hfree : t.lookup name = none) (hv : v.Distinct) : Distinct (t ++ [(name, v)]) where
  names := by
    rw [List.map_append, List.nodup_append]
    refine ⟨h.names, by simp, fun a ha b hb => ?_⟩
    rintro rfl
    obtain rfl : a = name := by simpa using hb
    obtain ⟨e, he, rfl⟩ := List.mem_map.mp ha
    exact absurd (List.lookup_eq_none_iff.mp hfree e he) (by simp)
  values e he := by
    rcases List.mem_append.mp he with he | he
    · exact h.values e he
    · exact List.mem_singleton.mp he ▸ hv

theorem set (h : Distinct t) (name : String) (hv : v.Distinct) : Distinct (Table.set t name v) where
  names := by
    have hnames : (Table.set t name v).map Prod.fst = t.map Prod.fst := by
      rw [Table.set, List.map_map]
      refine List.map_congr_left fun e _ => ?_
      rw [Function.comp_apply]
      split
      · next he => exact he.symm
      · rfl
    exact hnames ▸ h.names
  values e he := by
    obtain ⟨e', he', rfl⟩ := List.mem_map.mp he
    split
    · exact hv
    · exact h.values e' he'

theorem lookup (h : Distinct t) (hl : t.lookup name = some v) : v.Distinct := by
  obtain ⟨_, _, rfl, -⟩ := List.lookup_eq_some_iff.mp hl
  exact h.values (name, v) (by simp)

theorem value (h : Distinct t) : (Value.table t).Distinct := .table h.names h.values

end Table.Distinct

theorem Value.Distinct.inside (h : (Value.table t).Distinct) : t.Distinct := by
  cases h with
  | table hnames hvalues => exact ⟨hnames, hvalues⟩

theorem Value.Distinct.each (h : (Value.tables ts).Distinct) : ∀ t ∈ ts, Table.Distinct t := by
  cases h with
  | tables hnames hvalues => exact fun t ht => ⟨hnames t ht, hvalues t ht⟩

theorem distinct_tables (h : ∀ t ∈ ts, Table.Distinct t) : (Value.tables ts).Distinct :=
  .tables (fun t ht => (h t ht).names) fun t ht => (h t ht).values

namespace Document

variable {f g : Table → Option Table} {d d' : Document}

/-- Changing a table at a path keeps names apart, if the change itself does wherever a test fails. -/
theorem distinct_change (ht : t.Distinct) (htest : change g path t = none)
    (hf : ∀ u u', Table.Distinct u → g u = none → f u = some u' → Table.Distinct u') (h : change f path t = some t') :
    t'.Distinct := by
  induction path generalizing t t' with
  | nil => exact hf t t' ht htest h
  | cons name path ih =>
    rw [change] at h htest
    split at h
    · next u hu =>
      rw [hu] at htest
      obtain ⟨u', hu', rfl⟩ := Option.map_eq_some_iff.mp h
      exact ht.set name (ih (ht.lookup hu).inside (Option.map_eq_none_iff.mp htest) hu').value
    · next us hus =>
      rw [hus] at htest
      split at h
      · next u hu =>
        simp only [hu] at htest
        obtain ⟨u', hu', rfl⟩ := Option.map_eq_some_iff.mp h
        have hall := (ht.lookup hus).each
        refine ht.set name (distinct_tables fun w hw => ?_)
        rcases List.mem_append.mp hw with hw | hw
        · exact hall w (List.dropLast_subset us hw)
        · obtain rfl := List.mem_singleton.mp hw
          exact ih (hall u (List.mem_of_getLast? hu)) (Option.map_eq_none_iff.mp htest) hu'
      · cases h
    · cases h

theorem change_never (path : List String) (t : Table) : change (fun _ => none) path t = none := by
  induction path generalizing t with
  | nil => rfl
  | cons name path ih =>
    rw [change]
    split
    · rw [ih]; rfl
    · split
      · rw [ih]; rfl
      · rfl
    · rfl

/-- A name that has no value yet can be given one. -/
theorem distinct_add (hd : d.root.Distinct) (hfree : d.has path name = false) (hv : v.Distinct)
    (h : change (fun t => some (t ++ [(name, v)])) path d.root = some t') : t'.Distinct := by
  refine distinct_change hd (Option.not_isSome_iff_eq_none.mp (by simpa [has] using hfree)) (fun u u' hu htest hsome => ?_) h
  rw [← Option.some.inj hsome]
  refine hu.append (Option.not_isSome_iff_eq_none.mp fun hs => ?_) hv
  rw [if_pos hs] at htest
  cases htest

theorem distinct_assign {whole : Bool} (hd : d.root.Distinct) (hv : v.Distinct) (h : d.assign path name v whole = some d') :
    d'.root.Distinct := by
  obtain ⟨root, hroot, h⟩ := Option.bind_eq_some_iff.mp h
  rw [← Option.some.inj h]
  change Table.Distinct root
  cases hknown : d.has path name with
  | false =>
    simp only [hknown, Bool.not_false, if_true] at hroot
    exact distinct_add hd hknown hv hroot
  | true =>
    refine distinct_change hd (change_never path d.root) (fun u u' hu _ hsome => ?_) hroot
    rw [hknown] at hsome
    simp only [Bool.not_true, Bool.false_eq_true, if_false] at hsome
    split at hsome
    · exact Option.some.inj hsome ▸ hu.set name hv
    · split at hsome
      · exact Option.some.inj hsome ▸ hu
      · cases hsome

theorem distinct_ensure (hd : d.root.Distinct) (h : d.ensure path key = some d') : d'.root.Distinct := by
  induction key generalizing d path with
  | nil => exact Option.some.inj h ▸ hd
  | cons name rest ih =>
    cases rest with
    | nil => exact Option.some.inj h ▸ hd
    | cons next rest =>
      rw [ensure] at h
      · dsimp only at h
        split at h
        · exact ih hd h
        · next hfree =>
          obtain ⟨root, hroot, h⟩ := Option.bind_eq_some_iff.mp h
          have hadd := distinct_add hd (by simpa using hfree) Table.Distinct.nil.value hroot
          exact ih (d := { d with root, implicit := (path ++ [name]) :: d.implicit }) hadd h
      · simp

theorem distinct_openTable (hd : d.root.Distinct) (h : d.openTable key = some d') : d'.root.Distinct := by
  obtain ⟨d₁, hd₁, h⟩ := Option.bind_eq_some_iff.mp h
  obtain ⟨d₂, hd₂, h⟩ := Option.bind_eq_some_iff.mp h
  have hassign := distinct_assign (distinct_ensure hd hd₁) Table.Distinct.nil.value hd₂
  exact Option.some.inj h ▸ hassign

theorem distinct_openNext (hd : d.root.Distinct) (h : d.openNext key = some d') : d'.root.Distinct := by
  obtain ⟨d₁, hd₁, h⟩ := Option.bind_eq_some_iff.mp h
  obtain ⟨root, hroot, h⟩ := Option.bind_eq_some_iff.mp h
  rw [← Option.some.inj h]
  refine distinct_change (distinct_ensure hd hd₁) (change_never _ _) (fun u u' hu _ hsome => ?_) hroot
  split at hsome
  · next hfree =>
    rw [← Option.some.inj hsome]
    exact hu.append hfree (distinct_tables (by simpa using Table.Distinct.nil))
  · next us hus =>
    rw [← Option.some.inj hsome]
    refine hu.set _ (distinct_tables fun w hw => ?_)
    rcases List.mem_append.mp hw with hw | hw
    · exact (hu.lookup hus).each w hw
    · exact List.mem_singleton.mp hw ▸ Table.Distinct.nil
  · cases hsome

theorem distinct_openDotted (hd : d.root.Distinct) (h : d.openDotted path key = some d') : d'.root.Distinct := by
  induction key generalizing d path with
  | nil => exact Option.some.inj h ▸ hd
  | cons name rest ih =>
    cases rest with
    | nil => exact Option.some.inj h ▸ hd
    | cons next rest =>
      rw [openDotted] at h
      · obtain ⟨d₁, hd₁, h⟩ := Option.bind_eq_some_iff.mp h
        have hd : Document.root { d with implicit := (path ++ [name]) :: d.implicit.erase (path ++ [name]) } |>.Distinct := hd
        exact ih (distinct_openTable hd hd₁) h
      · simp

theorem distinct_entry (hd : d.root.Distinct) (hv : v.Distinct) (h : d.entry context key v = some d') : d'.root.Distinct := by
  obtain ⟨d₁, hd₁, h⟩ := Option.bind_eq_some_iff.mp h
  have hd₁ := distinct_openDotted hd hd₁
  split at h
  · exact distinct_assign (d := { d₁ with lists := _ :: d₁.lists.erase _ }) hd₁ hv h
  all_goals
    obtain ⟨d₂, hd₂, h⟩ := Option.bind_eq_some_iff.mp h
    have hassign := distinct_assign hd₁ hv hd₂
    exact Option.some.inj h ▸ hassign

end Document

/-- The value that a line gives. -/
def Line.Distinct : Line → Prop
  | .entry _ v => v.Distinct
  | _ => True

theorem Document.distinct_fill {d d' : Document} {lines : List Line} (hd : d.root.Distinct) (hlines : ∀ l ∈ lines, l.Distinct)
    (h : d.fill context lines = some d') : d'.root.Distinct := by
  induction lines generalizing d context with
  | nil => exact Option.some.inj h ▸ hd
  | cons l rest ih =>
    rw [List.forall_mem_cons] at hlines
    cases l with
    | header key =>
      obtain ⟨d₁, hd₁, h⟩ := Option.bind_eq_some_iff.mp h
      exact ih (distinct_openTable hd hd₁) hlines.2 h
    | next key =>
      obtain ⟨d₁, hd₁, h⟩ := Option.bind_eq_some_iff.mp h
      exact ih (distinct_openNext hd hd₁) hlines.2 h
    | entry key v =>
      obtain ⟨d₁, hd₁, h⟩ := Option.bind_eq_some_iff.mp h
      exact ih (distinct_entry hd hlines.1 hd₁) hlines.2 h

theorem distinct_tableOf? {lines : List Line} (hlines : ∀ l ∈ lines, l.Distinct) (h : tableOf? lines = some t) : t.Distinct := by
  obtain ⟨d, hd, rfl⟩ := Option.map_eq_some_iff.mp h
  exact Document.distinct_fill .nil hlines hd

/-! ## Reading tables -/

namespace Reader

variable {α β : Type} {P : α → Prop} {Q : β → Prop} {r : Reader α} {k : α → Reader β}

/-- What a reader gives has a property. -/
def Yields (P : α → Prop) (r : Reader α) : Prop := ∀ cs a rest, r cs = some (a, rest) → P a

theorem Yields.bind (hr : Yields P r) (hk : ∀ a, P a → Yields Q (k a)) : Yields Q (r >>= k) := by
  intro cs b rest h
  obtain ⟨⟨a, cs'⟩, ha, hb⟩ := Option.bind_eq_some_iff.mp h
  exact hk a (hr cs a cs' ha) cs' b rest hb

theorem Yields.after (hk : ∀ a, Yields Q (k a)) : Yields Q (r >>= k) :=
  Yields.bind (P := fun _ => True) (fun _ _ _ _ => trivial) fun a _ => hk a

theorem yields_pure {a : α} (h : P a) : Yields P (pure a : Reader α) := by
  intro cs b rest h'
  obtain ⟨rfl, -⟩ := Prod.mk.inj (Option.some.inj h')
  exact h

theorem yields_failure : Yields P (failure : Reader α) := fun _ _ _ h => by cases h

end Reader

open Reader

theorem distinct_scalar? {cs : List Char} (h : scalar? cs = some v) : v.Distinct := by
  have hfitting : ∀ {n : Int}, fitting n = some v → v.Distinct := by
    intro n h
    unfold fitting at h
    split at h
    · exact Option.some.inj h ▸ .int n
    · cases h
  unfold scalar? at h
  split at h
  · exact Option.some.inj h ▸ .bool true
  split at h
  · exact Option.some.inj h ▸ .bool false
  rcases Option.or_eq_some_iff.mp h with h | ⟨-, h⟩
  · unfold based? at h
    split at h <;> first
      | exact hfitting (Option.ite_none_right_eq_some.mp h).2
      | cases h
  rcases Option.or_eq_some_iff.mp h with h | ⟨-, h⟩
  · unfold decimal? at h
    exact hfitting (Option.ite_none_right_eq_some.mp h).2
  split at h
  · exact Option.some.inj h ▸ .float
  split at h
  · exact Option.some.inj h ▸ .time
  · cases h

theorem yields_word : Yields Value.Distinct word := by
  refine .after fun cs => .after fun _ => fun _ v _ h => ?_
  obtain ⟨v', hv, h⟩ := Option.map_eq_some_iff.mp h
  obtain ⟨rfl, -⟩ := Prod.mk.inj h
  exact distinct_scalar? hv

variable {value : Reader Value}

theorem yields_elements (hvalue : Yields Value.Distinct value) (n : Nat) :
    Yields (fun vs => ∀ v ∈ vs, v.Distinct) (elements value n) := by
  induction n with
  | zero => exact yields_failure
  | succ n ih =>
    refine .after fun _ => .after fun stop => ?_
    split
    · exact yields_pure (by simp)
    · refine .bind hvalue fun v hv => .after fun _ => .after fun more => ?_
      split
      · exact ih.bind fun vs hvs => yields_pure (List.forall_mem_cons.mpr ⟨hv, hvs⟩)
      · exact .after fun _ => yields_pure (by simpa using hv)

theorem yields_members (hvalue : Yields Value.Distinct value) (n : Nat) :
    Yields (fun ls => ∀ l ∈ ls, l.Distinct) (members value n) := by
  induction n with
  | zero => exact yields_failure
  | succ n ih =>
    refine .after fun _ => .after fun stop => ?_
    split
    · exact yields_pure (by simp)
    · refine .after fun key => .after fun _ => .after fun _ => .bind hvalue fun v hv => .after fun _ => .after fun more => ?_
      have hline : (Line.entry key v).Distinct := hv
      split
      · exact ih.bind fun ls hls => yields_pure (List.forall_mem_cons.mpr ⟨hline, hls⟩)
      · exact .after fun _ => yields_pure (by simpa using hline)

theorem yields_value (depth : Nat) : Yields Value.Distinct (Toml.value depth) := by
  induction depth with
  | zero => exact yields_failure
  | succ depth ih =>
    refine .after fun _ => .after fun first => ?_
    split
    · exact .after fun s => yields_pure (.string s)
    · exact .after fun s => yields_pure (.string s)
    · exact .after fun _ => .after fun cs => (yields_elements ih _).bind fun vs hvs => yields_pure (.array hvs)
    · refine .after fun _ => .after fun cs => (yields_members ih _).bind fun ls hls => fun _ v _ h => ?_
      obtain ⟨t, ht, h⟩ := Option.map_eq_some_iff.mp h
      obtain ⟨rfl, -⟩ := Prod.mk.inj h
      exact (distinct_tableOf? hls ht).value
    · exact yields_word

theorem yields_line : Yields Line.Distinct line := by
  refine .after fun header => ?_
  split
  · refine .after fun next => .after fun key => .after fun _ => ?_
    split
    · exact .after fun _ => .after fun _ => yields_pure trivial
    · exact .after fun _ => yields_pure trivial
  · exact .after fun key => .after fun _ => .after fun cs => (yields_value _).bind fun v hv => .after fun _ => yields_pure hv

theorem yields_lines (n : Nat) : Yields (fun ls => ∀ l ∈ ls, l.Distinct) (lines n) := by
  induction n with
  | zero => exact yields_failure
  | succ n ih =>
    refine .after fun _ => .after fun cs => ?_
    split
    · exact yields_pure (by simp)
    · exact yields_line.bind fun l hl => ih.bind fun ls hls => yields_pure (List.forall_mem_cons.mpr ⟨hl, hls⟩)

/-- In a settings file each name stands once in its table. -/
theorem distinct_parse? {b : Bytes} (h : parse? b = some t) : t.Distinct := by
  obtain ⟨s, -, h⟩ := Option.bind_eq_some_iff.mp h
  extract_lets cs continued at h
  split at h
  · cases h
  · obtain ⟨⟨ls, rest⟩, hls, h⟩ := Option.bind_eq_some_iff.mp h
    exact distinct_tableOf? (yields_lines _ _ ls rest hls) h

end Weft.Toml

namespace Weft.Manifest

variable {t u : Toml.Table} {name : String}

theorem distinct_setting? {v : Toml.Value} (ht : t.Distinct) (h : setting? t name = some v) : v.Distinct := by
  rcases Option.or_eq_some_iff.mp h with h | ⟨-, h⟩
  · exact ht.lookup h
  · obtain ⟨e, he, rfl⟩ := Option.map_eq_some_iff.mp h
    exact ht.values e (List.mem_of_find?_eq_some he)

theorem names_dependencies? {deps : List (String × String)} (ht : t.Distinct) (h : dependencies? t = some deps) :
    (deps.map Prod.fst).Nodup := by
  unfold dependencies? at h
  split at h
  · next u hu =>
    have hnames : deps.map Prod.fst = u.map Prod.fst := by
      clear hu
      induction u generalizing deps with
      | nil =>
        cases h
        rfl
      | cons e u ih =>
        rw [List.mapM_cons] at h
        obtain ⟨d, hd, h⟩ := Option.bind_eq_some_iff.mp h
        obtain ⟨ds, hds, h⟩ := Option.bind_eq_some_iff.mp h
        rw [← Option.some.inj h, List.map_cons, List.map_cons, ih hds]
        unfold dependency? at hd
        split at hd
        · obtain ⟨path, -, hd⟩ := Option.bind_eq_some_iff.mp hd
          rw [← Option.some.inj hd]
        · cases hd
    exact hnames ▸ (distinct_setting? ht hu).inside.names
  · cases h
    exact List.nodup_nil

/-- A project names each dependency once. -/
def Distinct (x : Manifest) : Prop := (x.dependencies.map Prod.fst).Nodup

theorem distinct_ofTable? {directory encoding : String} {x : Manifest} (ht : t.Distinct)
    (h : ofTable? directory t = some (x, encoding)) : Distinct x := by
  unfold ofTable? at h
  -- the three tables and the eleven settings before the dependencies
  iterate 14 obtain ⟨_, -, h⟩ := Option.bind_eq_some_iff.mp h
  obtain ⟨deps, hdeps, h⟩ := Option.bind_eq_some_iff.mp h
  obtain ⟨_, -, h⟩ := Option.bind_eq_some_iff.mp h
  obtain ⟨rfl, -⟩ := Prod.mk.inj (Option.some.inj h)
  exact names_dependencies? ht hdeps

end Weft.Manifest
