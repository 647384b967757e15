import Weft.Analysis.Project
import Weft.Proofs.Analysis.Accepted

/-!
# Units that report nothing

The problems of a unit only grow, and one that breaks off has a problem. What a phase does to units that have no
problem in the end is therefore what its analyses do when they report nothing.
-/

namespace Weft

/-- Import modules one after the other. -/
def Module.addImports (m : Module) : List (String × NamespaceId) → Symbols Module
  | [] => return m
  | (name, n) :: rest => do (← m.addImport name n).2.addImports rest

namespace Analysis

/-- A unit without problems. -/
structure FileUnit.Clean (u : FileUnit) : Prop where
  diags : u.diags = []
  unbroken : u.broken = false

/-- A computation that keeps the problems of a unit, and reports one when the unit breaks off. -/
structure Tidy {α : Type} (m : OnUnit α) : Prop where
  grows : ∀ u s, u.diags <+: (m u s).1.2.diags
  breaks : ∀ u s, (m u s).1.2.broken = true → u.broken = true ∨ (m u s).1.2.diags ≠ []

/-- A computation on a unit that has no problem before and afterwards. -/
structure Goes {α : Type} (m : OnUnit α) (u : FileUnit) (s : Store) (a : α) (u' : FileUnit) (s' : Store) : Prop where
  before : u.Clean
  result : m u s = ((a, u'), s')
  after : u'.Clean

section Steps

variable {α β : Type} {u u' : FileUnit} {s s' : Store}

/-! ## Tidy computations -/

theorem tidy_pure {a : α} : Tidy (pure a : OnUnit α) :=
  ⟨fun _ _ => List.prefix_rfl, fun _ _ h => .inl h⟩

theorem Tidy.bind {m : OnUnit α} {f : α → OnUnit β} (hm : Tidy m) (hf : ∀ a, Tidy (f a)) : Tidy (m >>= f) where
  grows u s := by
    change u.diags <+: (f (m u s).1.1 (m u s).1.2 (m u s).2).1.2.diags
    exact (hm.grows u s).trans ((hf _).grows _ _)
  breaks u s h := by
    change (f (m u s).1.1 (m u s).1.2 (m u s).2).1.2.broken = true at h
    change u.broken = true ∨ (f (m u s).1.1 (m u s).1.2 (m u s).2).1.2.diags ≠ []
    rcases (hf _).breaks _ _ h with h | h
    · rcases hm.breaks u s h with h | h
      · exact .inl h
      · refine .inr fun hnil => h ?_
        exact List.prefix_nil.mp (hnil ▸ (hf _).grows (m u s).1.2 (m u s).2)
    · exact .inr h

/-- Reading a unit changes nothing. -/
theorem tidy_get : Tidy (get : OnUnit FileUnit) := ⟨fun _ _ => List.prefix_rfl, fun _ _ h => .inl h⟩

/-- A change of a unit that leaves its problems alone. -/
theorem tidy_modify {f : FileUnit → FileUnit} (hd : ∀ u, (f u).diags = u.diags) (hb : ∀ u, (f u).broken = u.broken) :
    Tidy (modify f : OnUnit PUnit) where
  grows u _ := by
    change u.diags <+: (f u).diags
    rw [hd]
  breaks u _ h := .inl ((hb u).symm.trans h)

theorem tidy_setModule {module : Module} : Tidy (modify ({ · with module }) : OnUnit PUnit) :=
  tidy_modify (fun _ => rfl) fun _ => rfl

theorem tidy_setSource {source : Source} : Tidy (modify ({ · with source }) : OnUnit PUnit) :=
  tidy_modify (fun _ => rfl) fun _ => rfl

/-- A computation on the symbols leaves the unit alone. -/
theorem tidy_symbols {m : Symbols α} : Tidy (liftM m : OnUnit α) := ⟨fun _ _ => List.prefix_rfl, fun _ _ h => .inl h⟩

theorem tidy_complain {message : String} : Tidy (complain message) where
  grows u _ := List.prefix_append u.diags _
  breaks _ _ h := .inl h

/-- What an analysis leaves in a unit that has not broken off. -/
theorem attempt_eq {sc : Scope} {fallback : α} {m : Analysis α} (hu : u.broken = false) :
    attempt sc fallback m u s =
      match m ⟨u.file, sc⟩ ⟨s, []⟩ with
      | ⟨(.ok a, st), ds⟩ => ((a, { u with diags := u.diags ++ ds }), st.store)
      | ⟨(.error e, st), ds⟩ =>
        ((fallback, { u with diags := u.diags ++ ds ++ [u.buildError e.message], broken := true }), st.store) := by
  change (if u.broken then _ else _ : OnUnit α) u s = _
  rw [if_neg (by simp [hu])]
  rcases h : m ⟨u.file, sc⟩ ⟨s, []⟩ with ⟨⟨_ | a, st⟩, ds⟩
  · simp only [bind, StateT.bind, getThe, MonadStateOf.get, liftM, monadLift, MonadLift.monadLift, StateT.lift,
      StateT.get, pure, StateT.pure, set, StateT.set, h]
    rfl
  · simp only [bind, StateT.bind, getThe, MonadStateOf.get, liftM, monadLift, MonadLift.monadLift, StateT.lift,
      StateT.get, pure, StateT.pure, set, StateT.set, h]

/-- A unit that has broken off is not analyzed further. -/
theorem attempt_broken {sc : Scope} {fallback : α} {m : Analysis α} (hu : u.broken = true) :
    attempt sc fallback m u s = ((fallback, u), s) := by
  change (if u.broken then _ else _ : OnUnit α) u s = _
  rw [if_pos (by simp [hu])]
  rfl

theorem tidy_attempt {sc : Scope} {fallback : α} {m : Analysis α} : Tidy (attempt sc fallback m) := by
  refine ⟨fun u s => ?_, fun u s h => ?_⟩
  · cases hu : u.broken with
    | true => rw [attempt_broken hu]
    | false =>
      rw [attempt_eq hu]
      split
      · exact List.prefix_append _ _
      · simp
  · cases hu : u.broken with
    | true => exact .inl rfl
    | false =>
      rw [attempt_eq hu] at h ⊢
      split at h
      · exact .inl (hu.symm.trans h)
      · simp

theorem tidy_forM {ι : Type} {f : ι → OnUnit PUnit} (xs : List ι) (hf : ∀ x, Tidy (f x)) : Tidy (xs.forM f) := by
  induction xs with
  | nil => exact tidy_pure
  | cons x xs ih => exact (hf x).bind fun _ => ih

theorem tidy_mapM {ι : Type} {f : ι → OnUnit α} (xs : List ι) (hf : ∀ x, Tidy (f x)) : Tidy (xs.mapM f) := by
  induction xs with
  | nil => exact tidy_pure
  | cons x xs ih =>
    rw [List.mapM_cons]
    exact (hf x).bind fun _ => ih.bind fun _ => tidy_pure

/-! ## Steps that go well -/

theorem goes_pure {a b : α} : Goes (pure a) u s b u' s' ↔ u.Clean ∧ b = a ∧ u' = u ∧ s' = s := by
  constructor
  · rintro ⟨hu, h, -⟩
    cases h
    exact ⟨hu, rfl, rfl, rfl⟩
  · rintro ⟨hu, rfl, rfl, rfl⟩
    exact ⟨hu, rfl, hu⟩

/-- A sequence goes well when each of its parts does. -/
theorem goes_bind {m : OnUnit α} {f : α → OnUnit β} (hm : Tidy m) (hf : ∀ a, Tidy (f a)) {b : β} :
    Goes (m >>= f) u s b u' s' ↔ ∃ a u₁ s₁, Goes m u s a u₁ s₁ ∧ Goes (f a) u₁ s₁ b u' s' := by
  constructor
  · rintro ⟨hu, h, hu'⟩
    change f (m u s).1.1 (m u s).1.2 (m u s).2 = _ at h
    have hnil : (m u s).1.2.diags = [] := by
      have hgrows := (hf (m u s).1.1).grows (m u s).1.2 (m u s).2
      rw [h, hu'.diags] at hgrows
      exact List.prefix_nil.mp hgrows
    have hclean : (m u s).1.2.Clean := by
      refine ⟨hnil, ?_⟩
      by_contra hbroken
      rcases hm.breaks u s (by simpa using hbroken) with hb | hb
      · simp [hu.unbroken] at hb
      · exact hb hnil
    exact ⟨_, _, _, ⟨hu, rfl, hclean⟩, hclean, h, hu'⟩
  · rintro ⟨a, u₁, s₁, ⟨hu, hm, -⟩, -, hf, hu'⟩
    refine ⟨hu, ?_, hu'⟩
    change f (m u s).1.1 (m u s).1.2 (m u s).2 = _
    rw [hm, hf]

/-- An analysis of a unit goes well when it ends with a result and reports nothing. -/
theorem goes_attempt {sc : Scope} {fallback a : α} {m : Analysis α} :
    Goes (attempt sc fallback m) u s a u' s' ↔
      u.Clean ∧ u' = u ∧ ∃ st, Accepts m ⟨u.file, sc⟩ ⟨s, []⟩ a st ∧ s' = st.store := by
  constructor
  · rintro ⟨hu, h, hu'⟩
    rw [attempt_eq hu.unbroken] at h
    split at h
    · next b st ds hb =>
      cases h
      obtain rfl : ds = [] := by simpa [hu.diags] using hu'.diags
      exact ⟨hu, by simp, st, hb, rfl⟩
    · cases h
      exact absurd hu'.unbroken (by simp)
  · rintro ⟨hu, rfl, st, h, rfl⟩
    refine ⟨hu, ?_, hu⟩
    rw [attempt_eq hu.unbroken, h]
    simp

theorem goes_get_bind {f : FileUnit → OnUnit β} {b : β} :
    Goes (get >>= f) u s b u' s' ↔ Goes (f u) u s b u' s' := ⟨fun ⟨h, he, h'⟩ => ⟨h, he, h'⟩, fun ⟨h, he, h'⟩ => ⟨h, he, h'⟩⟩

theorem goes_modify {f : FileUnit → FileUnit} {x : PUnit} :
    Goes (modify f) u s x u' s' ↔ u.Clean ∧ u' = f u ∧ s' = s ∧ (f u).Clean := by
  constructor
  · rintro ⟨hu, h, hu'⟩
    cases h
    exact ⟨hu, rfl, rfl, hu'⟩
  · rintro ⟨hu, rfl, rfl, hu'⟩
    exact ⟨hu, rfl, hu'⟩

theorem goes_symbols {m : Symbols α} {a : α} :
    Goes (liftM m) u s a u' s' ↔ u.Clean ∧ u' = u ∧ m s = (a, s') := by
  constructor
  · rintro ⟨hu, h, hu'⟩
    cases h
    exact ⟨hu, rfl, rfl⟩
  · rintro ⟨hu, rfl, h⟩
    refine ⟨hu, ?_, hu⟩
    change ((_, _), _) = _
    rw [h]

@[simp]
theorem goes_complain {message : String} {x : PUnit} : ¬Goes (complain message) u s x u' s' := by
  rintro ⟨-, h, hu'⟩
  cases h
  exact absurd hu'.diags (by simp)

/-- A list of steps that gives nothing. -/
theorem goes_forM_nil {ι : Type} {f : ι → OnUnit PUnit} {x : PUnit} :
    Goes (([] : List ι).forM f) u s x u' s' ↔ u.Clean ∧ u' = u ∧ s' = s := by
  change Goes (pure ()) u s x u' s' ↔ _
  rw [goes_pure]
  exact ⟨fun ⟨h, _, h'⟩ => ⟨h, h'⟩, fun ⟨h, h'⟩ => ⟨h, rfl, h'⟩⟩

theorem goes_forM_cons {ι : Type} {f : ι → OnUnit PUnit} (hf : ∀ i, Tidy (f i)) {i : ι} {is : List ι} {x : PUnit} :
    Goes ((i :: is).forM f) u s x u' s' ↔
      ∃ u₁ s₁, Goes (f i) u s () u₁ s₁ ∧ Goes (is.forM f) u₁ s₁ x u' s' := by
  change Goes (f i >>= fun _ => is.forM f) u s x u' s' ↔ _
  rw [goes_bind (hf i) fun _ => tidy_forM is hf]
  exact ⟨fun ⟨_, u₁, s₁, h⟩ => ⟨u₁, s₁, h⟩, fun ⟨u₁, s₁, h⟩ => ⟨(), u₁, s₁, h⟩⟩

theorem goes_mapM_nil {ι : Type} {f : ι → OnUnit α} {ys : List α} :
    Goes (([] : List ι).mapM f) u s ys u' s' ↔ u.Clean ∧ ys = [] ∧ u' = u ∧ s' = s := by
  rw [List.mapM_nil, goes_pure]

theorem goes_mapM_cons {ι : Type} {f : ι → OnUnit α} (hf : ∀ i, Tidy (f i)) {i : ι} {is : List ι} {ys : List α} :
    Goes ((i :: is).mapM f) u s ys u' s' ↔ ∃ y u₁ s₁ rest, Goes (f i) u s y u₁ s₁ ∧
      Goes (is.mapM f) u₁ s₁ rest u' s' ∧ ys = y :: rest := by
  rw [List.mapM_cons, goes_bind (hf i) fun _ => (tidy_mapM is hf).bind fun _ => tidy_pure]
  constructor
  · rintro ⟨y, u₁, s₁, hy, h⟩
    obtain ⟨rest, u₂, s₂, hrest, h⟩ := (goes_bind (tidy_mapM is hf) fun _ => tidy_pure).mp h
    obtain ⟨-, rfl, rfl, rfl⟩ := goes_pure.mp h
    exact ⟨y, u₁, s₁, rest, hy, hrest, rfl⟩
  · rintro ⟨y, u₁, s₁, rest, hy, hrest, rfl⟩
    refine ⟨y, u₁, s₁, hy, (goes_bind (tidy_mapM is hf) fun _ => tidy_pure).mpr ?_⟩
    exact ⟨rest, u', s', hrest, goes_pure.mpr ⟨hrest.after, rfl, rfl, rfl⟩⟩

end Steps

/-! ## Phases -/

section Phases

variable {u u' : FileUnit} {s s' : Store} {x : PUnit} {p : Project}

/-! ### Outlines -/

/-- The declarations of a cached unit. -/
private theorem tidy_declared {record : NamespaceRecord} {imports : List String}
    (r : Except DeclareError (List Pending) × Module) :
    Tidy (do
      modify ({ · with module := r.2 })
      match r.1 with
      | .ok pending => modify ({ · with source := .cached record imports pending })
      | .error e => complain ("corrupt cached module: " ++ e.message)) := by
  refine tidy_setModule.bind fun _ => ?_
  split
  · exact tidy_setSource
  · exact tidy_complain

theorem tidy_outline : Tidy outline := by
  refine tidy_get.bind fun u => ?_
  split
  · exact tidy_symbols.bind tidy_declared
  · exact tidy_attempt.bind fun _ => tidy_symbols.bind fun _ => tidy_modify (fun _ => by rfl) fun _ => by rfl

/-- The declarations of a file are outlined, and its global variables get their indexes. -/
theorem goes_outline_fresh {tree : Tree.File} {items : List Item} {imports : List Imported}
    (hsrc : u.source = .fresh tree items imports) (h : Goes outline u s x u' s') :
    ∃ items' st, Accepts (outlineDecls u.module.name (.file u.module.space) tree.decls)
        ⟨u.file, .file u.module.space⟩ ⟨s, []⟩ items' st ∧
      s' = (indexGlobals u.module items' st.store).2 ∧
      u' = { u with module := (indexGlobals u.module items' st.store).1, source := .fresh tree items' imports } := by
  rw [outline, goes_get_bind, hsrc] at h
  obtain ⟨items', u₁, s₁, h₁, h₂⟩ := (goes_bind tidy_attempt fun _ =>
    tidy_symbols.bind fun _ => tidy_modify (fun _ => by rfl) fun _ => by rfl).mp h
  obtain ⟨-, rfl, st, hitems, rfl⟩ := goes_attempt.mp h₁
  obtain ⟨module, u₂, s₂, h₃, h₄⟩ := (goes_bind tidy_symbols fun _ =>
    tidy_modify (fun _ => by rfl) fun _ => by rfl).mp h₂
  obtain ⟨-, rfl, hmodule⟩ := goes_symbols.mp h₃
  obtain ⟨-, rfl, rfl, -⟩ := goes_modify.mp h₄
  exact ⟨items', st, hitems, by rw [hmodule], by rw [hmodule]⟩

/-- The symbols of a record are declared, and their types wait. -/
theorem goes_outline_cached {record : NamespaceRecord} {imports : List String} {pending : List Pending}
    (hsrc : u.source = .cached record imports pending) (h : Goes outline u s x u' s') :
    ∃ pending', (u.module.declare record s).1.1 = .ok pending' ∧ s' = (u.module.declare record s).2 ∧
      u' = { u with module := (u.module.declare record s).1.2, source := .cached record imports pending' } := by
  rw [outline, goes_get_bind, hsrc] at h
  obtain ⟨⟨result, module⟩, u₁, s₁, h₁, h₂⟩ := (goes_bind tidy_symbols tidy_declared).mp h
  obtain ⟨-, rfl, hdeclare⟩ := goes_symbols.mp h₁
  rw [hdeclare]
  obtain ⟨_, u₂, s₂, h₃, h₄⟩ := (goes_bind tidy_setModule fun _ => by
    split
    · exact tidy_setSource
    · exact tidy_complain).mp h₂
  obtain ⟨-, rfl, rfl, -⟩ := goes_modify.mp h₃
  split at h₄
  · next pending' hresult =>
    obtain ⟨-, rfl, rfl, -⟩ := goes_modify.mp h₄
    exact ⟨pending', hresult, rfl, rfl⟩
  · exact absurd h₄ goes_complain

/-! ### Imports -/

theorem tidy_linkImports : Tidy (linkImports p) := by
  refine tidy_get.bind fun u => ?_
  split
  · exact tidy_pure
  · exact tidy_attempt.bind fun _ => tidy_setSource

theorem goes_linkImports_fresh {tree : Tree.File} {items : List Item} {imports : List Imported}
    (hsrc : u.source = .fresh tree items imports) (h : Goes (linkImports p) u s x u' s') :
    ∃ imports' st, Accepts (resolveImports p u.module.name [] tree.imports) ⟨u.file, .file u.module.space⟩ ⟨s, []⟩
        imports' st ∧
      s' = st.store ∧ u' = { u with source := .fresh tree items imports' } := by
  rw [linkImports, goes_get_bind, hsrc] at h
  obtain ⟨imports', u₁, s₁, h₁, h₂⟩ := (goes_bind tidy_attempt fun _ => tidy_setSource).mp h
  obtain ⟨-, rfl, st, himports, rfl⟩ := goes_attempt.mp h₁
  obtain ⟨-, rfl, rfl, -⟩ := goes_modify.mp h₂
  exact ⟨imports', st, himports, rfl, rfl⟩

theorem goes_linkImports_cached {record : NamespaceRecord} {imports : List String} {pending : List Pending}
    (hsrc : u.source = .cached record imports pending) (h : Goes (linkImports p) u s x u' s') : u' = u ∧ s' = s := by
  rw [linkImports, goes_get_bind, hsrc] at h
  exact (goes_pure.mp h).2.2

theorem tidy_addImport {name : String} {n : NamespaceId} : Tidy (addImport name n) := by
  refine tidy_get.bind fun u => ?_
  exact tidy_symbols.bind fun (_, module) => tidy_setModule

theorem goes_addImport {name : String} {n : NamespaceId} (h : Goes (addImport name n) u s x u' s') :
    s' = (u.module.addImport name n s).2 ∧ u' = { u with module := (u.module.addImport name n s).1.2 } := by
  rw [addImport, goes_get_bind] at h
  obtain ⟨⟨fresh, module⟩, u₁, s₁, h₁, h₂⟩ := (goes_bind tidy_symbols fun (_, module) => tidy_setModule).mp h
  obtain ⟨-, rfl, hmodule⟩ := goes_symbols.mp h₁
  obtain ⟨-, rfl, rfl, -⟩ := goes_modify.mp h₂
  rw [hmodule]
  exact ⟨rfl, rfl⟩

/-- Where the imports of a cached unit are found. -/
def Project.module? (p : Project) (name : String) : Option NamespaceId :=
  (p.registry.lookup? name).or (p.modules.lookup name)

theorem tidy_addImports : Tidy (addImports p) := by
  refine tidy_get.bind fun u => ?_
  split
  · exact tidy_forM _ fun _ => tidy_addImport
  · refine tidy_forM _ fun _ => ?_
    split
    · exact tidy_addImport
    · exact tidy_complain

/-- A fresh unit sees the modules that its imports were resolved to. -/
theorem goes_addImports_fresh {tree : Tree.File} {items : List Item} {imports : List Imported}
    (hsrc : u.source = .fresh tree items imports) (h : Goes (addImports p) u s x u' s') :
    s' = (u.module.addImports (imports.map fun i => (i.name, i.space)) s).2 ∧
      u' = { u with module := (u.module.addImports (imports.map fun i => (i.name, i.space)) s).1 } := by
  rw [addImports, goes_get_bind, hsrc] at h
  clear hsrc
  induction imports generalizing u s with
  | nil =>
    obtain ⟨-, rfl, rfl⟩ := goes_forM_nil.mp h
    exact ⟨rfl, rfl⟩
  | cons i rest ih =>
    obtain ⟨u₁, s₁, h₁, h₂⟩ := (goes_forM_cons fun _ => tidy_addImport).mp h
    obtain ⟨rfl, rfl⟩ := goes_addImport h₁
    exact ih h₂

/-- A cached unit sees the modules of its imports, which are all found. -/
theorem goes_addImports_cached {record : NamespaceRecord} {imports : List String} {pending : List Pending}
    (hsrc : u.source = .cached record imports pending) (h : Goes (addImports p) u s x u' s') :
    ∃ spaces, imports.map p.module? = spaces.map some ∧
      s' = (u.module.addImports (imports.zip spaces) s).2 ∧
      u' = { u with module := (u.module.addImports (imports.zip spaces) s).1 } := by
  rw [addImports, goes_get_bind, hsrc] at h
  clear hsrc
  induction imports generalizing u s with
  | nil =>
    obtain ⟨-, rfl, rfl⟩ := goes_forM_nil.mp h
    exact ⟨[], rfl, rfl, rfl⟩
  | cons name rest ih =>
    obtain ⟨u₁, s₁, h₁, h₂⟩ := (goes_forM_cons fun _ => by
      split
      · exact tidy_addImport
      · exact tidy_complain).mp h
    split at h₁
    · next n hn =>
      obtain ⟨rfl, rfl⟩ := goes_addImport h₁
      obtain ⟨spaces, hspaces, hs, hu⟩ := ih h₂
      exact ⟨n :: spaces, by rw [List.map_cons, List.map_cons, hspaces, Project.module?, hn], hs, hu⟩
    · exact absurd h₁ goes_complain

/-! ### Types -/

theorem tidy_typeItem (i : Item) : Tidy (typeItem i) := by
  cases i <;> (rw [typeItem]; exact tidy_attempt)

theorem tidy_resolveDeclared : Tidy resolveDeclared := by
  refine tidy_get.bind fun u => ?_
  split
  · exact tidy_forM _ tidy_typeItem
  · exact tidy_get.bind fun _ => tidy_symbols.bind fun _ => tidy_forM _ fun _ => tidy_complain

theorem goes_typeItem_unit {i : Item} (h : Goes (typeItem i) u s x u' s') : u' = u := by
  cases i <;> (rw [typeItem] at h; exact (goes_attempt.mp h).2.1)

/-- Steps that leave a unit alone. -/
theorem goes_forM_unit {ι : Type} {f : ι → OnUnit PUnit} (hf : ∀ i, Tidy (f i))
    (hunit : ∀ {i u s u' s'}, Goes (f i) u s () u' s' → u' = u) {is : List ι} (h : Goes (is.forM f) u s x u' s') :
    u' = u := by
  induction is generalizing u s with
  | nil => exact (goes_forM_nil.mp h).2.1
  | cons i is ih =>
    obtain ⟨u₁, s₁, h₁, h₂⟩ := (goes_forM_cons hf).mp h
    exact (ih h₂).trans (hunit h₁)

theorem goes_resolveDeclared_fresh {tree : Tree.File} {items : List Item} {imports : List Imported}
    (hsrc : u.source = .fresh tree items imports) (h : Goes resolveDeclared u s x u' s') :
    u' = u ∧ Goes (items.forM typeItem) u s x u s' := by
  rw [resolveDeclared, goes_get_bind, hsrc] at h
  obtain rfl := goes_forM_unit tidy_typeItem goes_typeItem_unit h
  exact ⟨rfl, h⟩

/-- All types that wait in a cached unit are found. -/
theorem goes_resolveDeclared_cached {record : NamespaceRecord} {imports : List String} {pending : List Pending}
    (hsrc : u.source = .cached record imports pending) (h : Goes resolveDeclared u s x u' s') :
    u' = u ∧ (Pending.settle u.module.space pending s).1 = [] ∧ s' = (Pending.settle u.module.space pending s).2 := by
  rw [resolveDeclared, goes_get_bind, hsrc] at h
  simp only [goes_get_bind] at h
  obtain ⟨errors, u₁, s₁, h₁, h₂⟩ := (goes_bind tidy_symbols fun _ => tidy_forM _ fun _ => tidy_complain).mp h
  obtain ⟨-, rfl, hsettle⟩ := goes_symbols.mp h₁
  rw [hsettle]
  cases errors with
  | nil =>
    obtain ⟨-, rfl, rfl⟩ := goes_forM_nil.mp h₂
    exact ⟨rfl, rfl, rfl⟩
  | cons e errors =>
    obtain ⟨u₂, s₂, h₃, -⟩ := (goes_forM_cons fun _ => tidy_complain).mp h₂
    exact absurd h₃ goes_complain

/-! ### Bases -/

theorem tidy_mapItems {f : List Item → OnUnit (List Item)} (hf : ∀ items, Tidy (f items)) : Tidy (mapItems f) := by
  refine tidy_get.bind fun u => ?_
  split
  · exact tidy_pure
  · exact (hf _).bind fun _ => tidy_setSource

theorem goes_mapItems_fresh {f : List Item → OnUnit (List Item)} (hf : ∀ items, Tidy (f items)) {tree : Tree.File}
    {items : List Item} {imports : List Imported} (hsrc : u.source = .fresh tree items imports)
    (h : Goes (mapItems f) u s x u' s') :
    ∃ items' u₁, Goes (f items) u s items' u₁ s' ∧ u' = { u₁ with source := .fresh tree items' imports } := by
  rw [mapItems, goes_get_bind, hsrc] at h
  obtain ⟨items', u₁, s₁, h₁, h₂⟩ := (goes_bind (hf items) fun _ => tidy_setSource).mp h
  obtain ⟨-, rfl, rfl, -⟩ := goes_modify.mp h₂
  exact ⟨items', u₁, h₁, rfl⟩

theorem goes_mapItems_cached {f : List Item → OnUnit (List Item)} {record : NamespaceRecord} {imports : List String}
    {pending : List Pending} (hsrc : u.source = .cached record imports pending) (h : Goes (mapItems f) u s x u' s') :
    u' = u ∧ s' = s := by
  rw [mapItems, goes_get_bind, hsrc] at h
  exact (goes_pure.mp h).2.2

theorem tidy_linkItem (i : Item) : Tidy (linkItem i) := by
  cases i
  · exact tidy_pure
  · exact tidy_attempt
  · exact tidy_attempt
  · exact tidy_pure

theorem goes_linkItem_unit {i : Item} (h : Goes (linkItem i) u s x u' s') : u' = u := by
  cases i
  · exact (goes_pure.mp h).2.2.1
  · exact (goes_attempt.mp h).2.1
  · exact (goes_attempt.mp h).2.1
  · exact (goes_pure.mp h).2.2.1

theorem tidy_bases : Tidy (runPhase p .bases) :=
  tidy_mapItems fun _ => (tidy_forM _ tidy_linkItem).bind fun _ => tidy_pure

theorem goes_bases_fresh {tree : Tree.File} {items : List Item} {imports : List Imported}
    (hsrc : u.source = .fresh tree items imports) (h : Goes (runPhase p .bases) u s x u' s') :
    u' = u ∧ Goes (items.forM linkItem) u s x u s' := by
  have htidy : ∀ items : List Item, Tidy (do items.forM linkItem; return items) :=
    fun _ => (tidy_forM _ tidy_linkItem).bind fun _ => tidy_pure
  obtain ⟨items', u₁, h₁, rfl⟩ := goes_mapItems_fresh htidy hsrc h
  obtain ⟨_, u₂, s₂, h₂, h₃⟩ := (goes_bind (tidy_forM _ tidy_linkItem) fun _ => tidy_pure).mp h₁
  obtain rfl := goes_forM_unit tidy_linkItem goes_linkItem_unit h₂
  obtain ⟨-, rfl, rfl, rfl⟩ := goes_pure.mp h₃
  refine ⟨?_, h₂⟩
  rw [← hsrc]

/-! ### Bodies -/

theorem tidy_analyzeItem (i : Item) : Tidy (analyzeItem i) := by
  cases i with
  | func sc m => exact tidy_attempt.bind fun _ => tidy_pure
  | cls sc d c methods =>
    exact tidy_attempt.bind fun _ => (tidy_mapM _ fun _ => tidy_attempt).bind fun _ => tidy_pure
  | iface sc d i methods => exact tidy_pure
  | global sc d type g init =>
    simp only [analyzeItem]
    split
    · exact tidy_pure
    · exact tidy_attempt.bind fun _ => tidy_pure

/-- What the analysis of a list does to a store, one member after the other. -/
inductive InTurn {ι : Type} (R : ι → Store → ι → Store → Prop) : List ι → Store → List ι → Store → Prop
  | nil {s : Store} : InTurn R [] s [] s
  | cons {x y : ι} {xs ys : List ι} {s s₁ s' : Store} (head : R x s y s₁) (tail : InTurn R xs s₁ ys s') :
    InTurn R (x :: xs) s (y :: ys) s'

/-- The analysis of a function. -/
def MethodRun (cls : Option ClassId) (m : Method) (s : Store) (r : Method) (s' : Store) : Prop :=
  ∃ pl st, Accepts (analyzeMethod cls m) pl ⟨s, []⟩ r st ∧ s' = st.store

/-- The analysis of a declaration. -/
inductive ItemRun : Item → Store → Item → Store → Prop
  | func {sc : Scope} {m r : Method} {s s' : Store} (method : MethodRun none m s r s') : ItemRun (.func sc m) s (.func sc r) s'
  | cls {sc : Scope} {d : Tree.ClassDecl} {c : ClassId} {ms rs : List Method} {s s' : Store} {pl : Place} {st : State}
    (check : Accepts (checkClass d c ms) pl ⟨s, []⟩ () st) (methods : InTurn (MethodRun (some c)) ms st.store rs s') :
    ItemRun (.cls sc d c ms) s (.cls sc d c rs) s'
  | iface {sc : Scope} {d : Tree.InterfaceDecl} {i : InterfaceId} {ms : List Method} {s : Store} :
    ItemRun (.iface sc d i ms) s (.iface sc d i ms) s
  | declared {sc : Scope} {d : Tree.VarDecl} {t : Tree.TypeExpr} {g : GlobalId} {x : Option Typed.Expr} {s : Store}
    (init : d.init = none) : ItemRun (.global sc d t g x) s (.global sc d t g x) s
  | initialized {sc : Scope} {d : Tree.VarDecl} {t : Tree.TypeExpr} {g : GlobalId} {x y : Option Typed.Expr} {s : Store}
    {e : Tree.Expr} {pl : Place} {st : State} (init : d.init = some e) (value : Accepts (analyzeInit g e) pl ⟨s, []⟩ y st) :
    ItemRun (.global sc d t g x) s (.global sc d t g y) st.store

theorem inTurn_of_goes {ι : Type} {f : ι → OnUnit ι} {R : ι → Store → ι → Store → Prop} (hf : ∀ i, Tidy (f i))
    (hR : ∀ {i r u u' s s'}, Goes (f i) u s r u' s' → u' = u ∧ R i s r s') {is rs : List ι} (h : Goes (is.mapM f) u s rs u' s') :
    u' = u ∧ InTurn R is s rs s' := by
  induction is generalizing u s rs with
  | nil =>
    obtain ⟨-, rfl, rfl, rfl⟩ := goes_mapM_nil.mp h
    exact ⟨rfl, .nil⟩
  | cons i is ih =>
    obtain ⟨r, u₁, s₁, rest, h₁, h₂, rfl⟩ := (goes_mapM_cons hf).mp h
    obtain ⟨rfl, hr⟩ := hR h₁
    obtain ⟨rfl, hrest⟩ := ih h₂
    exact ⟨rfl, .cons hr hrest⟩

theorem methodRun_of_goes {sc : Scope} {cls : Option ClassId} {m r : Method}
    (h : Goes (attempt sc m (analyzeMethod cls m)) u s r u' s') : u' = u ∧ MethodRun cls m s r s' := by
  obtain ⟨-, rfl, st, hm, rfl⟩ := goes_attempt.mp h
  exact ⟨rfl, _, st, hm, rfl⟩

theorem itemRun_of_goes {i r : Item} (h : Goes (analyzeItem i) u s r u' s') : u' = u ∧ ItemRun i s r s' := by
  cases i with
  | func sc m =>
    obtain ⟨m', u₁, s₁, h₁, h₂⟩ := (goes_bind tidy_attempt fun _ => tidy_pure).mp h
    obtain ⟨-, rfl, rfl, rfl⟩ := goes_pure.mp h₂
    exact (methodRun_of_goes h₁).imp_right .func
  | cls sc d c ms =>
    obtain ⟨_, u₁, s₁, h₁, h₂⟩ := (goes_bind tidy_attempt fun _ =>
      (tidy_mapM _ fun _ => tidy_attempt).bind fun _ => tidy_pure).mp h
    obtain ⟨-, rfl, st, hcheck, rfl⟩ := goes_attempt.mp h₁
    obtain ⟨ms', u₂, s₂, h₃, h₄⟩ := (goes_bind (tidy_mapM _ fun _ => tidy_attempt) fun _ => tidy_pure).mp h₂
    obtain ⟨-, rfl, rfl, rfl⟩ := goes_pure.mp h₄
    exact (inTurn_of_goes (fun _ => tidy_attempt) methodRun_of_goes h₃).imp_right (.cls hcheck)
  | iface sc d i ms =>
    obtain ⟨-, rfl, rfl, rfl⟩ := goes_pure.mp h
    exact ⟨rfl, .iface⟩
  | global sc d type g init =>
    simp only [analyzeItem] at h
    split at h
    · next hinit =>
      obtain ⟨-, rfl, rfl, rfl⟩ := goes_pure.mp h
      exact ⟨rfl, .declared hinit⟩
    · next e hinit =>
      obtain ⟨y, u₁, s₁, h₁, h₂⟩ := (goes_bind tidy_attempt fun _ => tidy_pure).mp h
      obtain ⟨-, rfl, rfl, rfl⟩ := goes_pure.mp h₂
      obtain ⟨-, rfl, st, hvalue, rfl⟩ := goes_attempt.mp h₁
      exact ⟨rfl, .initialized hinit hvalue⟩

theorem goes_bodies_fresh {tree : Tree.File} {items : List Item} {imports : List Imported}
    (hsrc : u.source = .fresh tree items imports) (h : Goes (runPhase p .bodies) u s x u' s') :
    ∃ items', InTurn ItemRun items s items' s' ∧ u' = { u with source := .fresh tree items' imports } := by
  obtain ⟨items', u₁, h₁, rfl⟩ := goes_mapItems_fresh (fun _ => tidy_mapM _ tidy_analyzeItem) hsrc h
  obtain ⟨rfl, hitems⟩ := inTurn_of_goes tidy_analyzeItem itemRun_of_goes h₁
  exact ⟨items', hitems, rfl⟩

/-- Every phase keeps the problems of a unit. -/
theorem tidy_runPhase (ph : Phase) : Tidy (runPhase p ph) := by
  cases ph with
  | outline => exact tidy_outline
  | linkImports => exact tidy_linkImports
  | addImports => exact tidy_addImports
  | types => exact tidy_resolveDeclared
  | bases => exact tidy_bases
  | bodies => exact tidy_mapItems fun items => tidy_mapM _ tidy_analyzeItem
  | finalize => exact tidy_pure

/-- A cached unit stays one. -/
theorem goes_runPhase_cached {ph : Phase} {record : NamespaceRecord} {imports : List String} {pending : List Pending}
    (hsrc : u.source = .cached record imports pending) (h : Goes (runPhase p ph) u s x u' s') :
    ∃ pending', u'.source = .cached record imports pending' := by
  cases ph with
  | outline =>
    obtain ⟨pending', -, -, rfl⟩ := goes_outline_cached hsrc h
    exact ⟨pending', rfl⟩
  | linkImports =>
    obtain ⟨rfl, -⟩ := goes_linkImports_cached hsrc h
    exact ⟨pending, hsrc⟩
  | addImports =>
    obtain ⟨spaces, -, -, rfl⟩ := goes_addImports_cached hsrc h
    exact ⟨pending, hsrc⟩
  | types =>
    obtain ⟨rfl, -⟩ := goes_resolveDeclared_cached hsrc h
    exact ⟨pending, hsrc⟩
  | bases =>
    obtain ⟨rfl, -⟩ := goes_mapItems_cached hsrc h
    exact ⟨pending, hsrc⟩
  | bodies =>
    obtain ⟨rfl, -⟩ := goes_mapItems_cached hsrc h
    exact ⟨pending, hsrc⟩
  | finalize =>
    obtain ⟨-, -, rfl, -⟩ := goes_pure.mp h
    exact ⟨pending, hsrc⟩

end Phases

/-! ## Runs -/

/-- A phase goes well on every unit of a list, one after the other. -/
inductive Sweep (p : Project) (ph : Phase) : List FileUnit → Store → List FileUnit → Store → Prop
  | nil {s : Store} : Sweep p ph [] s [] s
  | cons {u u' : FileUnit} {us us' : List FileUnit} {s s₁ s' : Store}
      (head : Goes (runPhase p ph) u s () u' s₁) (tail : Sweep p ph us s₁ us' s') : Sweep p ph (u :: us) s (u' :: us') s'

/-- Phases go well on every unit of a list, one after the other. -/
inductive Sweeps (p : Project) : List Phase → List FileUnit → Store → List FileUnit → Store → Prop
  | nil {us : List FileUnit} {s : Store} : Sweeps p [] us s us s
  | cons {ph : Phase} {phs : List Phase} {us us₁ us' : List FileUnit} {s s₁ s' : Store}
      (head : Sweep p ph us s us₁ s₁) (tail : Sweeps p phs us₁ s₁ us' s') : Sweeps p (ph :: phs) us s us' s'

section Runs

variable {p : Project} {ph : Phase} {us us' : List FileUnit} {s s' : Store}

theorem runUnits_cons {u : FileUnit} :
    runUnits p (u :: us) ph s =
      ((runPhase p ph u s).1.2 :: (runUnits p us ph (runPhase p ph u s).2).1,
        (runUnits p us ph (runPhase p ph u s).2).2) := by
  rw [runUnits, List.mapM_cons]
  rfl

/-- A phase goes well on units without problems if it leaves none. -/
theorem sweep_runUnits (hus : ∀ u ∈ us, u.Clean) (h : runUnits p us ph s = (us', s')) (hus' : ∀ u ∈ us', u.diags = []) :
    Sweep p ph us s us' s' := by
  induction us generalizing s us' with
  | nil =>
    cases h
    exact .nil
  | cons u us ih =>
    rw [runUnits_cons] at h
    cases h
    have hnil := hus' _ List.mem_cons_self
    have hu := hus u List.mem_cons_self
    have hclean : (runPhase p ph u s).1.2.Clean := by
      refine ⟨hnil, ?_⟩
      by_contra hbroken
      rcases (tidy_runPhase ph).breaks u s (by simpa using hbroken) with hb | hb
      · simp [hu.unbroken] at hb
      · exact hb hnil
    refine .cons ⟨hu, rfl, hclean⟩ (ih (fun v hv => hus v (List.mem_cons_of_mem _ hv)) rfl fun v hv => ?_)
    exact hus' v (List.mem_cons_of_mem _ hv)

theorem Sweep.clean (h : Sweep p ph us s us' s') : ∀ u ∈ us', u.Clean := by
  induction h with
  | nil => simp
  | cons head tail ih =>
    intro u hu
    rcases List.mem_cons.mp hu with rfl | hu
    · exact head.after
    · exact ih u hu

/-- The last phase does nothing. -/
theorem sweep_finalize (h : Sweep p .finalize us s us' s') : us' = us ∧ s' = s := by
  induction us generalizing s us' with
  | nil =>
    cases h
    exact ⟨rfl, rfl⟩
  | cons u us ih =>
    obtain _ | ⟨head, tail⟩ := h
    obtain ⟨-, -, rfl, rfl⟩ := goes_pure.mp head
    obtain ⟨rfl, rfl⟩ := ih tail
    exact ⟨rfl, rfl⟩

/-- Units that have no problem after a phase had none before. -/
theorem quiet_of_runUnits (h : ∀ u ∈ (runUnits p us ph s).1, u.diags = []) : ∀ u ∈ us, u.diags = [] := by
  induction us generalizing s with
  | nil => simp
  | cons u us ih =>
    rw [runUnits_cons] at h
    intro v hv
    rcases List.mem_cons.mp hv with rfl | hv
    · have hgrows := (tidy_runPhase (p := p) ph).grows v s
      rw [h _ List.mem_cons_self] at hgrows
      exact List.prefix_nil.mp hgrows
    · exact ih (fun w hw => h w (List.mem_cons_of_mem _ hw)) v hv

theorem foldlM_cons {phs : List Phase} :
    (ph :: phs).foldlM (runUnits p) us s = phs.foldlM (runUnits p) (runUnits p us ph s).1 (runUnits p us ph s).2 := rfl

theorem quiet_of_foldlM {phs : List Phase} (h : ∀ u ∈ (phs.foldlM (runUnits p) us s).1, u.diags = []) :
    ∀ u ∈ us, u.diags = [] := by
  induction phs generalizing us s with
  | nil => exact h
  | cons ph phs ih => exact quiet_of_runUnits (ih h)

theorem sweeps_foldlM {phs : List Phase} (hus : ∀ u ∈ us, u.Clean) (h : phs.foldlM (runUnits p) us s = (us', s'))
    (hus' : ∀ u ∈ us', u.diags = []) : Sweeps p phs us s us' s' := by
  induction phs generalizing us s with
  | nil =>
    cases h
    exact .nil
  | cons ph phs ih =>
    have hrest : ∀ u ∈ (phs.foldlM (runUnits p) (runUnits p us ph s).1 (runUnits p us ph s).2).1, u.diags = [] := by
      rw [← foldlM_cons, h]
      exact hus'
    have hmid := quiet_of_foldlM hrest
    have head := sweep_runUnits hus rfl hmid
    exact .cons head (ih head.clean h)

/-- The phases of a run that reports nothing go well. -/
theorem sweeps_run {registry : Registry} {resolver : Option Resolver} (hus : ∀ u ∈ us, u.Clean)
    (h : run registry resolver us s = (us', s')) (hus' : ∀ u ∈ us', u.diags = []) :
    Sweeps (.new registry resolver us) Phase.all us s us' s' := sweeps_foldlM hus h hus'

theorem sweeps_of_quiet {registry : Registry} {resolver : Option Resolver} (hus : ∀ u ∈ us, u.Clean)
    (hquiet : ∀ u ∈ (run registry resolver us s).1, u.diags = []) :
    Sweeps (.new registry resolver us) Phase.all us s (run registry resolver us s).1 (run registry resolver us s).2 :=
  sweeps_run hus (Prod.eta _).symm hquiet

/-- What each step of a phase establishes for its unit, and later steps keep, holds of all units after the phase. The
steps may rely on what holds of the units before the phase, if steps for other units keep it. -/
theorem Sweep.forall {R : Store → Store → Prop} {P Q : Store → FileUnit → Prop}
    (hrefl : ∀ s, R s s) (htrans : ∀ {s₁ s₂ s₃}, R s₁ s₂ → R s₂ s₃ → R s₁ s₃)
    (hbefore : ∀ {s₁ s₂ u}, R s₁ s₂ → P s₁ u → P s₂ u) (hkeep : ∀ {s₁ s₂ u}, R s₁ s₂ → Q s₁ u → Q s₂ u)
    (hstep : ∀ {u s u' s'}, P s u → Goes (runPhase p ph) u s () u' s' → R s s' ∧ Q s' u')
    (h : Sweep p ph us s us' s') (hus : ∀ u ∈ us, P s u) : R s s' ∧ ∀ u ∈ us', Q s' u := by
  induction h with
  | nil => exact ⟨hrefl _, by simp⟩
  | cons head tail ih =>
    obtain ⟨h1, hq⟩ := hstep (hus _ List.mem_cons_self) head
    obtain ⟨h2, hqs⟩ := ih fun v hv => hbefore h1 (hus v (List.mem_cons_of_mem _ hv))
    refine ⟨htrans h1 h2, fun v hv => ?_⟩
    rcases List.mem_cons.mp hv with rfl | hv
    · exact hkeep h2 hq
    · exact hqs v hv

end Runs

end Analysis

end Weft
