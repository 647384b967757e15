import Weft.Proofs.Symbol.Growth

/-!
# Names of modules

An analysis leaves the names of the modules alone, and where it reports nothing each fresh unit stays one of its tree.
-/

namespace Weft

/-! ## Records -/

namespace Module

variable {m : Module} {s : Store}

/-- Declaring symbols leaves the name of the module alone. -/
theorem name_declare {record : NamespaceRecord} : (m.declare record s).1.2.name = m.name := by
  have hsteps : Declare.Steps fun d => d.module.name = m.name :=
    ⟨fun _ _ h => h, fun _ _ _ h => h, fun _ _ _ h => h, fun _ _ h => h⟩
  have hkept : ∃ pending, (m.declare record s).1.2.name = m.name ∧
      ∀ ps, (m.declare record s).1.1 = .ok ps → ps = pending := keeps_declare hsteps rfl
  exact hkept.choose_spec.1

theorem name_addImport {name : String} {n : NamespaceId} : (m.addImport name n s).1.2.name = m.name := by
  unfold addImport
  split <;> rfl

end Module

namespace Analysis

theorem name_indexGlobals {m : Module} {items : List Item} {s : Store} : (indexGlobals m items s).1.name = m.name := by
  induction items generalizing m s with
  | nil => rfl
  | cons i items ih =>
    cases i
    · exact ih
    · exact ih
    · exact ih
    · exact ih

/-! ## Units -/

/-- A computation that leaves the name of the module of its unit alone. -/
def Named {α : Type} (name : String) (m : OnUnit α) : Prop :=
  ∀ u s, u.module.name = name → (m u s).1.2.module.name = name

section Units

variable {α β : Type} {name : String} {p : Project}

theorem named_pure {a : α} : Named name (pure a : OnUnit α) := fun _ _ h => h

theorem Named.bind {m : OnUnit α} {f : α → OnUnit β} (hm : Named name m) (hf : ∀ a, Named name (f a)) :
    Named name (m >>= f) := fun u s h => hf _ _ _ (hm u s h)

theorem named_get_bind {f : FileUnit → OnUnit β} (hf : ∀ u, u.module.name = name → Named name (f u)) :
    Named name ((get : OnUnit FileUnit) >>= f) := fun u s h => hf u h u s h

theorem named_symbols_bind {m : Symbols α} {f : α → OnUnit β} (hf : ∀ s, Named name (f (m s).1)) :
    Named name ((liftM m : OnUnit α) >>= f) := fun u s h => hf s u _ h

theorem named_modify {f : FileUnit → FileUnit} (hf : ∀ u, u.module.name = name → (f u).module.name = name) :
    Named name (modify f : OnUnit PUnit) := fun u _ h => hf u h

theorem named_complain {message : String} : Named name (complain message) := fun _ _ h => h

theorem named_attempt {sc : Scope} {fallback : α} {m : Analysis α} : Named name (attempt sc fallback m) := by
  intro u s h
  cases hu : u.broken with
  | true => rwa [attempt_broken hu]
  | false =>
    rw [attempt_eq hu]
    split <;> exact h

theorem named_forM {ι : Type} {f : ι → OnUnit PUnit} (xs : List ι) (hf : ∀ x, Named name (f x)) : Named name (xs.forM f) := by
  induction xs with
  | nil => exact named_pure
  | cons x xs ih => exact (hf x).bind fun _ => ih

theorem named_mapM {ι : Type} {f : ι → OnUnit α} (xs : List ι) (hf : ∀ x, Named name (f x)) : Named name (xs.mapM f) := by
  induction xs with
  | nil => exact named_pure
  | cons x xs ih =>
    rw [List.mapM_cons]
    exact (hf x).bind fun _ => ih.bind fun _ => named_pure

theorem named_mapItems {f : List Item → OnUnit (List Item)} (hf : ∀ items, Named name (f items)) : Named name (mapItems f) := by
  refine named_get_bind fun u _ => ?_
  split
  · exact named_pure
  · exact (hf _).bind fun _ => named_modify fun _ h => h

theorem named_outline : Named name outline := by
  refine named_get_bind fun u hu => ?_
  split
  · refine named_symbols_bind fun s => (named_modify fun _ _ => Module.name_declare.trans hu).bind fun _ => ?_
    split
    · exact named_modify fun _ h => h
    · exact named_complain
  · exact named_attempt.bind fun _ => named_symbols_bind fun _ => named_modify fun _ _ => name_indexGlobals.trans hu

theorem named_addImport {imported : String} {n : NamespaceId} : Named name (addImport imported n) :=
  named_get_bind fun _ hu => named_symbols_bind fun _ => named_modify fun _ _ => Module.name_addImport.trans hu

theorem named_addImports : Named name (addImports p) := by
  refine named_get_bind fun u _ => ?_
  split
  · exact named_forM _ fun _ => named_addImport
  · refine named_forM _ fun _ => ?_
    split
    · exact named_addImport
    · exact named_complain

theorem named_linkImports : Named name (linkImports p) := by
  refine named_get_bind fun u _ => ?_
  split
  · exact named_pure
  · exact named_attempt.bind fun _ => named_modify fun _ h => h

theorem named_resolveDeclared : Named name resolveDeclared := by
  refine named_get_bind fun u _ => ?_
  split
  · exact named_forM _ fun i => by cases i <;> (rw [typeItem]; exact named_attempt)
  · exact named_get_bind fun _ _ => named_symbols_bind fun _ => named_forM _ fun _ => named_complain

theorem named_linkItem (i : Item) : Named name (linkItem i) := by
  cases i
  · exact named_pure
  · exact named_attempt
  · exact named_attempt
  · exact named_pure

theorem named_analyzeItem (i : Item) : Named name (analyzeItem i) := by
  cases i with
  | func sc m => exact named_attempt.bind fun _ => named_pure
  | cls sc d c methods =>
    exact named_attempt.bind fun _ => (named_mapM _ fun _ => named_attempt).bind fun _ => named_pure
  | iface sc d i methods => exact named_pure
  | global sc d type g init =>
    simp only [analyzeItem]
    split
    · exact named_pure
    · exact named_attempt.bind fun _ => named_pure

/-- Every phase leaves the name of a module alone. -/
theorem named_runPhase (ph : Phase) : Named name (runPhase p ph) := by
  cases ph with
  | outline => exact named_outline
  | linkImports => exact named_linkImports
  | addImports => exact named_addImports
  | types => exact named_resolveDeclared
  | bases => exact named_mapItems fun _ => (named_forM _ named_linkItem).bind fun _ => named_pure
  | bodies => exact named_mapItems fun items => named_mapM _ named_analyzeItem
  | finalize => exact named_pure

/-- A fresh unit stays one of its tree. -/
theorem goes_runPhase_fresh {u u' : FileUnit} {s s' : Store} {x : PUnit} {ph : Phase} {tree : Tree.File} {items : List Item}
    {imports : List Imported} (hsrc : u.source = .fresh tree items imports) (h : Goes (runPhase p ph) u s x u' s') :
    ∃ items' imports', u'.source = .fresh tree items' imports' := by
  cases ph with
  | outline =>
    obtain ⟨items', st, -, -, rfl⟩ := goes_outline_fresh hsrc h
    exact ⟨items', imports, rfl⟩
  | linkImports =>
    obtain ⟨imports', st, -, -, rfl⟩ := goes_linkImports_fresh hsrc h
    exact ⟨items, imports', rfl⟩
  | addImports =>
    obtain ⟨-, rfl⟩ := goes_addImports_fresh hsrc h
    exact ⟨items, imports, hsrc⟩
  | types =>
    obtain ⟨rfl, -⟩ := goes_resolveDeclared_fresh hsrc h
    exact ⟨items, imports, hsrc⟩
  | bases =>
    obtain ⟨rfl, -⟩ := goes_bases_fresh hsrc h
    exact ⟨items, imports, hsrc⟩
  | bodies =>
    obtain ⟨items', -, rfl⟩ := goes_bodies_fresh hsrc h
    exact ⟨items', imports, rfl⟩
  | finalize =>
    obtain ⟨-, -, rfl, -⟩ := goes_pure.mp h
    exact ⟨items, imports, hsrc⟩

end Units

/-! ## Runs -/

section Runs

variable {p : Project} {ph : Phase} {us us' : List FileUnit} {s s' : Store}

theorem names_runUnits : (runUnits p us ph s).1.map (·.module.name) = us.map (·.module.name) := by
  induction us generalizing s with
  | nil => rfl
  | cons u us ih =>
    rw [runUnits_cons, List.map_cons, List.map_cons, ih, named_runPhase ph u s rfl]

/-- An analysis leaves the names of the modules and their order alone. -/
theorem names_run {registry : Registry} {resolver : Option Resolver} :
    (run registry resolver us s).1.map (·.module.name) = us.map (·.module.name) := by
  unfold run
  generalize Project.new registry resolver us = p
  generalize Phase.all = phs
  induction phs generalizing us s with
  | nil => rfl
  | cons ph phs ih => rw [foldlM_cons, ih, names_runUnits]

/-- What relates units to other things, and every phase keeps where it goes well, holds after a phase. -/
theorem Sweep.forall₂ {ι : Type} {R : ι → FileUnit → Prop} {xs : List ι}
    (hstep : ∀ {x u s u' s'}, R x u → Goes (runPhase p ph) u s () u' s' → R x u') (h : Sweep p ph us s us' s')
    (hus : List.Forall₂ R xs us) : List.Forall₂ R xs us' := by
  induction h generalizing xs with
  | nil => exact hus
  | cons head _ ih =>
    obtain _ | ⟨hu, hus⟩ := hus
    exact .cons (hstep hu head) (ih hus)

theorem Sweeps.forall₂ {ι : Type} {R : ι → FileUnit → Prop} {xs : List ι} {phs : List Phase}
    (hstep : ∀ {ph x u s u' s'}, R x u → Goes (runPhase p ph) u s () u' s' → R x u') (h : Sweeps p phs us s us' s')
    (hus : List.Forall₂ R xs us) : List.Forall₂ R xs us' := by
  induction h with
  | nil => exact hus
  | cons head _ ih => exact ih (head.forall₂ hstep hus)

end Runs

end Analysis

end Weft
