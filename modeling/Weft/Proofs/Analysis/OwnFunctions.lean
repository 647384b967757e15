import Weft.Proofs.Analysis.ClassLayouts
import Weft.Proofs.Symbol.Growth

/-!
# The functions of units

An outline makes functions of its own for every unit, and from then on no other unit changes them. So when all units are
analyzed without problems, the functions and methods of a file have the proper signatures that are written for them.
-/

namespace Weft.Analysis

/-! ## Functions that are new -/

/-- Some functions are in a store, but were not in one before it. -/
structure NewFuncs (s s' : Store) (fs : List FuncId) : Prop where
  grown : s.funcs.size ≤ s'.funcs.size
  new : ∀ f ∈ fs, s.funcs.size ≤ f.index ∧ f.index < s'.funcs.size

section NewFuncs

variable {s s' s'' : Store} {fs gs : List FuncId}

theorem NewFuncs.append (h : NewFuncs s s' fs) (h' : NewFuncs s' s'' gs) : NewFuncs s s'' (fs ++ gs) := by
  have hgrown := h.grown
  have hgrown' := h'.grown
  refine ⟨by omega, List.forall_mem_append.mpr ⟨fun f hf => ?_, fun f hf => ?_⟩⟩
  · have := h.new f hf
    omega
  · have := h'.new f hf
    omega

theorem NewFuncs.disjoint (h : NewFuncs s s' fs) (h' : NewFuncs s' s'' gs) : fs.Disjoint gs := by
  intro f hf hg
  have := (h.new f hf).2
  have := (h'.new f hg).1
  omega

end NewFuncs

/-- The functions of a record whose types wait. -/
def awaiting (ps : List Pending) : List FuncId :=
  ps.filterMap fun
    | .func f _ => some f
    | _ => none

theorem awaiting_append (ps qs : List Pending) : awaiting (ps ++ qs) = awaiting ps ++ awaiting qs := List.filterMap_append

/-- The functions and methods of a declaration. -/
def Item.symbols (i : Item) : List FuncId := i.methods.map (·.symbol)

/-- The functions to which a unit gives signatures. -/
def FileUnit.own (u : FileUnit) : List FuncId :=
  match u.source with
  | .fresh _ items _ => items.flatMap Item.symbols
  | .cached _ _ pending => awaiting pending

theorem FileUnit.own_fresh {u : FileUnit} {tree : Tree.File} {items : List Item} {imports : List Imported}
    (h : u.source = .fresh tree items imports) : u.own = items.flatMap Item.symbols := by rw [own, h]

theorem FileUnit.own_cached {u : FileUnit} {record : NamespaceRecord} {imports : List String} {pending : List Pending}
    (h : u.source = .cached record imports pending) : u.own = awaiting pending := by rw [own, h]

theorem mem_symbols {items : List Item} {f : FuncId} :
    f ∈ items.flatMap Item.symbols ↔ ∃ i ∈ items, ∃ m ∈ i.methods, m.symbol = f := by
  simp [Item.symbols]

theorem Adds.newFuncs {s s' : Store} {items : List Item} (h : Adds s s' items) :
    NewFuncs s s' (items.flatMap Item.symbols) := by
  refine ⟨h.stays.funcCount, fun f hf => ?_⟩
  obtain ⟨i, hi, m, hm, rfl⟩ := mem_symbols.mp hf
  exact ⟨(h.after i hi).methods m hm, h.within i hi m hm⟩

/-- The functions whose types wait are new where a record is declared. -/
theorem newFuncs_declare {m : Module} {record : NamespaceRecord} {s : Store} {pending : List Pending}
    (h : (m.declare record s).1.1 = .ok pending) : NewFuncs s (m.declare record s).2 (awaiting pending) := by
  have hsteps : Declare.Steps fun d => NewFuncs s d.store (awaiting d.pending) := by
    refine ⟨fun hm d hd => ?_, fun x type d hd => ?_, fun p hp d hd => ?_, fun _ _ hd => hd⟩
    · have hnone : NewFuncs d.store (_ : Store) [] := ⟨hm d.store .func, by simp⟩
      exact List.append_nil (awaiting d.pending) ▸ hd.append hnone
    · have hone : NewFuncs d.store (Store.addFunc x d.store).2 [⟨d.store.funcs.size⟩] := by
        refine ⟨size_addFunc.symm ▸ Nat.le_succ _, fun f hf => ?_⟩
        rw [List.mem_singleton.mp hf]
        exact ⟨Nat.le_refl _, size_addFunc.symm ▸ Nat.lt_succ_self _⟩
      change NewFuncs s (Store.addFunc x d.store).2 (awaiting (d.pending ++ [Pending.func ⟨d.store.funcs.size⟩ type]))
      rw [awaiting_append]
      exact hd.append hone
    · change NewFuncs s d.store (awaiting (d.pending ++ [p]))
      have hnone : awaiting [p] = [] := by
        cases p with
        | func f type => exact absurd rfl (hp f type)
        | _ => rfl
      rw [awaiting_append, hnone, List.append_nil]
      exact hd
  have hkept : ∃ ps, NewFuncs s (m.declare record s).2 (awaiting ps) ∧
      ∀ ps', (m.declare record s).1.1 = .ok ps' → ps' = ps :=
    Module.keeps_declare hsteps ⟨Nat.le_refl _, by simp [awaiting]⟩
  obtain ⟨_, hnew, hpending⟩ := hkept
  rwa [hpending pending h]

/-! ## Outlines -/

section Phases

variable {u u' : FileUnit} {us us' : List FileUnit} {s s' : Store} {x : PUnit} {p : Project} {ph : Phase}

theorem newFuncs_outline (h : Goes outline u s () u' s') : NewFuncs s s' u'.own := by
  cases hsrc : u.source with
  | fresh tree items imports =>
    obtain ⟨hadds, hfresh⟩ := goes_outline_adds ⟨tree, items, imports, hsrc⟩ h
    obtain ⟨tree', items', imports', hsrc'⟩ := hfresh
    rw [FileUnit.own_fresh hsrc', ← FileUnit.items_eq hsrc']
    exact hadds.newFuncs
  | cached record imports pending =>
    obtain ⟨pending', hdeclare, rfl, rfl⟩ := goes_outline_cached hsrc h
    exact newFuncs_declare hdeclare

/-- No two units have a function in common. -/
def Apart (us : List FileUnit) : Prop := us.Pairwise fun u v => u.own.Disjoint v.own

/-- The outline makes different functions for different units. -/
theorem apart_outline (h : Sweep p .outline us s us' s') : Apart us' ∧ ∀ u ∈ us', ∀ f ∈ u.own, f.index < s'.funcs.size := by
  suffices hall : NewFuncs s s' (us'.flatMap FileUnit.own) ∧ Apart us' by
    exact ⟨hall.2, fun u hu f hf => (hall.1.new f (List.mem_flatMap.mpr ⟨u, hu, hf⟩)).2⟩
  induction h with
  | nil => exact ⟨⟨Nat.le_refl _, by simp⟩, .nil⟩
  | cons head _ ih =>
    have hnew := newFuncs_outline head
    refine ⟨hnew.append ih.1, .cons (fun v hv f hf hg => ?_) ih.2⟩
    exact hnew.disjoint ih.1 hf (List.mem_flatMap.mpr ⟨v, hv, hg⟩)

/-- Imports leave the functions of a unit alone. -/
theorem own_imports (hph : ph ∈ [Phase.linkImports, .addImports]) (h : Goes (runPhase p ph) u s () u' s') : u'.own = u.own := by
  simp only [List.mem_cons, List.not_mem_nil, or_false] at hph
  cases hsrc : u.source with
  | fresh tree items imports =>
    rcases hph with rfl | rfl
    · obtain ⟨imports', st, -, -, rfl⟩ := goes_linkImports_fresh hsrc h
      rw [FileUnit.own_fresh hsrc, FileUnit.own]
    · obtain ⟨-, rfl⟩ := goes_addImports_fresh hsrc h
      rfl
  | cached record imports pending =>
    rcases hph with rfl | rfl
    · obtain ⟨rfl, -⟩ := goes_linkImports_cached hsrc h
      rfl
    · obtain ⟨spaces, -, -, rfl⟩ := goes_addImports_cached hsrc h
      rfl

theorem apart_imports (hph : ph ∈ [Phase.linkImports, .addImports]) (h : Sweep p ph us s us' s') (hus : Apart us) : Apart us' := by
  have hown : us'.map FileUnit.own = us.map FileUnit.own := by
    clear hus
    induction h with
    | nil => rfl
    | cons head _ ih => rw [List.map_cons, List.map_cons, own_imports hph head, ih]
  rw [Apart, ← List.pairwise_map (f := FileUnit.own) (R := List.Disjoint)] at hus ⊢
  rwa [hown]

/-! ## Types -/

/-- The functions outside a list are as they were. -/
def Others (fs : List FuncId) (s s' : Store) : Prop := ∀ f ∉ fs, s'.func f = s.func f

instance {fs : List FuncId} : Std.Refl (Others fs) := ⟨fun _ _ _ => rfl⟩

instance {fs : List FuncId} : IsTrans Store (Others fs) := ⟨fun _ _ _ h h' f hf => (h' f hf).trans (h f hf)⟩

theorem others_updateFunc {fs : List FuncId} {f : FuncId} (hf : f ∈ fs) {change : Func → Func} :
    MovesSymbols (Others fs) (Store.updateFunc f change) := by
  intro s g hg
  rw [Store.func_updateFunc, if_neg]
  rintro ⟨rfl, -⟩
  exact hg hf

theorem others_typeItem {fs : List FuncId} {i : Item} (hi : ∀ f ∈ i.symbols, f ∈ fs) : MovesUnit (Others fs) (typeItem i) :=
  movesUnit_typeItem (fun _ hm _ => others_updateFunc (hi _ (List.mem_map_of_mem hm))) (fun _ _ _ _ _ => rfl) fun _ _ _ _ _ => rfl

theorem others_settle {fs : List FuncId} {n : NamespaceId} {ps : List Pending} (hps : ∀ f ∈ awaiting ps, f ∈ fs) :
    MovesSymbols (Others fs) (Pending.settle n ps) := by
  induction ps with
  | nil => exact movesSymbols_pure
  | cons p ps ih =>
    rw [awaiting, List.filterMap_cons] at hps
    have hrest : ∀ f ∈ awaiting ps, f ∈ fs := by
      intro f hf
      cases p with
      | func g type => exact hps f (List.mem_cons_of_mem _ hf)
      | _ => exact hps f hf
    rw [Pending.settle]
    refine movesSymbols_get.bind fun s => ?_
    split
    · refine MovesSymbols.bind (fun s => ?_) fun _ => ih hrest
      unfold Pending.assign
      split
      case h_3 => exact others_updateFunc (hps _ List.mem_cons_self) s
      all_goals exact fun _ _ => rfl
    · exact (ih hrest).bind fun _ => movesSymbols_pure

/-- Finding the types of a unit changes its own functions only. -/
theorem others_types (h : Goes resolveDeclared u s () u' s') : u' = u ∧ Others u.own s s' := by
  cases hsrc : u.source with
  | fresh tree items imports =>
    obtain ⟨rfl, hg⟩ := goes_resolveDeclared_fresh hsrc h
    rw [FileUnit.own_fresh hsrc]
    refine ⟨rfl, ((movesUnit_forM fun i hi => others_typeItem fun f hf => ?_).goes ⟨tree, items, imports, hsrc⟩ hg).1⟩
    exact List.mem_flatMap.mpr ⟨i, hi, hf⟩
  | cached record imports pending =>
    obtain ⟨rfl, -, rfl⟩ := goes_resolveDeclared_cached hsrc h
    rw [FileUnit.own_cached hsrc]
    exact ⟨rfl, others_settle (fun _ hf => hf) s⟩

/-- The signature of a function is proper, if it has one. -/
def ProperSig (s : Store) (f : FuncId) : Prop := ((s.func f).sig.getD default).proper = true

/-- Proper signatures stay proper, and some functions have them now. -/
structure Signs (s s' : Store) (fs : List FuncId) : Prop where
  keeps : ∀ f, ProperSig s f → ProperSig s' f
  signed : ∀ f ∈ fs, ProperSig s' f

theorem Signs.append {s₁ : Store} {fs gs : List FuncId} (h : Signs s s₁ fs) (h' : Signs s₁ s' gs) : Signs s s' (fs ++ gs) :=
  ⟨fun f hf => h'.keeps f (h.keeps f hf), List.forall_mem_append.mpr ⟨fun f hf => h'.keeps f (h.signed f hf), h'.signed⟩⟩

theorem signs_nil (h : Others [] s s') : Signs s s' [] := by
  refine ⟨fun f hf => ?_, by simp⟩
  rwa [ProperSig, h f List.not_mem_nil]

section Accepted

variable {pl : Place} {st st' : State}

/-- A function gets the signature that is written for it. -/
theorem signs_typeMethod {m : Method} {v : PUnit} (h : Accepts (typeMethod m) pl st v st') :
    Signs st.store st'.store [m.symbol] := by
  obtain ⟨sig, st₁, hsig, hset⟩ := accepts_bind.mp h
  obtain ⟨rfl, hof, -⟩ := accepts_resolveSignature hsig
  obtain ⟨-, rfl⟩ := accepts_symbols.mp hset
  have hfunc : ∀ f, (Store.updateFunc m.symbol ({ · with sig := some sig }) st₁.store).2.func f = _ :=
    fun f => Store.func_updateFunc
  refine ⟨fun f hf => ?_, fun f hf => ?_⟩
  · rw [ProperSig, hfunc]
    split
    · exact hof.proper
    · exact hf
  · obtain rfl := List.mem_singleton.mp hf
    rw [ProperSig, hfunc]
    split
    · exact hof.proper
    · next hout =>
      -- a function that is not in the store has no signature
      have hsize : st₁.store.funcs.size ≤ m.symbol.index := by simpa using hout
      rw [Store.func, Array.getElem?_eq_none hsize]
      rfl

theorem signs_typeMethods {ms : List Method} {v : PUnit} (h : Accepts (ms.forM typeMethod) pl st v st') :
    Signs st.store st'.store (ms.map (·.symbol)) := by
  induction ms generalizing st with
  | nil =>
    obtain rfl := accepts_forM_nil.mp h
    exact signs_nil fun _ _ => rfl
  | cons m ms ih =>
    obtain ⟨st₁, h₁, h₂⟩ := accepts_forM_cons.mp h
    exact (signs_typeMethod h₁).append (ih h₂)

end Accepted

theorem signs_typeItem {i : Item} (h : Goes (typeItem i) u s () u' s') : Signs s s' i.symbols := by
  cases i with
  | func sc m =>
    rw [typeItem] at h
    obtain ⟨-, -, st, ha, rfl⟩ := goes_attempt.mp h
    exact signs_typeMethod ha
  | cls sc d c ms =>
    rw [typeItem] at h
    obtain ⟨-, -, st, ha, rfl⟩ := goes_attempt.mp h
    obtain ⟨_, st₁, hfields, hms⟩ := accepts_bind.mp ha
    have hmoves : Moves (Others []) (d.fields.forM (typeField c)) := by
      refine moves_forM fun _ _ => moves_typeField ?_
      exact fun _ _ _ _ _ => rfl
    exact (signs_nil (hmoves.accepted hfields)).append (signs_typeMethods hms)
  | iface sc d c ms =>
    rw [typeItem] at h
    obtain ⟨-, -, st, ha, rfl⟩ := goes_attempt.mp h
    exact signs_typeMethods ha
  | global sc d type g init =>
    rw [typeItem] at h
    obtain ⟨-, -, st, ha, rfl⟩ := goes_attempt.mp h
    obtain ⟨t, st₁, ht, hset⟩ := accepts_bind.mp ha
    obtain ⟨rfl, -⟩ := accepts_resolveType type ht
    obtain ⟨-, rfl⟩ := accepts_symbols.mp hset
    exact signs_nil fun _ _ => rfl

theorem signs_typeItems {items : List Item} (h : Goes (items.forM typeItem) u s () u' s') :
    Signs s s' (items.flatMap Item.symbols) := by
  induction items generalizing u s with
  | nil =>
    obtain ⟨-, rfl, rfl⟩ := goes_forM_nil.mp h
    exact signs_nil fun _ _ => rfl
  | cons i items ih =>
    obtain ⟨u₁, s₁, h₁, h₂⟩ := (goes_forM_cons tidy_typeItem).mp h
    exact (signs_typeItem h₁).append (ih h₂)

/-- The functions of a fresh unit have proper signatures. -/
def FileUnit.Signed (s : Store) (u : FileUnit) : Prop := u.IsFresh → ∀ f ∈ u.own, ProperSig s f

/-- All fresh units get their signatures, because no other unit changes them afterwards. -/
theorem signed_types (h : Sweep p .types us s us' s') (hus : Apart us) : us' = us ∧ ∀ u ∈ us, u.Signed s' := by
  suffices hall : us' = us ∧ (∀ u ∈ us, u.Signed s') ∧ Others (us.flatMap FileUnit.own) s s' by exact ⟨hall.1, hall.2.1⟩
  induction h with
  | nil => exact ⟨rfl, by simp, fun _ _ => rfl⟩
  | @cons u u' us us' s s₁ s' head _ ih =>
    obtain ⟨rfl, hothers⟩ := others_types head
    obtain ⟨hapart, hrest⟩ := List.pairwise_cons.mp hus
    obtain ⟨rfl, hsigned, hothers'⟩ := ih hrest
    refine ⟨rfl, List.forall_mem_cons.mpr ⟨fun hfresh f hf => ?_, hsigned⟩, fun f hf => ?_⟩
    · obtain ⟨tree, items, imports, hsrc⟩ := hfresh
      have hsigns : ProperSig s₁ f := by
        rw [FileUnit.own_fresh hsrc] at hf
        exact (signs_typeItems (goes_resolveDeclared_fresh hsrc head).2).signed f hf
      rw [ProperSig, hothers' f]
      · exact hsigns
      · intro hmem
        obtain ⟨v, hv, hfv⟩ := List.mem_flatMap.mp hmem
        exact hapart v hv hf hfv
    · rw [List.flatMap_cons, List.mem_append, not_or] at hf
      exact (hothers' f hf.2).trans (hothers f hf.1)

/-! ## Bases -/

theorem others_bases (h : Goes (runPhase p .bases) u s () u' s') : u' = u ∧ Others [] s s' := by
  cases hsrc : u.source with
  | fresh tree items imports =>
    obtain ⟨rfl, hg⟩ := goes_bases_fresh hsrc h
    refine ⟨rfl, ((movesUnit_forM fun i _ => ?_).goes ⟨tree, items, imports, hsrc⟩ hg).1⟩
    exact movesUnit_itemBases (fun _ _ _ _ _ _ _ _ _ _ => rfl) fun _ _ _ _ _ => rfl
  | cached record imports pending =>
    obtain ⟨rfl, rfl⟩ := goes_mapItems_cached hsrc h
    exact ⟨rfl, fun _ _ => rfl⟩

/-- Units keep their signatures where bases are linked. -/
theorem signed_bases (h : Sweep p .bases us s us' s') (hus : ∀ u ∈ us, u.Signed s) : us' = us ∧ ∀ u ∈ us, u.Signed s' := by
  suffices hall : us' = us ∧ Others [] s s' by
    refine ⟨hall.1, fun u hu hfresh f hf => ?_⟩
    rw [ProperSig, hall.2 f List.not_mem_nil]
    exact hus u hu hfresh f hf
  clear hus
  induction h with
  | nil => exact ⟨rfl, fun _ _ => rfl⟩
  | cons head _ ih =>
    obtain ⟨rfl, hothers⟩ := others_bases head
    obtain ⟨rfl, hrest⟩ := ih
    exact ⟨rfl, IsTrans.trans _ _ _ hothers hrest⟩

end Phases

end Weft.Analysis
