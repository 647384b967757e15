import Weft.Proofs.Analysis.Units
import Weft.Proofs.Symbol.Hierarchy

/-!
# Linking classes and interfaces to their bases

Fresh units are declared without bases. The phase that links them goes through single links, one for each base that
is written, and after each of them the hierarchy is acyclic, whatever is reported on the way.
-/

namespace Weft.Analysis

open Relation (ReflTransGen)
open Store (SameBases)

/-! ## How computations move the symbols -/

/-- However a computation on the symbols starts, it leads to a related store. -/
def MovesSymbols (R : Store → Store → Prop) {α : Type} (m : Symbols α) : Prop := ∀ s, R s (m s).2

/-- However an analysis starts and ends, it leads to a related store. -/
def Moves (R : Store → Store → Prop) {α : Type} (m : Analysis α) : Prop :=
  ∀ pl st, R st.store (@Reported.value (Except Typed.ArgumentsError α × State) (m pl st)).2.store

/-- A unit that declares its symbols from a file, not from a record. -/
def FileUnit.IsFresh (u : FileUnit) : Prop := ∃ tree items imports, u.source = .fresh tree items imports

/-- The functions and methods of a declaration. -/
def Item.methods : Item → List Method
  | .func _ m => [m]
  | .cls _ _ _ ms => ms
  | .iface _ _ _ ms => ms
  | .global .. => []

/-- However a computation on a fresh unit starts, it leads to a related store, and the unit stays fresh. -/
def MovesUnit (R : Store → Store → Prop) {α : Type} (m : OnUnit α) : Prop :=
  ∀ u s, u.IsFresh → R s (m u s).2 ∧ (m u s).1.2.IsFresh

section Moves

variable {R : Store → Store → Prop} {α β ι : Type}

theorem movesSymbols_pure [Std.Refl R] {a : α} : MovesSymbols R (pure a) := fun _ => Std.Refl.refl _

theorem MovesSymbols.bind [IsTrans Store R] {m : Symbols α} {f : α → Symbols β} (hm : MovesSymbols R m)
    (hf : ∀ a, MovesSymbols R (f a)) : MovesSymbols R (m >>= f) := fun s => IsTrans.trans _ _ _ (hm s) (hf _ _)

theorem movesSymbols_get [Std.Refl R] : MovesSymbols R get := fun _ => Std.Refl.refl _

theorem moves_pure [Std.Refl R] {a : α} : Moves R (pure a) := fun _ _ => Std.Refl.refl _

theorem Moves.bind [IsTrans Store R] {m : Analysis α} {f : α → Analysis β} (hm : Moves R m) (hf : ∀ a, Moves R (f a)) :
    Moves R (m >>= f) := by
  intro pl st
  have hfirst := hm pl st
  rw [bind_run]
  rcases hr : m pl st with ⟨⟨_ | a, st₁⟩, ds⟩
  · rwa [hr] at hfirst
  · rw [hr] at hfirst
    exact IsTrans.trans _ _ _ hfirst (hf a pl st₁)

theorem moves_report [Std.Refl R] {span : Span} {p : Problem} : Moves R (report span p) := fun _ _ => Std.Refl.refl _

theorem moves_guard [IsTrans Store R] [Std.Refl R] {c : Prop} [Decidable c] {span : Span} {p : Problem}
    {f : PUnit → Analysis β} (hf : Moves R (f ())) : Moves R (if c then report span p >>= f else f ()) := by
  split
  · exact moves_report.bind fun _ => hf
  · exact hf

theorem moves_read [Std.Refl R] : Moves R (read : Analysis Place) := fun _ _ => Std.Refl.refl _

theorem moves_store [Std.Refl R] : Moves R store := fun _ _ => Std.Refl.refl _

theorem moves_symbols {m : Symbols α} (hm : MovesSymbols R m) : Moves R (symbols m) := fun _ st => hm st.store

theorem moves_forM [IsTrans Store R] [Std.Refl R] {f : ι → Analysis PUnit} {xs : List ι} (hf : ∀ x ∈ xs, Moves R (f x)) :
    Moves R (xs.forM f) := by
  induction xs with
  | nil => exact moves_pure
  | cons x xs ih =>
    rw [List.forM_eq_forM, List.forM_cons]
    refine (hf x List.mem_cons_self).bind fun _ => ?_
    exact ih fun y hy => hf y (List.mem_cons_of_mem _ hy)

theorem movesUnit_pure [Std.Refl R] {a : α} : MovesUnit R (pure a) := fun _ _ hu => ⟨Std.Refl.refl _, hu⟩

theorem MovesUnit.bind [IsTrans Store R] {m : OnUnit α} {f : α → OnUnit β} (hm : MovesUnit R m)
    (hf : ∀ a, MovesUnit R (f a)) : MovesUnit R (m >>= f) := by
  intro u s hu
  obtain ⟨h, hu⟩ := hm u s hu
  obtain ⟨h', hu⟩ := hf _ _ (m u s).2 hu
  exact ⟨IsTrans.trans _ _ _ h h', hu⟩

theorem movesUnit_get_bind {f : FileUnit → OnUnit β} (hf : ∀ u, u.IsFresh → MovesUnit R (f u)) :
    MovesUnit R (get >>= f) := fun u s hu => hf u hu u s hu

theorem movesUnit_modify [Std.Refl R] {f : FileUnit → FileUnit} (hf : ∀ u, u.IsFresh → (f u).IsFresh) :
    MovesUnit R (modify f) := fun u _ hu => ⟨Std.Refl.refl _, hf u hu⟩

theorem movesUnit_setModule [Std.Refl R] {module : Module} : MovesUnit R (modify ({ · with module })) :=
  movesUnit_modify fun _ hu => hu

theorem movesUnit_symbols {m : Symbols α} (hm : MovesSymbols R m) : MovesUnit R (liftM m) :=
  fun _ s hu => ⟨hm s, hu⟩

theorem movesUnit_forM [IsTrans Store R] [Std.Refl R] {f : ι → OnUnit PUnit} {xs : List ι}
    (hf : ∀ x ∈ xs, MovesUnit R (f x)) : MovesUnit R (xs.forM f) := by
  induction xs with
  | nil => exact movesUnit_pure
  | cons x xs ih =>
    refine (hf x List.mem_cons_self).bind fun _ => ?_
    exact ih fun y hy => hf y (List.mem_cons_of_mem _ hy)

/-- An analysis of a unit moves the symbols as it does by itself, also when it breaks off. -/
theorem movesUnit_attempt [Std.Refl R] {sc : Scope} {fallback : α} {m : Analysis α} (hm : Moves R m) :
    MovesUnit R (attempt sc fallback m) := by
  intro u s hfresh
  cases hu : u.broken with
  | true =>
    rw [attempt_broken hu]
    exact ⟨Std.Refl.refl _, hfresh⟩
  | false =>
    have h := hm ⟨u.file, sc⟩ ⟨s, []⟩
    rw [attempt_eq hu]
    split <;> next hr => rw [hr] at h; exact ⟨h, hfresh⟩

theorem movesUnit_mapItems [IsTrans Store R] [Std.Refl R] {f : List Item → OnUnit (List Item)}
    (hf : ∀ items, MovesUnit R (f items)) : MovesUnit R (mapItems f) := by
  refine movesUnit_get_bind fun u hu => ?_
  obtain ⟨tree, items, imports, hsrc⟩ := hu
  rw [hsrc]
  refine (hf items).bind fun items => movesUnit_modify fun u _ => ?_
  exact ⟨tree, items, imports, rfl⟩

/-- A phase moves the symbols as it does on every unit. -/
theorem moves_runUnits [IsTrans Store R] [Std.Refl R] {p : Project} {ph : Phase} (h : MovesUnit R (runPhase p ph))
    {us : List FileUnit} (hus : ∀ u ∈ us, u.IsFresh) (s : Store) :
    R s (runUnits p us ph s).2 ∧ ∀ u ∈ (runUnits p us ph s).1, u.IsFresh := by
  induction us generalizing s with
  | nil => exact ⟨Std.Refl.refl s, by simp [runUnits, pure, StateT.pure]⟩
  | cons u us ih =>
    rw [runUnits_cons]
    obtain ⟨hu, hfresh⟩ := h u s (hus u List.mem_cons_self)
    obtain ⟨hrest, hall⟩ := ih (fun v hv => hus v (List.mem_cons_of_mem _ hv)) (runPhase p ph u s).2
    exact ⟨IsTrans.trans _ _ _ hu hrest, List.forall_mem_cons.mpr ⟨hfresh, hall⟩⟩

end Moves

/-! ## Declarations -/

/-- A relation that is kept by the changes that make no classes, no interfaces, no functions and no fields. -/
structure ScopeMoves (R : Store → Store → Prop) : Prop where
  addSpace : ∀ x, MovesSymbols R (Store.addSpace x)
  addGlobal : ∀ x, MovesSymbols R (Store.addGlobal x)
  addEnum : ∀ x, MovesSymbols R (Store.addEnum x)
  updateSpace : ∀ n f, MovesSymbols R (Store.updateSpace n f)
  updateGlobal : ∀ g f, MovesSymbols R (Store.updateGlobal g f)
  updateEnum : ∀ e f, MovesSymbols R (Store.updateEnum e f)

/-- A relation that is kept by every change with which a file declares its symbols. -/
structure OutlineMoves (R : Store → Store → Prop) : Prop extends ScopeMoves R where
  addFunc : ∀ x, MovesSymbols R (Store.addFunc x)
  addField : ∀ x, MovesSymbols R (Store.addField x)
  addClass : ∀ x, x.super = none → MovesSymbols R (Store.addClass x)
  addInterface : ∀ x, x.bases = [] → MovesSymbols R (Store.addInterface x)
  updateFunc : ∀ i f, MovesSymbols R (Store.updateFunc i f)
  updateField : ∀ i f, MovesSymbols R (Store.updateField i f)
  updateClass : ∀ c f, (∀ x, (f x).super = x.super) → MovesSymbols R (Store.updateClass c f)
  updateInterface : ∀ i f, (∀ x, (f x).bases = x.bases) → MovesSymbols R (Store.updateInterface i f)

section Scopes

variable {R : Store → Store → Prop} [IsTrans Store R] [Std.Refl R] (h : ScopeMoves R)
include h

theorem moves_define {n : NamespaceId} {sym : Sym} : MovesSymbols R (Store.define n sym) := by
  refine movesSymbols_get.bind fun s => ?_
  split
  · exact (h.updateSpace _ _).bind fun _ => movesSymbols_pure
  · exact movesSymbols_pure

theorem moves_addItem {e : EnumId} {name : String} {value : Int} : MovesSymbols R (Store.addItem e name value) := by
  refine movesSymbols_get.bind fun s => ?_
  split
  · exact MovesSymbols.bind (h.updateEnum _ _) fun _ => movesSymbols_pure
  · exact movesSymbols_pure

theorem moves_child {n : NamespaceId} {name : String} : MovesSymbols R (Store.child n name) := by
  refine movesSymbols_get.bind fun s => ?_
  dsimp only
  split
  · refine MovesSymbols.bind (h.addSpace _) fun _ => ?_
    exact (h.updateSpace _ _).bind fun _ => movesSymbols_pure
  · exact movesSymbols_pure
  · exact movesSymbols_pure

omit h in
theorem moves_unique {span : Span} {m : Symbols (Except AlreadyDefined PUnit)} (hm : MovesSymbols R m) :
    Moves R (unique span m) := by
  refine (moves_symbols hm).bind fun r => ?_
  split
  · exact moves_pure
  · exact moves_report.bind fun _ => moves_pure

theorem moves_outlineEnum {module : String} {sc : Scope} {d : Tree.EnumDecl} : Moves R (outlineEnum module sc d) := by
  refine moves_store.bind fun s => ?_
  refine Moves.bind (moves_symbols (h.addEnum _)) fun e => ?_
  refine (moves_unique (moves_define h)).bind fun ok => ?_
  split
  · refine moves_forM fun i _ => ?_
    refine (moves_symbols (moves_addItem h)).bind fun r => ?_
    split
    · exact moves_pure
    · exact moves_report
  · exact moves_pure

theorem moves_outlineGlobal {sc : Scope} {d : Tree.VarDecl} : Moves R (outlineGlobal sc d) := by
  unfold outlineGlobal
  split
  · exact moves_report.bind fun _ => moves_pure
  · refine moves_store.bind fun s => ?_
    refine Moves.bind (moves_symbols (h.addGlobal _)) fun g => ?_
    refine (moves_unique (moves_define h)).bind fun ok => ?_
    split <;> exact moves_pure
  · exact moves_report.bind fun _ => moves_pure

theorem moves_childSpace {span : Span} {n : NamespaceId} {path : List String} : Moves R (childSpace span n path) := by
  induction path generalizing n with
  | nil => exact moves_pure
  | cons name rest ih =>
    refine (moves_symbols (moves_child h)).bind fun r => ?_
    split
    · exact ih
    · exact moves_report.bind fun _ => moves_pure

theorem moves_addGlobal {m : Module} {g : GlobalId} : MovesSymbols R (m.addGlobal g) :=
  MovesSymbols.bind (h.updateGlobal _ _) fun _ => movesSymbols_pure

theorem moves_indexGlobals {m : Module} {items : List Item} : MovesSymbols R (indexGlobals m items) := by
  induction items generalizing m with
  | nil => exact movesSymbols_pure
  | cons i items ih =>
    cases i with
    | global sc d type g init => exact (moves_addGlobal h).bind fun _ => ih
    | _ => exact ih

end Scopes

section Outline

variable {R : Store → Store → Prop} [IsTrans Store R] [Std.Refl R] (h : OutlineMoves R)
include h

theorem moves_defineMember {c : ClassId} {sym : Sym} : MovesSymbols R (Store.defineMember c sym) := by
  unfold Store.defineMember
  split
  case' h_1 => refine MovesSymbols.bind (h.updateField _ _) fun _ => ?_
  case' h_2 => refine MovesSymbols.bind (h.updateFunc _ _) fun _ => ?_
  -- from here on all symbols are declared alike
  all_goals
    refine MovesSymbols.bind (h.updateClass _ _ fun _ => rfl) fun _ => movesSymbols_get.bind fun s => ?_
    split
    · exact MovesSymbols.bind (h.updateClass _ _ fun _ => rfl) fun _ => movesSymbols_pure
    · exact movesSymbols_pure

theorem moves_defineSignature {i : InterfaceId} {f : FuncId} : MovesSymbols R (Store.defineSignature i f) := by
  refine movesSymbols_get.bind fun s => ?_
  refine MovesSymbols.bind (h.updateFunc _ _) fun _ => movesSymbols_get.bind fun s => ?_
  split
  · exact MovesSymbols.bind (h.updateInterface _ _ fun _ => rfl) fun _ => movesSymbols_pure
  · exact movesSymbols_pure

theorem moves_outlineFunc {module : String} {sc : Scope} {d : Tree.FuncDecl} : Moves R (outlineFunc module sc d) := by
  refine moves_guard ?_
  refine moves_store.bind fun s => (moves_symbols (h.addFunc _)).bind fun f => ?_
  refine (moves_unique (moves_define h.toScopeMoves)).bind fun ok => ?_
  split <;> exact moves_pure

theorem moves_outlineMethods {module path : String} {c : ClassId} {ds : List Tree.FuncDecl} :
    Moves R (outlineMethods module path c ds) := by
  induction ds with
  | nil => exact moves_pure
  | cons d ds ih =>
    refine moves_guard ?_
    exact (moves_symbols (h.addFunc _)).bind fun f => (moves_unique (moves_defineMember h)).bind fun ok =>
      ih.bind fun more => moves_pure

theorem moves_outlineClass {module : String} {sc : Scope} {d : Tree.ClassDecl} :
    Moves R (outlineClass module sc d) := by
  refine moves_store.bind fun s => ?_
  refine Moves.bind (moves_symbols (h.addClass _ rfl)) fun c => ?_
  refine (moves_unique (moves_define h.toScopeMoves)).bind fun ok => ?_
  split
  · refine Moves.bind (moves_forM fun f _ => ?_) fun _ => (moves_outlineMethods h).bind fun ms => moves_pure
    refine (moves_symbols (h.addField _)).bind fun field => ?_
    exact (moves_unique (moves_defineMember h)).bind fun _ => moves_pure
  · exact moves_pure

theorem moves_outlineSignatures {module path : String} {i : InterfaceId} {ds : List Tree.FuncDecl} :
    Moves R (outlineSignatures module path i ds) := by
  induction ds with
  | nil => exact moves_pure
  | cons d ds ih =>
    exact (moves_symbols (h.addFunc _)).bind fun f => (moves_unique (moves_defineSignature h)).bind fun ok =>
      ih.bind fun more => moves_pure

theorem moves_outlineInterface {module : String} {sc : Scope} {d : Tree.InterfaceDecl} :
    Moves R (outlineInterface module sc d) := by
  refine moves_store.bind fun s => ?_
  refine Moves.bind (moves_symbols (h.addInterface _ rfl)) fun i => ?_
  refine (moves_unique (moves_define h.toScopeMoves)).bind fun ok => ?_
  split
  · exact (moves_outlineSignatures h).bind fun ms => moves_pure
  · exact moves_pure

omit h

mutual

theorem moves_outlineDecl (h : OutlineMoves R) {module : String} :
    ∀ {sc : Scope} (d : Tree.Decl), Moves R (outlineDecl module sc d)
  | sc, .space span path decls => by
    unfold outlineDecl
    refine (moves_childSpace h.toScopeMoves).bind fun n => ?_
    cases n with
    | none => exact moves_pure
    | some n => exact moves_outlineDecls h decls
  | sc, .func d => by
    unfold outlineDecl
    exact (moves_outlineFunc h).bind fun _ => moves_pure
  | sc, .cls d => by
    unfold outlineDecl
    exact (moves_outlineClass h).bind fun _ => moves_pure
  | sc, .iface d => by
    unfold outlineDecl
    exact (moves_outlineInterface h).bind fun _ => moves_pure
  | sc, .enumeration d => by
    unfold outlineDecl
    exact (moves_outlineEnum h.toScopeMoves).bind fun _ => moves_pure
  | sc, .var d => by
    unfold outlineDecl
    exact (moves_outlineGlobal h.toScopeMoves).bind fun _ => moves_pure

theorem moves_outlineDecls (h : OutlineMoves R) {module : String} :
    ∀ {sc : Scope} (ds : List Tree.Decl), Moves R (outlineDecls module sc ds)
  | sc, [] => by
    unfold outlineDecls
    exact moves_pure
  | sc, d :: ds => by
    unfold outlineDecls
    exact (moves_outlineDecl h d).bind fun _ => (moves_outlineDecls h ds).bind fun _ => moves_pure

end

end Outline

/-! ### Declarations have no bases -/

section Bases

instance : Std.Refl SameBases := ⟨SameBases.refl⟩

instance : IsTrans Store SameBases := ⟨fun _ _ _ h h' => h.trans h'⟩

theorem sameBases_of_eq {α : Type} {m : Symbols α} (hc : ∀ s, (m s).2.classes = s.classes)
    (hi : ∀ s, (m s).2.interfaces = s.interfaces) : MovesSymbols SameBases m :=
  fun s => ⟨fun c => by rw [Store.cls, Store.cls, hc], fun i => by rw [Store.iface, Store.iface, hi]⟩

theorem sameBases_updateSpace {n : NamespaceId} {f : Namespace → Namespace} :
    MovesSymbols SameBases (Store.updateSpace n f) := sameBases_of_eq (fun _ => rfl) fun _ => rfl

theorem sameBases_updateClass {c : ClassId} {f : Class → Class} (hf : ∀ x, (f x).super = x.super) :
    MovesSymbols SameBases (Store.updateClass c f) := by
  intro s
  refine ⟨fun d => ?_, fun _ => rfl⟩
  rw [Store.cls_updateClass]
  split
  · exact hf _
  · rfl

theorem sameBases_addClass {x : Class} (hx : x.super = none) : MovesSymbols SameBases (Store.addClass x) := by
  intro s
  refine ⟨fun d => ?_, fun _ => rfl⟩
  rw [Store.cls_addClass]
  split
  · next hd =>
    have hnone : s.classes[d.index]? = none := Array.getElem?_eq_none_iff.mpr (by omega)
    rw [hx, Store.cls, hnone]
    rfl
  · rfl

theorem sameBases_addInterface {x : Interface} (hx : x.bases = []) :
    MovesSymbols SameBases (Store.addInterface x) := by
  intro s
  refine ⟨fun _ => rfl, fun i => ?_⟩
  rw [Store.iface_addInterface]
  split
  · next hi => rw [hx, Store.bases_eq_nil (by omega)]
  · rfl

theorem sameBases_updateInterface {i : InterfaceId} {f : Interface → Interface} (hf : ∀ x, (f x).bases = x.bases) :
    MovesSymbols SameBases (Store.updateInterface i f) := by
  intro s
  refine ⟨fun _ => rfl, fun j => ?_⟩
  rw [Store.iface_updateInterface]
  split
  · exact hf _
  · rfl

theorem outlineMoves_sameBases : OutlineMoves SameBases where
  addSpace _ := sameBases_of_eq (fun _ => rfl) fun _ => rfl
  addFunc _ := sameBases_of_eq (fun _ => rfl) fun _ => rfl
  addGlobal _ := sameBases_of_eq (fun _ => rfl) fun _ => rfl
  addField _ := sameBases_of_eq (fun _ => rfl) fun _ => rfl
  addClass _ := sameBases_addClass
  addInterface _ := sameBases_addInterface
  addEnum _ := sameBases_of_eq (fun _ => rfl) fun _ => rfl
  updateSpace _ _ := sameBases_updateSpace
  updateFunc _ _ := sameBases_of_eq (fun _ => rfl) fun _ => rfl
  updateGlobal _ _ := sameBases_of_eq (fun _ => rfl) fun _ => rfl
  updateField _ _ := sameBases_of_eq (fun _ => rfl) fun _ => rfl
  updateClass _ _ := sameBases_updateClass
  updateInterface _ _ := sameBases_updateInterface
  updateEnum _ _ := sameBases_of_eq (fun _ => rfl) fun _ => rfl

end Bases

/-! ## The phases before the bases -/

section Phases

variable {p : Project} {R : Store → Store → Prop} [IsTrans Store R] [Std.Refl R]

theorem movesUnit_outline : MovesUnit SameBases outline := by
  refine movesUnit_get_bind fun u hu => ?_
  obtain ⟨tree, items, imports, hsrc⟩ := hu
  rw [hsrc]
  refine (movesUnit_attempt (moves_outlineDecls outlineMoves_sameBases _)).bind fun items => ?_
  refine (movesUnit_symbols (moves_indexGlobals outlineMoves_sameBases.toScopeMoves)).bind fun module => movesUnit_modify fun u _ => ?_
  exact ⟨tree, items, imports, rfl⟩

theorem moves_resolveImports {module : String} {seen : List String} {is : List Tree.Import} :
    Moves R (resolveImports p module seen is) := by
  induction is generalizing seen with
  | nil => exact moves_pure
  | cons i is ih =>
    refine moves_read.bind fun pl => ?_
    split
    · exact moves_report.bind fun _ => ih
    · split
      · exact moves_report.bind fun _ => ih
      · split
        · exact moves_report.bind fun _ => ih
        · exact ih.bind fun _ => moves_pure

theorem movesUnit_linkImports : MovesUnit R (linkImports p) := by
  refine movesUnit_get_bind fun u hu => ?_
  obtain ⟨tree, items, imports, hsrc⟩ := hu
  rw [hsrc]
  refine (movesUnit_attempt moves_resolveImports).bind fun imports => movesUnit_modify fun u _ => ?_
  exact ⟨tree, items, imports, rfl⟩

theorem moves_addImport (hspace : ∀ n f, MovesSymbols R (Store.updateSpace n f)) {m : Module} {name : String}
    {n : NamespaceId} : MovesSymbols R (m.addImport name n) := by
  unfold Module.addImport
  split
  · exact movesSymbols_pure
  · exact MovesSymbols.bind (hspace _ _) fun _ => movesSymbols_pure

theorem movesUnit_addImports (hspace : ∀ n f, MovesSymbols R (Store.updateSpace n f)) : MovesUnit R (addImports p) := by
  refine movesUnit_get_bind fun u hu => ?_
  obtain ⟨tree, items, imports, hsrc⟩ := hu
  rw [hsrc]
  refine movesUnit_forM fun i _ => movesUnit_get_bind fun u _ => ?_
  exact (movesUnit_symbols (moves_addImport hspace)).bind fun (_, module) => movesUnit_setModule

mutual

theorem moves_resolveType {R : Store → Store → Prop} [IsTrans Store R] [Std.Refl R] :
    ∀ {allowVoid : Bool} (t : Tree.TypeExpr), Moves R (resolveType allowVoid t)
  | allowVoid, .named span path => by
    unfold resolveType
    refine moves_store.bind fun s => moves_read.bind fun pl => ?_
    split
    · exact moves_report.bind fun _ => moves_pure
    · split
      · exact moves_report.bind fun _ => moves_pure
      · exact moves_pure
  | _, .array _ elem => by
    unfold resolveType
    exact (moves_resolveType elem).bind fun _ => moves_pure
  | _, .map _ key value => by
    unfold resolveType
    refine (moves_resolveType key).bind fun k => (moves_resolveType value).bind fun v => ?_
    split <;> exact moves_pure
  | _, .func _ coro returns params => by
    unfold resolveType
    have hrest : ∀ ret : Option Ty, Moves R (do
        match ret, ← resolveParamTypes params with
        | some returns, some params => return some (Ty.func { returns, params, defaults := 0, coro })
        | _, _ => return none) := by
      intro ret
      refine (moves_resolveParamTypes params).bind fun ps => ?_
      split <;> exact moves_pure
    match returns with
    | [] => exact moves_pure.bind hrest
    | [t] => exact (moves_resolveType t).bind hrest
    | t :: t' :: ts => exact (moves_resolveTypes (t :: t' :: ts)).bind fun _ => moves_pure.bind hrest

theorem moves_resolveTypes {R : Store → Store → Prop} [IsTrans Store R] [Std.Refl R] :
    ∀ (ts : List Tree.TypeExpr), Moves R (resolveTypes ts)
  | [] => by
    unfold resolveTypes
    exact moves_pure
  | t :: ts => by
    unfold resolveTypes
    refine (moves_resolveType t).bind fun t => ?_
    split
    · exact moves_pure
    · exact (moves_resolveTypes ts).bind fun _ => moves_pure

theorem moves_resolveParamTypes {R : Store → Store → Prop} [IsTrans Store R] [Std.Refl R] :
    ∀ (ps : List (Bool × Tree.TypeExpr)), Moves R (resolveParamTypes ps)
  | [] => by
    unfold resolveParamTypes
    exact moves_pure
  | (ref, t) :: ps => by
    unfold resolveParamTypes
    refine (moves_resolveType t).bind fun t => ?_
    split
    · exact moves_pure
    · exact (moves_resolveParamTypes ps).bind fun _ => moves_pure

end

theorem moves_resolveReturns {ts : List Tree.TypeExpr} : Moves R (resolveReturns ts) := by
  unfold resolveReturns
  split
  · exact moves_pure
  · exact moves_resolveType _
  · exact (moves_resolveTypes _).bind fun _ => moves_pure

theorem moves_resolveParams {seen : List String} {defaults : Nat} {ps : List Tree.Param} :
    Moves R (resolveParams seen defaults ps) := by
  induction ps generalizing seen defaults with
  | nil => exact moves_pure
  | cons p ps ih =>
    refine moves_guard ?_
    refine (moves_resolveType _).bind fun t => ?_
    refine moves_guard ?_
    refine moves_guard ?_
    exact ih.bind fun _ => moves_pure

theorem moves_resolveSignature {coro : Bool} {returns : List Tree.TypeExpr} {params : List Tree.Param} :
    Moves R (resolveSignature coro returns params) := by
  unfold resolveSignature
  refine moves_resolveReturns.bind fun ret => ?_
  refine moves_resolveParams.bind fun r => ?_
  cases params with
  | nil => exact moves_pure
  | cons p ps =>
    refine moves_guard ?_
    refine moves_guard ?_
    exact moves_pure

theorem moves_typeMethod {m : Method}
    (hm : ∀ sig, MovesSymbols R (Store.updateFunc m.symbol ({ · with sig := some sig }))) : Moves R (typeMethod m) :=
  moves_resolveSignature.bind fun sig => moves_symbols (hm sig)

theorem moves_typeField (hfield : ∀ x t, MovesSymbols R (Store.updateField x ({ · with type := some t }))) {c : ClassId}
    {f : Tree.FieldDecl} : Moves R (typeField c f) := by
  refine moves_store.bind fun s => ?_
  split
  · exact (moves_resolveType _).bind fun _ => moves_symbols (hfield _ _)
  · exact moves_pure

/-- The types of a declaration change the types of its functions and methods, of fields and of global variables. -/
theorem movesUnit_typeItem {i : Item}
    (hmethods : ∀ m ∈ i.methods, ∀ sig, MovesSymbols R (Store.updateFunc m.symbol ({ · with sig := some sig })))
    (hfield : ∀ x t, MovesSymbols R (Store.updateField x ({ · with type := some t })))
    (hglobal : ∀ g t, MovesSymbols R (Store.updateGlobal g ({ · with type := some t }))) : MovesUnit R (typeItem i) := by
  unfold typeItem
  cases i with
  | func sc m => exact movesUnit_attempt (moves_typeMethod (hmethods m List.mem_cons_self))
  | global sc d type g init =>
    refine movesUnit_attempt ?_
    exact (moves_resolveType _).bind fun _ => moves_symbols (hglobal _ _)
  | cls sc d c methods =>
    refine movesUnit_attempt ?_
    exact (moves_forM fun _ _ => moves_typeField hfield).bind fun _ =>
      moves_forM fun m hm => moves_typeMethod (hmethods m hm)
  | iface sc d i methods => exact movesUnit_attempt (moves_forM fun m hm => moves_typeMethod (hmethods m hm))

theorem moves_classBase {c : ClassId} (hclass : ∀ f, (∀ x : Class, ∃ super implements, f x = { x with super, implements }) →
    MovesSymbols R (Store.updateClass c f)) {i : Nat} {b : Tree.TypeExpr} : Moves R (linkClassBase c i b) := by
  refine (moves_resolveType b).bind fun t => moves_store.bind fun s => ?_
  split
  · exact moves_pure
  · split
    · exact moves_report
    · split
      · exact moves_report
      · split
        · exact moves_report
        · exact moves_symbols (hclass _ fun _ => ⟨_, _, rfl⟩)
  · split
    · exact moves_report
    · exact moves_symbols (hclass _ fun _ => ⟨_, _, rfl⟩)
  · exact moves_report

theorem moves_interfaceBase {i : InterfaceId} (hiface : ∀ f, MovesSymbols R (Store.updateInterface i f)) {b : Tree.TypeExpr} :
    Moves R (linkInterfaceBase i b) := by
  refine (moves_resolveType b).bind fun t => moves_store.bind fun s => ?_
  split
  · exact moves_pure
  · split
    · exact moves_report
    · split
      · exact moves_report
      · split
        · exact moves_report
        · exact moves_symbols (hiface _)
  · exact moves_report

/-- The bases of a declaration change the bases of its class, and interfaces. -/
theorem movesUnit_itemBases {i : Item} (hclass : ∀ sc d c ms, i = .cls sc d c ms →
      ∀ f, (∀ x : Class, ∃ super implements, f x = { x with super, implements }) → MovesSymbols R (Store.updateClass c f))
    (hiface : ∀ n f, MovesSymbols R (Store.updateInterface n f)) : MovesUnit R (linkItem i) := by
  cases i with
  | func sc m => exact movesUnit_pure
  | global sc d type g init => exact movesUnit_pure
  | cls sc d c methods => exact movesUnit_attempt (moves_forM fun _ _ => moves_classBase (hclass sc d c methods rfl))
  | iface sc d i methods => exact movesUnit_attempt (moves_forM fun _ _ => moves_interfaceBase (hiface i))

theorem movesUnit_resolveDeclared : MovesUnit SameBases resolveDeclared := by
  refine movesUnit_get_bind fun u hu => ?_
  obtain ⟨tree, items, imports, hsrc⟩ := hu
  rw [hsrc]
  exact movesUnit_forM fun i _ => movesUnit_typeItem (fun _ _ _ => sameBases_of_eq (fun _ => rfl) fun _ => rfl)
    (fun _ _ => sameBases_of_eq (fun _ => rfl) fun _ => rfl) fun _ _ => sameBases_of_eq (fun _ => rfl) fun _ => rfl

/-- The phases of fresh units before the one that links bases. -/
theorem movesUnit_before {ph : Phase} (h : ph ∈ [Phase.outline, .linkImports, .addImports, .types]) :
    MovesUnit SameBases (runPhase p ph) := by
  simp only [List.mem_cons, List.not_mem_nil, or_false] at h
  rcases h with rfl | rfl | rfl | rfl
  · exact movesUnit_outline
  · exact movesUnit_linkImports
  · exact movesUnit_addImports fun _ _ => sameBases_updateSpace
  · exact movesUnit_resolveDeclared

end Phases

/-! ## Single links -/

/-- The second store is what one link leaves of the first: a class or an interface, in any file and any scope, and
one base that is written for it, whatever the link reports. -/
inductive LinkStep : Store → Store → Prop
  | cls (pl : Place) (st : State) (c : ClassId) (i : Nat) (b : Tree.TypeExpr) :
    LinkStep st.store
      (@Reported.value (Except Typed.ArgumentsError Unit × State) (linkClassBase c i b pl st)).2.store
  | iface (pl : Place) (st : State) (i : InterfaceId) (b : Tree.TypeExpr) :
    LinkStep st.store
      (@Reported.value (Except Typed.ArgumentsError Unit × State) (linkInterfaceBase i b pl st)).2.store

section Links

theorem moves_linkClassBase {c : ClassId} {i : Nat} {b : Tree.TypeExpr} :
    Moves (ReflTransGen LinkStep) (linkClassBase c i b) := fun pl st => .single (.cls pl st c i b)

theorem moves_linkInterfaceBase {i : InterfaceId} {b : Tree.TypeExpr} :
    Moves (ReflTransGen LinkStep) (linkInterfaceBase i b) := fun pl st => .single (.iface pl st i b)

theorem movesUnit_linkItem (i : Item) : MovesUnit (ReflTransGen LinkStep) (linkItem i) := by
  cases i with
  | func sc m => exact movesUnit_pure
  | global sc d type g init => exact movesUnit_pure
  | cls sc d c methods => exact movesUnit_attempt (moves_forM fun _ _ => moves_linkClassBase)
  | iface sc d i methods => exact movesUnit_attempt (moves_forM fun _ _ => moves_linkInterfaceBase)

theorem movesUnit_bases {p : Project} : MovesUnit (ReflTransGen LinkStep) (runPhase p .bases) :=
  movesUnit_mapItems fun _ => (movesUnit_forM fun i _ => movesUnit_linkItem i).bind fun _ => movesUnit_pure

/-- An acyclic hierarchy stays one. -/
def StaysAcyclic (s s' : Store) : Prop := s.Acyclic → s'.Acyclic

instance : Std.Refl StaysAcyclic := ⟨fun _ h => h⟩

instance : IsTrans Store StaysAcyclic := ⟨fun _ _ _ h h' hs => h' (h hs)⟩

theorem moves_store_bind {α : Type} {R : Store → Store → Prop} {f : Store → Analysis α}
    (hf : ∀ pl st, R st.store (@Reported.value (Except Typed.ArgumentsError α × State) (f st.store pl st)).2.store) :
    Moves R (store >>= f) := fun pl st => hf pl st

theorem staysAcyclic_linkClassBase {c : ClassId} {i : Nat} {b : Tree.TypeExpr} :
    Moves StaysAcyclic (linkClassBase c i b) := by
  refine (moves_resolveType b).bind fun t => moves_store_bind fun pl st => ?_
  have hstay : ∀ {span : Span} {p : Problem}, StaysAcyclic st.store
      (@Reported.value (Except Typed.ArgumentsError Unit × State) (report span p pl st)).2.store := moves_report pl st
  split
  · exact id
  · next base =>
    split
    · exact hstay
    · split
      · exact hstay
      · split
        · exact hstay
        · next hback => exact fun hs => hs.linkClass (by simpa using hback)
  · next base =>
    split
    · exact hstay
    · refine SameBases.acyclic ?_
      apply sameBases_updateClass
      intro x
      rfl
  · exact hstay

theorem staysAcyclic_linkInterfaceBase {i : InterfaceId} {b : Tree.TypeExpr} :
    Moves StaysAcyclic (linkInterfaceBase i b) := by
  refine (moves_resolveType b).bind fun t => moves_store_bind fun pl st => ?_
  have hstay : ∀ {span : Span} {p : Problem}, StaysAcyclic st.store
      (@Reported.value (Except Typed.ArgumentsError Unit × State) (report span p pl st)).2.store := moves_report pl st
  split
  · exact id
  · next base =>
    split
    · exact hstay
    · split
      · exact hstay
      · next hback =>
        split
        · exact hstay
        · exact fun hs => hs.linkInterface (by simpa using hback)
  · exact hstay

theorem LinkStep.acyclic {s s' : Store} (h : LinkStep s s') (hs : s.Acyclic) : s'.Acyclic := by
  cases h with
  | cls pl st c i b => exact staysAcyclic_linkClassBase pl st hs
  | iface pl st i b => exact staysAcyclic_linkInterfaceBase pl st hs

theorem acyclic_of_links {s s' : Store} (h : ReflTransGen LinkStep s s') (hs : s.Acyclic) : s'.Acyclic := by
  induction h with
  | refl => exact hs
  | tail _ hstep ih => exact hstep.acyclic ih

end Links

/-! ## Two classes that derive from each other -/

namespace Loop

/-- A class with a base. -/
private def cls (name base : String) : Tree.Decl :=
  .cls { span := default, fileLocal := false, name, bases := [.named default [base]], fields := [], methods := [] }

/-- The builtin types, a module that sees them, and their symbols. -/
def start : (Registry × Module) × Store :=
  (do
    let r ← Registry.bare
    return (r, ← Module.new r "m" "m.weft") : Symbols (Registry × Module)).run .empty

/-- A unit of two classes, each with the other as its base. -/
def unit : FileUnit :=
  .fresh "m.weft" { path := "m.weft", span := default, imports := [], decls := [cls "A" "B", cls "B" "A"] } start.1.2

end Loop

end Weft.Analysis
