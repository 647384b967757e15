import Weft.Proofs.Analysis.ClassItems
import Weft.Proofs.Renaming.Chains
import Weft.Proofs.Renaming.Regions

/-!
# Outlines of renamed symbols

A file is outlined after other files as it is by itself: its declarations make the same symbols in the same order, only
under the identities that come next, and report the same problems.
-/

namespace Weft.Analysis

/-- The second analysis declares renamed symbols where the first one declares symbols, as far as these are in a region that
the first one stays in. It may rely on a condition and establishes a property of its result. -/
structure Tracks (σ : Renaming) (root root' : NamespaceId) (a a' hi : Store) {α β : Type} (c : Prop) (P : α → Prop) (f : α → β)
    (m : Analysis α) (m' : Analysis β) : Prop where
  moves : Moves Store.Below m
  carries : c → ∀ {file sc s s' r bs s₁ ds}, Outlined σ root root' a a' hi s s' →
    @Eq (Reported (Except Typed.ArgumentsError α × State)) (m ⟨file, sc⟩ ⟨s, []⟩) ⟨(r, ⟨s₁, bs⟩), ds⟩ → s₁.Below hi →
    bs = [] ∧ (∀ x, r = .ok x → P x) ∧ ∃ s₁',
      @Eq (Reported (Except Typed.ArgumentsError β × State)) (m' ⟨file, sc.rename σ⟩ ⟨s', []⟩) ⟨(r.map f, ⟨s₁', []⟩), ds⟩ ∧
        Outlined σ root root' a a' hi s₁ s₁'

section Tracks

variable {σ : Renaming} {root root' : NamespaceId} {a a' hi : Store} {α β γ δ ι : Type} {c c' : Prop} {P : α → Prop}
  {Q : γ → Prop} {f : α → β} {g : γ → δ} {span : Span}

theorem tracks_pure {x : α} {y : β} (h : c → y = f x) (hP : c → P x) :
    Tracks σ root root' a a' hi c P f (pure x) (pure y) where
  moves := moves_pure
  carries hc _ _ s s' r bs s₁ ds ho hrun _ := by
    cases hrun
    rw [h hc]
    exact ⟨rfl, fun _ hx => Except.ok.inj hx ▸ hP hc, s', rfl, ho⟩

theorem Tracks.mono {m : Analysis α} {m' : Analysis β} {P' : α → Prop} (hm : Tracks σ root root' a a' hi c P f m m')
    (hc : c' → c) (hP : ∀ x, P x → P' x) : Tracks σ root root' a a' hi c' P' f m m' where
  moves := hm.moves
  carries h _ _ _ _ _ _ _ _ ho hrun hhi := by
    obtain ⟨hbs, hr, hrest⟩ := hm.carries (hc h) ho hrun hhi
    exact ⟨hbs, fun x hx => hP x (hr x hx), hrest⟩

/-- Analyses that declare symbols, one after the other. -/
theorem Tracks.bind {m : Analysis α} {m' : Analysis β} {k : α → Analysis γ} {k' : β → Analysis δ}
    (hm : Tracks σ root root' a a' hi c P f m m')
    (hk : ∀ x, Tracks σ root root' a a' hi (c ∧ P x) Q g (k x) (k' (f x))) :
    Tracks σ root root' a a' hi c Q g (m >>= k) (m' >>= k') where
  moves := hm.moves.bind fun x => (hk x).moves
  carries hc file sc s s' r bs s₂ ds ho hrun hhi := by
    rw [bind_run] at hrun
    rcases hm₁ : m ⟨file, sc⟩ ⟨s, []⟩ with ⟨⟨r₁, ⟨s₁, bs₁⟩⟩, ds₁⟩
    rw [hm₁] at hrun
    cases r₁ with
    | error e =>
      cases hrun
      obtain ⟨hbs, -, s₁', hrun', ho'⟩ := hm.carries hc ho hm₁ hhi
      refine ⟨hbs, nofun, s₁', ?_, ho'⟩
      rw [bind_run, hrun']
      rfl
    | ok x =>
      rcases hk₁ : k x ⟨file, sc⟩ ⟨s₁, bs₁⟩ with ⟨⟨r₂, ⟨s₂', bs₂⟩⟩, ds₂⟩
      simp only [hk₁] at hrun
      cases hrun
      -- What comes after stays in the region, so this part does.
      have hbelow := (hk x).moves ⟨file, sc⟩ ⟨s₁, bs₁⟩
      rw [hk₁] at hbelow
      obtain ⟨rfl, hP, s₁', hrun', ho'⟩ := hm.carries hc ho hm₁ (hbelow.trans hhi)
      obtain ⟨hbs, hQ, s₂', hrun₂, ho₂⟩ := (hk x).carries ⟨hc, hP x rfl⟩ ho' hk₁ hhi
      refine ⟨hbs, hQ, s₂', ?_, ho₂⟩
      rw [bind_run, hrun']
      simp only [Except.map, hrun₂]

theorem tracks_store_bind {k : Store → Analysis γ} {k' : Store → Analysis δ}
    (hk : ∀ s s', Tracks σ root root' a a' hi (c ∧ Outlined σ root root' a a' hi s s') Q g (k s) (k' s')) :
    Tracks σ root root' a a' hi c Q g (store >>= k) (store >>= k') where
  moves := moves_store.bind fun s => (hk s s).moves
  carries hc _ _ _ _ _ _ _ _ ho hrun hhi := (hk _ _).carries ⟨hc, ho⟩ ho hrun hhi

theorem tracks_report {p p' : Problem} (h : p'.message = p.message) :
    Tracks σ root root' a a' hi c (fun _ => True) id (report span p) (report span p') where
  moves := moves_report
  carries _ _ _ _ _ _ _ _ _ ho hrun _ := by
    cases hrun
    exact ⟨rfl, fun _ _ => trivial, _, by rw [report, h]; rfl, ho⟩

/-- A check of what is written comes before the rest. -/
theorem tracks_guard {b : Prop} [Decidable b] {p : Problem} {k : Unit → Analysis γ} {k' : Unit → Analysis δ}
    (hk : Tracks σ root root' a a' hi c Q g (k ()) (k' ())) :
    Tracks σ root root' a a' hi c Q g (if b then report span p >>= k else k ()) (if b then report span p >>= k' else k' ()) := by
  split
  · exact (tracks_report rfl).bind fun _ => hk.mono And.left fun _ h => h
  · exact hk

/-- A computation on the symbols. -/
theorem tracks_symbols {m : Symbols α} {m' : Symbols β} (hmoves : MovesSymbols Store.Below m)
    (h : c → ∀ {s s'}, Outlined σ root root' a a' hi s s' → (m s).2.Below hi →
      (m' s').1 = f (m s).1 ∧ P (m s).1 ∧ Outlined σ root root' a a' hi (m s).2 (m' s').2) :
    Tracks σ root root' a a' hi c P f (symbols m) (symbols m') where
  moves := moves_symbols hmoves
  carries hc _ _ s s' _ _ _ _ ho hrun hhi := by
    cases hrun
    obtain ⟨hres, hP, ho'⟩ := h hc ho hhi
    refine ⟨rfl, fun _ hx => Except.ok.inj hx ▸ hP, (m' s').2, ?_, ho'⟩
    change _ = (⟨(.ok (f (m s).1), ⟨(m' s').2, []⟩), []⟩ : Reported (Except Typed.ArgumentsError β × State))
    rw [← hres]
    rfl

/-- A name is declared, or is reported when it is taken. -/
theorem tracks_unique {m m' : Symbols (Except AlreadyDefined PUnit)} (hmoves : MovesSymbols Store.Below m)
    (h : c → ∀ {s s'}, Outlined σ root root' a a' hi s s' →
      (m' s').1 = renameDefined σ id (m s).1 ∧ Outlined σ root root' a a' hi (m s).2 (m' s').2) :
    Tracks σ root root' a a' hi c (fun _ => True) id (unique span m) (unique span m') := by
  refine (tracks_symbols (P := fun _ => True) (f := renameDefined σ id) hmoves fun hc _ _ ho _ => ?_).bind fun r => ?_
  · obtain ⟨hres, ho'⟩ := h hc ho
    exact ⟨hres, trivial, ho'⟩
  · cases r with
    | ok _ => exact tracks_pure (fun _ => rfl) fun _ => trivial
    | error e => exact (tracks_report rfl).bind fun _ => tracks_pure (fun _ => rfl) fun _ => trivial

theorem tracks_forM {k k' : ι → Analysis PUnit} (xs : List ι)
    (hk : ∀ x ∈ xs, Tracks σ root root' a a' hi c (fun _ => True) id (k x) (k' x)) :
    Tracks σ root root' a a' hi c (fun _ => True) id (xs.forM k) (xs.forM k') := by
  induction xs with
  | nil => exact tracks_pure (fun _ => rfl) fun _ => trivial
  | cons x xs ih =>
    refine (hk x List.mem_cons_self).bind fun _ => ?_
    exact (ih fun y hy => hk y (List.mem_cons_of_mem _ hy)).mono And.left fun _ h => h

end Tracks

/-! ## Scopes and items -/

namespace Scope

variable {σ : Renaming}

@[simp] theorem rename_own (sc : Scope) : (sc.rename σ).own = σ.space sc.own := by
  obtain ⟨root, levels⟩ := sc
  cases levels <;> rfl

@[simp] theorem rename_path (sc : Scope) : (sc.rename σ).path = sc.path := by
  obtain ⟨root, levels⟩ := sc
  cases levels <;> rfl

theorem rename_nested (sc : Scope) (n : NamespaceId) (names : List String) :
    (sc.nested n names).rename σ = (sc.rename σ).nested (σ.space n) names := by
  rw [nested, nested, rename_path]
  rfl

end Scope

/-- The symbols of a declaration are owned. -/
def Item.In (own : SymKind → Nat → Prop) : Item → Prop
  | .func _ m => own .func m.symbol.index
  | .cls _ _ c ms => own .cls c.index ∧ ∀ m ∈ ms, own .func m.symbol.index
  | .iface _ _ i ms => own .iface i.index ∧ ∀ m ∈ ms, own .func m.symbol.index
  | .global _ _ _ g _ => own .global g.index

/-! ## Symbols -/

section Symbols

variable {σ : Renaming} {root root' : NamespaceId} {a a' hi : Store} {c : Prop} {span : Span} {sc : Scope}
  {module : String} (hσ : σ.Fits root root' a a' hi)
include hσ

/-- A new symbol gets the identity that comes next. -/
theorem next_of_below {s s' s₁ : Store} {k : SymKind} (ho : Outlined σ root root' a a' hi s s')
    (hcount : s₁.count k = s.count k + 1) (hhi : s₁.Below hi) :
    σ.index k (s.count k) = s'.count k ∧ Region root a hi k (s.count k) := by
  have hlt : s.count k < hi.count k := by
    have hle := hhi k
    omega
  exact ⟨ho.next hσ hlt, .inl ⟨ho.left.below k, hlt⟩⟩

theorem tracks_addFunc {x x' : Func} (hx : c → x' = x.rename σ) :
    Tracks σ root root' a a' hi c (fun i => Region root a hi .func i.index) σ.func (symbols (Store.addFunc x))
      (symbols (Store.addFunc x')) := by
  refine tracks_symbols (outlineMoves_below.addFunc _) fun hc s s' ho hhi => ?_
  have hcount : (Store.addFunc x s).2.count .func = s.count .func + 1 := by rw [Store.count_addFunc, if_pos rfl]
  obtain ⟨hnext, hregion⟩ := next_of_below hσ ho hcount hhi
  exact ⟨congrArg FuncId.mk hnext.symm, hregion, ho.addFunc hσ (hx hc)⟩

theorem tracks_addGlobal {x x' : Global} (hx : c → x' = x.rename σ) :
    Tracks σ root root' a a' hi c (fun i => Region root a hi .global i.index) σ.global (symbols (Store.addGlobal x))
      (symbols (Store.addGlobal x')) := by
  refine tracks_symbols (outlineMoves_below.addGlobal _) fun hc s s' ho hhi => ?_
  have hcount : (Store.addGlobal x s).2.count .global = s.count .global + 1 := by rw [Store.count_addGlobal, if_pos rfl]
  obtain ⟨hnext, hregion⟩ := next_of_below hσ ho hcount hhi
  exact ⟨congrArg GlobalId.mk hnext.symm, hregion, ho.addGlobal hσ (hx hc)⟩

theorem tracks_addField {x x' : Field} (hx : c → x' = x.rename σ) :
    Tracks σ root root' a a' hi c (fun i => Region root a hi .field i.index) σ.field (symbols (Store.addField x))
      (symbols (Store.addField x')) := by
  refine tracks_symbols (outlineMoves_below.addField _) fun hc s s' ho hhi => ?_
  have hcount : (Store.addField x s).2.count .field = s.count .field + 1 := by rw [Store.count_addField, if_pos rfl]
  obtain ⟨hnext, hregion⟩ := next_of_below hσ ho hcount hhi
  exact ⟨congrArg FieldId.mk hnext.symm, hregion, ho.addField hσ (hx hc)⟩

theorem tracks_addClass {x x' : Class} (hsuper : x.super = none) (hempty : x.members = .empty) (hx : c → x' = x.rename σ) :
    Tracks σ root root' a a' hi c (fun i => Region root a hi .cls i.index) σ.cls (symbols (Store.addClass x))
      (symbols (Store.addClass x')) := by
  refine tracks_symbols (outlineMoves_below.addClass _ hsuper) fun hc s s' ho hhi => ?_
  have hcount : (Store.addClass x s).2.count .cls = s.count .cls + 1 := by rw [Store.count_addClass, if_pos rfl]
  obtain ⟨hnext, hregion⟩ := next_of_below hσ ho hcount hhi
  exact ⟨congrArg ClassId.mk hnext.symm, hregion, ho.addClass hσ (hx hc) hempty⟩

theorem tracks_addInterface {x x' : Interface} (hbases : x.bases = []) (hx : c → x' = x.rename σ) :
    Tracks σ root root' a a' hi c (fun i => Region root a hi .iface i.index) σ.iface (symbols (Store.addInterface x))
      (symbols (Store.addInterface x')) := by
  refine tracks_symbols (outlineMoves_below.addInterface _ hbases) fun hc s s' ho hhi => ?_
  have hcount : (Store.addInterface x s).2.count .iface = s.count .iface + 1 := by rw [Store.count_addInterface, if_pos rfl]
  obtain ⟨hnext, hregion⟩ := next_of_below hσ ho hcount hhi
  exact ⟨congrArg InterfaceId.mk hnext.symm, hregion, ho.addInterface hσ (hx hc)⟩

theorem tracks_addEnum {x x' : Enum} (hx : c → x' = x.rename σ) :
    Tracks σ root root' a a' hi c (fun i => Region root a hi .enumeration i.index) σ.enumeration (symbols (Store.addEnum x))
      (symbols (Store.addEnum x')) := by
  refine tracks_symbols (outlineMoves_below.addEnum _) fun hc s s' ho hhi => ?_
  have hcount : (Store.addEnum x s).2.count .enumeration = s.count .enumeration + 1 := by rw [Store.count_addEnum, if_pos rfl]
  obtain ⟨hnext, hregion⟩ := next_of_below hσ ho hcount hhi
  exact ⟨congrArg EnumId.mk hnext.symm, hregion, ho.addEnum hσ (hx hc)⟩

/-! ## Declarations -/

theorem tracks_define {n : NamespaceId} {x : Sym}
    (h : c → Region root a hi .space n.index ∧ x.In (Region root a hi)) :
    Tracks σ root root' a a' hi c (fun _ => True) id (unique span (Store.define n x))
      (unique span (Store.define (σ.space n) (x.rename σ))) :=
  tracks_unique (moves_define outlineMoves_below.toScopeMoves) fun hc _ _ ho => ho.define hσ (h hc).1 (h hc).2

theorem tracks_defineMember {b : ClassId} {x : Sym} (h : c → Region root a hi .cls b.index ∧ x.In (Region root a hi)) :
    Tracks σ root root' a a' hi c (fun _ => True) id (unique span (Store.defineMember b x))
      (unique span (Store.defineMember (σ.cls b) (x.rename σ))) :=
  tracks_unique (moves_defineMember outlineMoves_below) fun hc _ _ ho => ho.defineMember hσ (h hc).1 (h hc).2

theorem tracks_defineSignature {i : InterfaceId} {f : FuncId}
    (h : c → Region root a hi .iface i.index ∧ Region root a hi .func f.index) :
    Tracks σ root root' a a' hi c (fun _ => True) id (unique span (Store.defineSignature i f))
      (unique span (Store.defineSignature (σ.iface i) (σ.func f))) :=
  tracks_unique (moves_defineSignature outlineMoves_below) fun hc _ _ ho => ho.defineSignature hσ (h hc).1 (h hc).2

/-- What an outline gives for a declaration, if anything. -/
abbrev OutlinesItem (σ : Renaming) (root root' : NamespaceId) (a a' hi : Store) (sc : Scope)
    (m m' : Analysis (Option Item)) : Prop :=
  Tracks σ root root' a a' hi (Region root a hi .space sc.own.index) (fun o => ∀ i ∈ o, i.In (Region root a hi))
    (Option.map (Item.rename σ)) m m'

omit hσ in
theorem tracks_none : Tracks σ root root' a a' hi c (fun o => ∀ i ∈ o, Item.In (Region root a hi) i)
    (Option.map (Item.rename σ)) (pure none) (pure none) :=
  tracks_pure (fun _ => rfl) fun _ _ hi => nomatch hi

omit hσ in
theorem tracks_some {i i' : Item} (h : c → i' = i.rename σ) (hi' : c → i.In (Region root a hi)) :
    Tracks σ root root' a a' hi c (fun o => ∀ i ∈ o, Item.In (Region root a hi) i) (Option.map (Item.rename σ))
      (pure (some i)) (pure (some i')) :=
  tracks_pure (fun hc => congrArg some (h hc)) fun hc _ hj => Option.mem_some.mp hj ▸ hi' hc

theorem tracks_outlineFunc (d : Tree.FuncDecl) :
    OutlinesItem σ root root' a a' hi sc (outlineFunc module sc d) (outlineFunc module (sc.rename σ) d) := by
  unfold outlineFunc
  apply tracks_guard
  refine tracks_store_bind fun s s' => (tracks_addFunc hσ ?_).bind fun f => ?_
  · rintro ⟨hn, ho⟩
    rw [Scope.rename_own, ho.copied.space hn]
    rfl
  · rw [Scope.rename_own]
    refine (tracks_define hσ (x := .func f) fun hc => ⟨hc.1.1, hc.2⟩).bind fun ok => ?_
    cases ok with
    | false => exact tracks_none
    | true => exact tracks_some (fun _ => rfl) fun hc => hc.1.2

/-- The methods that an outline gives. -/
abbrev OutlinesMethods (σ : Renaming) (root root' : NamespaceId) (a a' hi : Store) (c : Prop)
    (m m' : Analysis (List Method)) : Prop :=
  Tracks σ root root' a a' hi c (fun ms => ∀ m ∈ ms, Region root a hi .func m.symbol.index) (List.map (Method.rename σ)) m m'

omit hσ in
theorem tracks_methods {ok : Bool} {d : Tree.FuncDecl} {f : FuncId} {ms : List Method}
    (h : c → Region root a hi .func f.index ∧ ∀ m ∈ ms, Region root a hi .func m.symbol.index) :
    OutlinesMethods σ root root' a a' hi c (pure (if ok then { decl := d, symbol := f, frame := none } :: ms else ms))
      (pure (if ok then { decl := d, symbol := σ.func f, frame := none } :: ms.map (Method.rename σ)
        else ms.map (Method.rename σ))) := by
  cases ok with
  | false => exact tracks_pure (fun _ => rfl) fun hc => (h hc).2
  | true => exact tracks_pure (fun _ => rfl) fun hc => List.forall_mem_cons.mpr (h hc)

theorem tracks_outlineMethods {path path' : String} {b : ClassId} (h : c → Region root a hi .cls b.index ∧ path' = path)
    (ds : List Tree.FuncDecl) :
    OutlinesMethods σ root root' a a' hi c (outlineMethods module path b ds) (outlineMethods module path' (σ.cls b) ds) := by
  induction ds with
  | nil => exact tracks_pure (fun _ => rfl) fun _ _ hm => nomatch hm
  | cons d ds ih =>
    unfold outlineMethods
    apply tracks_guard
    refine (tracks_addFunc hσ fun hc => by rw [(h hc).2]; rfl).bind fun f => ?_
    refine (tracks_defineMember hσ (x := .func f) fun hc => ⟨(h hc.1).1, hc.2⟩).bind fun ok => ?_
    refine (ih.mono (fun hc => hc.1.1) fun _ h => h).bind fun ms => ?_
    exact tracks_methods fun hc => ⟨hc.1.1.2, hc.2⟩

theorem tracks_outlineSignatures {path path' : String} {i : InterfaceId}
    (h : c → Region root a hi .iface i.index ∧ path' = path) (ds : List Tree.FuncDecl) :
    OutlinesMethods σ root root' a a' hi c (outlineSignatures module path i ds)
      (outlineSignatures module path' (σ.iface i) ds) := by
  induction ds with
  | nil => exact tracks_pure (fun _ => rfl) fun _ _ hm => nomatch hm
  | cons d ds ih =>
    refine (tracks_addFunc hσ fun hc => by rw [(h hc).2]; rfl).bind fun f => ?_
    refine (tracks_defineSignature hσ fun hc => ⟨(h hc.1).1, hc.2⟩).bind fun ok => ?_
    refine (ih.mono (fun hc => hc.1.1) fun _ h => h).bind fun ms => ?_
    exact tracks_methods fun hc => ⟨hc.1.1.2, hc.2⟩

theorem tracks_outlineClass (d : Tree.ClassDecl) :
    OutlinesItem σ root root' a a' hi sc (outlineClass module sc d) (outlineClass module (sc.rename σ) d) := by
  refine tracks_store_bind fun s s' => ?_
  have hpath : Region root a hi .space sc.own.index ∧ Outlined σ root root' a a' hi s s' →
      (s'.space (sc.rename σ).own).path = (s.space sc.own).path := fun hc => by
    rw [Scope.rename_own, hc.2.copied.space hc.1]
    rfl
  refine (tracks_addClass hσ rfl rfl fun hc => by rw [hpath hc]; rfl).bind fun b => ?_
  rw [Scope.rename_own]
  refine (tracks_define hσ (x := .cls b) fun hc => ⟨hc.1.1, hc.2⟩).bind fun ok => ?_
  cases ok with
  | false => exact tracks_none
  | true =>
    refine Tracks.bind (P := fun _ => True) (f := id) (tracks_forM _ fun f _ => ?_) fun _ => ?_
    · refine (tracks_addField hσ fun _ => rfl).bind fun x => ?_
      refine (tracks_defineMember hσ (x := .field x) fun hc => ⟨hc.1.1.2, hc.2⟩).bind fun _ => ?_
      exact tracks_pure (fun _ => rfl) fun _ => trivial
    · refine (tracks_outlineMethods hσ (fun hc => ⟨hc.1.1.2, ?_⟩) d.methods).bind fun ms => ?_
      · rw [Scope.rename_own] at hpath
        exact congrArg (qualified · d.name) (hpath hc.1.1.1)
      · exact tracks_some (fun _ => rfl) fun hc => ⟨hc.1.1.1.2, hc.2⟩

theorem tracks_outlineInterface (d : Tree.InterfaceDecl) :
    OutlinesItem σ root root' a a' hi sc (outlineInterface module sc d) (outlineInterface module (sc.rename σ) d) := by
  refine tracks_store_bind fun s s' => ?_
  have hpath : Region root a hi .space sc.own.index ∧ Outlined σ root root' a a' hi s s' →
      (s'.space (sc.rename σ).own).path = (s.space sc.own).path := fun hc => by
    rw [Scope.rename_own, hc.2.copied.space hc.1]
    rfl
  refine (tracks_addInterface hσ rfl fun hc => by rw [hpath hc]; rfl).bind fun i => ?_
  rw [Scope.rename_own]
  refine (tracks_define hσ (x := .iface i) fun hc => ⟨hc.1.1, hc.2⟩).bind fun ok => ?_
  cases ok with
  | false => exact tracks_none
  | true =>
    refine (tracks_outlineSignatures hσ (fun hc => ⟨hc.1.2, ?_⟩) d.methods).bind fun ms => ?_
    · rw [Scope.rename_own] at hpath
      exact congrArg (qualified · d.name) (hpath hc.1.1)
    · exact tracks_some (fun _ => rfl) fun hc => ⟨hc.1.1.2, hc.2⟩

theorem tracks_outlineEnum (d : Tree.EnumDecl) :
    Tracks σ root root' a a' hi (Region root a hi .space sc.own.index) (fun _ => True) id (outlineEnum module sc d)
      (outlineEnum module (sc.rename σ) d) := by
  refine tracks_store_bind fun s s' => (tracks_addEnum hσ ?_).bind fun e => ?_
  · rintro ⟨hn, ho⟩
    rw [Scope.rename_own, ho.copied.space hn]
    rfl
  · rw [Scope.rename_own]
    refine (tracks_define hσ (x := .enumeration e) fun hc => ⟨hc.1.1, hc.2⟩).bind fun ok => ?_
    cases ok with
    | false => exact tracks_pure (fun _ => rfl) fun _ => trivial
    | true =>
      refine tracks_forM _ fun i _ => ?_
      refine (tracks_symbols (P := fun _ => True) (f := renameDefined σ (EnumItem.rename σ))
        (moves_addItem outlineMoves_below.toScopeMoves) fun hc _ _ ho _ => ?_).bind fun r => ?_
      · obtain ⟨hres, ho'⟩ := ho.addItem hσ hc.1.2
        exact ⟨hres, trivial, ho'⟩
      · cases r with
        | ok _ => exact tracks_pure (fun _ => rfl) fun _ => trivial
        | error e => exact tracks_report rfl

theorem tracks_outlineGlobal (d : Tree.VarDecl) :
    OutlinesItem σ root root' a a' hi sc (outlineGlobal sc d) (outlineGlobal (sc.rename σ) d) := by
  unfold outlineGlobal
  split
  · exact (tracks_report rfl).bind fun _ => tracks_none
  · refine tracks_store_bind fun s s' => (tracks_addGlobal hσ ?_).bind fun g => ?_
    · rintro ⟨hn, ho⟩
      rw [Scope.rename_own, ho.copied.space hn]
      rfl
    · rw [Scope.rename_own]
      refine (tracks_define hσ (x := .global g) fun hc => ⟨hc.1.1, hc.2⟩).bind fun ok => ?_
      cases ok with
      | false => exact tracks_none
      | true => exact tracks_some (fun _ => rfl) fun hc => hc.1.2
  · exact (tracks_report rfl).bind fun _ => tracks_none

theorem tracks_childSpace (names : List String) {n : NamespaceId} (h : c → Region root a hi .space n.index) :
    Tracks σ root root' a a' hi c (fun o => ∀ m ∈ o, Region root a hi .space m.index) (Option.map σ.space)
      (childSpace span n names) (childSpace span (σ.space n) names) := by
  induction names generalizing n c with
  | nil => exact tracks_pure (fun _ => rfl) fun hc m hm => Option.mem_some.mp hm ▸ h hc
  | cons name names ih =>
    refine (tracks_symbols (P := fun r => ∀ m, r = .ok m → Region root a hi .space m.index) (f := renameDefined σ σ.space)
      (moves_child outlineMoves_below.toScopeMoves) fun hc _ _ ho hbelow => ?_).bind fun r => ?_
    · exact ho.child hσ (h hc) hbelow
    · cases r with
      | ok m => exact ih fun hc => hc.2 m rfl
      | error e => exact (tracks_report rfl).bind fun _ => tracks_pure (fun _ => rfl) fun _ m hm => nomatch hm

end Symbols

/-! ## Files -/

section Files

variable {σ : Renaming} {root root' : NamespaceId} {a a' hi : Store} {module : String}

/-- The declarations that an outline gives. -/
abbrev OutlinesItems (σ : Renaming) (root root' : NamespaceId) (a a' hi : Store) (c : Prop)
    (m m' : Analysis (List Item)) : Prop :=
  Tracks σ root root' a a' hi c (fun is => ∀ i ∈ is, i.In (Region root a hi)) (List.map (Item.rename σ)) m m'

theorem OutlinesItem.toList {sc : Scope} {m m' : Analysis (Option Item)} (h : OutlinesItem σ root root' a a' hi sc m m') :
    OutlinesItems σ root root' a a' hi (Region root a hi .space sc.own.index) (do return (← m).toList)
      (do return (← m').toList) :=
  Tracks.bind h fun o => tracks_pure (fun _ => by cases o <;> rfl) fun hc i hi => hc.2 i (Option.mem_toList.mp hi)

mutual

theorem tracks_outlineDecl (hσ : σ.Fits root root' a a' hi) {c : Prop} {sc : Scope}
    (h : c → Region root a hi .space sc.own.index) :
    (d : Tree.Decl) → OutlinesItems σ root root' a a' hi c (outlineDecl module sc d) (outlineDecl module (sc.rename σ) d)
  | .space span path decls => by
    unfold outlineDecl
    rw [Scope.rename_own]
    refine (tracks_childSpace hσ path h).bind fun o => ?_
    cases o with
    | none => exact tracks_pure (fun _ => rfl) fun _ _ hi => nomatch hi
    | some n =>
      rw [Option.map_some]
      simp only [← Scope.rename_nested]
      exact tracks_outlineDecls hσ (fun hc => hc.2 n rfl) decls
  | .func d => by
    unfold outlineDecl
    exact (OutlinesItem.toList (tracks_outlineFunc hσ d)).mono h fun _ h => h
  | .cls d => by
    unfold outlineDecl
    exact (OutlinesItem.toList (tracks_outlineClass hσ d)).mono h fun _ h => h
  | .iface d => by
    unfold outlineDecl
    exact (OutlinesItem.toList (tracks_outlineInterface hσ d)).mono h fun _ h => h
  | .enumeration d => by
    unfold outlineDecl
    refine ((tracks_outlineEnum hσ d).mono h fun _ h => h).bind fun _ => ?_
    exact tracks_pure (fun _ => rfl) fun _ _ hi => nomatch hi
  | .var d => by
    unfold outlineDecl
    exact (OutlinesItem.toList (tracks_outlineGlobal hσ d)).mono h fun _ h => h

/-- The declarations of a file are outlined under a renaming as they are without. -/
theorem tracks_outlineDecls (hσ : σ.Fits root root' a a' hi) {c : Prop} {sc : Scope}
    (h : c → Region root a hi .space sc.own.index) :
    (ds : List Tree.Decl) → OutlinesItems σ root root' a a' hi c (outlineDecls module sc ds)
    (outlineDecls module (sc.rename σ) ds)
  | [] => tracks_pure (fun _ => rfl) fun _ _ hi => nomatch hi
  | d :: ds => by
    unfold outlineDecls
    refine (tracks_outlineDecl hσ h d).bind fun is => ?_
    refine ((tracks_outlineDecls hσ h ds).mono And.left fun _ h => h).bind fun js => ?_
    refine tracks_pure (fun _ => List.map_append.symm) fun hc i hi => ?_
    exact (List.mem_append.mp hi).elim (hc.1.2 i) (hc.2 i)

end

/-! ### Global variables -/

theorem addGlobal_apply (m : Module) (g : GlobalId) (s : Store) :
    m.addGlobal g s = ({ m with globals := m.globals ++ [some g] },
      (Store.updateGlobal g ({ · with module := m.name, index := m.globals.length }) s).2) := rfl

/-- The global variables of a file get the same indexes. -/
theorem indexGlobals_rename {s s' : Store} (h : Outlined σ root root' a a' hi s s') (hσ : σ.Fits root root' a a' hi)
    {items : List Item} (hitems : ∀ i ∈ items, i.In (Region root a hi)) (m : Module) :
    (indexGlobals (m.rename σ) (items.map (Item.rename σ)) s').1 = (indexGlobals m items s).1.rename σ ∧
      Outlined σ root root' a a' hi (indexGlobals m items s).2
        (indexGlobals (m.rename σ) (items.map (Item.rename σ)) s').2 := by
  induction items generalizing m s s' with
  | nil => exact ⟨rfl, h⟩
  | cons i items ih =>
    have hi' := hitems i List.mem_cons_self
    replace hitems := fun j hj => hitems j (List.mem_cons_of_mem _ hj)
    cases i with
    | global sc d type g init =>
      have hlength : (m.rename σ).globals.length = m.globals.length := List.length_map _
      have hadd : Outlined σ root root' a a' hi (m.addGlobal g s).2 ((m.rename σ).addGlobal (σ.global g) s').2 :=
        h.updateGlobal hσ hi' fun x => by rw [hlength]; rfl
      have hm : ((m.rename σ).addGlobal (σ.global g) s').1 = (m.addGlobal g s).1.rename σ := by
        simp [addGlobal_apply, Module.rename]
      have hrest := ih hadd hitems (m.addGlobal g s).1
      rw [← hm] at hrest
      exact hrest
    | _ => exact ih h hitems m

end Files

/-! ## Units -/

section Units

variable {σ : Renaming} {root' : NamespaceId} {a a' : Store} {u : FileUnit} {tree : Tree.File} {items : List Item}
  {imports : List Imported}

/-- What the outline of a file does. -/
theorem outline_fresh_apply {s : Store} (hsrc : u.source = .fresh tree items imports) :
    outline u s =
      let r := attempt (.file u.module.space) [] (outlineDecls u.module.name (.file u.module.space) tree.decls) u s
      let g := indexGlobals u.module r.1.1 r.2
      (((), { r.1.2 with module := g.1, source := .fresh tree r.1.1 imports }), g.2) := by
  obtain ⟨file, module, diags, broken, source⟩ := u
  obtain rfl : source = .fresh tree items imports := hsrc
  rfl

theorem below_indexGlobals {m : Module} {items : List Item} {s : Store} : s.Below (indexGlobals m items s).2 :=
  moves_indexGlobals outlineMoves_below.toScopeMoves s

/-- An analysis of a unit that declares symbols. -/
theorem Tracks.attempt {α β : Type} {root : NamespaceId} {hi s s' : Store} {P : α → Prop} {f : α → β} {m : Analysis α}
    {m' : Analysis β} {sc : Scope} {fallback : α} (hm : Tracks σ root root' a a' hi True P f m m') (hfallback : P fallback)
    (ho : Outlined σ root root' a a' hi s s') (hbelow : (Analysis.attempt sc fallback m u s).2.Below hi) :
    ∃ s₁', Analysis.attempt (sc.rename σ) (f fallback) m' (u.rename σ) s' =
        ((f (Analysis.attempt sc fallback m u s).1.1, (Analysis.attempt sc fallback m u s).1.2.rename σ), s₁') ∧
      P (Analysis.attempt sc fallback m u s).1.1 ∧
      Outlined σ root root' a a' hi (Analysis.attempt sc fallback m u s).2 s₁' := by
  cases hbroken : u.broken with
  | true =>
    have hbroken' : (u.rename σ).broken = true := hbroken
    rw [attempt_broken hbroken, attempt_broken hbroken']
    exact ⟨s', rfl, hfallback, ho⟩
  | false =>
    have hbroken' : (u.rename σ).broken = false := hbroken
    rw [attempt_eq hbroken] at hbelow ⊢
    rw [attempt_eq hbroken']
    rcases hrun : m ⟨u.file, sc⟩ ⟨s, []⟩ with ⟨⟨r, ⟨s₁, bs⟩⟩, ds⟩
    rw [hrun] at hbelow
    have hbelow' : s₁.Below hi := by
      cases r with
      | ok x => exact hbelow
      | error e => exact hbelow
    obtain ⟨rfl, hP, s₁', hrun', ho'⟩ := hm.carries trivial ho hrun hbelow'
    have hrun'' : m' ⟨(u.rename σ).file, sc.rename σ⟩ ⟨s', []⟩ = ⟨(r.map f, ⟨s₁', []⟩), ds⟩ := hrun'
    rw [hrun'']
    cases r with
    | ok x => exact ⟨s₁', rfl, hP x rfl, ho'⟩
    | error e => exact ⟨s₁', rfl, hfallback, ho'⟩

/-- A file is outlined after other files as it is after others, with other identities for its symbols. -/
theorem outline_rename (hsrc : u.source = .fresh tree items imports)
    (hroot : a'.space root' = (a.space u.module.space).rename σ) (hempty : (a.space u.module.space).members = .empty)
    (hσ : σ.Fits u.module.space root' a a' (outline u a).2) :
    (outline (u.rename σ) a').1.2 = (outline u a).1.2.rename σ ∧
      (∀ i ∈ (outline u a).1.2.items, i.In (Region u.module.space a (outline u a).2)) ∧
      Outlined σ u.module.space root' a a' (outline u a).2 (outline u a).2 (outline (u.rename σ) a').2 := by
  have hsrc' : (u.rename σ).source = .fresh tree (items.map (Item.rename σ)) (imports.map (Imported.rename σ)) := by
    rw [FileUnit.rename, hsrc]
    rfl
  have hstart := Outlined.start hσ hroot hempty
  have htracks : OutlinesItems σ u.module.space root' a a' (outline u a).2 True
      (outlineDecls u.module.name (.file u.module.space) tree.decls)
      (outlineDecls u.module.name (Scope.rename σ (.file u.module.space)) tree.decls) :=
    tracks_outlineDecls hσ (fun _ => .inr ⟨rfl, rfl⟩) tree.decls
  rw [outline_fresh_apply hsrc] at hσ hstart htracks ⊢
  rw [outline_fresh_apply hsrc']
  generalize hr : attempt (.file u.module.space) [] (outlineDecls u.module.name (.file u.module.space) tree.decls) u a = r
    at hσ hstart htracks ⊢
  obtain ⟨s₁', hattempt, hin, ho⟩ := htracks.attempt (fun i hi => absurd hi List.not_mem_nil) hstart
    (by rw [hr]; exact below_indexGlobals)
  rw [hr] at hattempt hin ho
  obtain ⟨hm, ho'⟩ := indexGlobals_rename ho hσ hin u.module
  have hattempt' : attempt (.file (u.rename σ).module.space) []
      (outlineDecls (u.rename σ).module.name (.file (u.rename σ).module.space) tree.decls) (u.rename σ) a' =
        ((r.1.1.map (Item.rename σ), r.1.2.rename σ), s₁') := hattempt
  rw [hattempt']
  refine ⟨?_, hin, ho'⟩
  change ({ r.1.2.rename σ with
    module := (indexGlobals (u.module.rename σ) (r.1.1.map (Item.rename σ)) s₁').1, source := _ } : FileUnit) = _
  rw [hm]
  rfl

end Units

end Weft.Analysis
