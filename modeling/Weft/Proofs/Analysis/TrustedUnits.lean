import Weft.Proofs.Analysis.TrustedStmt
import Weft.Proofs.Analysis.Units
import Weft.Proofs.Symbol.Changes
import Weft.Proofs.Tree.Parsed

/-!
# Accepted units

The typed tree of a unit that is analyzed without problems is one that the compiler can rely on: its functions and
methods have frames, and everything in them was accepted.
-/

namespace Weft.Analysis

/-- A declaration that awaits the analysis of its bodies. -/
def Item.Bodied : Item → Prop
  | .func _ m => m.decl.body.isSome = true
  | .cls _ _ _ ms => ∀ m ∈ ms, m.decl.body.isSome = true
  | .iface .. => True
  | .global _ _ _ _ init => init = none

section Outline

variable {pl : Place} {st st' : State}

theorem accepts_symbols {α : Type} {m : Symbols α} {a : α} :
    Accepts (symbols m) pl st a st' ↔ a = (m st.store).1 ∧ st' = { st with store := (m st.store).2 } := by
  simp only [Accepts, symbols, modifyGet, MonadStateOf.modifyGet, monadLift, MonadLift.monadLift, ExceptT.lift,
    ExceptT.mk, StateT.modifyGet, Functor.map, StateT.map, pure, bind, Reported.mk.injEq, Prod.mk.injEq]
  grind

theorem bodied_outlineFunc {module : String} {sc : Scope} {d : Tree.FuncDecl} {r : Option Item}
    (hd : d.body.isSome = true) (h : Accepts (outlineFunc module sc d) pl st r st') : ∀ i ∈ r.toList, i.Bodied := by
  simp only [outlineFunc, accepts_guard, accepts_store_bind] at h
  obtain ⟨f, st₁, -, h⟩ := accepts_bind.mp h.2
  obtain ⟨ok, st₂, -, h⟩ := accepts_bind.mp h
  split at h
  · obtain ⟨rfl, rfl⟩ := accepts_pure.mp h
    simpa [Item.Bodied] using hd
  · obtain ⟨rfl, rfl⟩ := accepts_pure.mp h
    simp

theorem bodied_outlineMethods {module path : String} {c : ClassId} {ds : List Tree.FuncDecl} {r : List Method}
    (hd : ∀ d ∈ ds, d.body.isSome = true) (h : Accepts (outlineMethods module path c ds) pl st r st') :
    ∀ m ∈ r, m.decl.body.isSome = true := by
  induction ds generalizing st r st' with
  | nil =>
    obtain ⟨rfl, rfl⟩ := accepts_pure.mp h
    simp
  | cons d ds ih =>
    simp only [outlineMethods, accepts_guard] at h
    obtain ⟨f, st₁, -, h⟩ := accepts_bind.mp h.2
    obtain ⟨ok, st₂, -, h⟩ := accepts_bind.mp h
    obtain ⟨more, st₃, hmore, h⟩ := accepts_bind.mp h
    have hms := ih (fun e he => hd e (List.mem_cons_of_mem _ he)) hmore
    obtain ⟨rfl, rfl⟩ := accepts_pure.mp h
    split
    · intro m hm
      rcases List.mem_cons.mp hm with rfl | hm
      · exact hd d List.mem_cons_self
      · exact hms m hm
    · exact hms

theorem bodied_outlineClass {module : String} {sc : Scope} {d : Tree.ClassDecl} {r : Option Item}
    (hd : ∀ m ∈ d.methods, m.body.isSome = true) (h : Accepts (outlineClass module sc d) pl st r st') :
    ∀ i ∈ r.toList, i.Bodied := by
  simp only [outlineClass, accepts_store_bind] at h
  obtain ⟨c, st₁, -, h⟩ := accepts_bind.mp h
  obtain ⟨ok, st₂, -, h⟩ := accepts_bind.mp h
  split at h
  · obtain ⟨_, st₃, -, h⟩ := accepts_bind.mp h
    obtain ⟨ms, st₄, hms, h⟩ := accepts_bind.mp h
    obtain ⟨rfl, rfl⟩ := accepts_pure.mp h
    simpa [Item.Bodied] using bodied_outlineMethods hd hms
  · obtain ⟨rfl, rfl⟩ := accepts_pure.mp h
    simp

theorem bodied_outlineInterface {module : String} {sc : Scope} {d : Tree.InterfaceDecl} {r : Option Item}
    (h : Accepts (outlineInterface module sc d) pl st r st') : ∀ i ∈ r.toList, i.Bodied := by
  simp only [outlineInterface, accepts_store_bind] at h
  obtain ⟨c, st₁, -, h⟩ := accepts_bind.mp h
  obtain ⟨ok, st₂, -, h⟩ := accepts_bind.mp h
  split at h
  · obtain ⟨ms, st₃, -, h⟩ := accepts_bind.mp h
    obtain ⟨rfl, rfl⟩ := accepts_pure.mp h
    simp [Item.Bodied]
  · obtain ⟨rfl, rfl⟩ := accepts_pure.mp h
    simp

theorem bodied_outlineGlobal {sc : Scope} {d : Tree.VarDecl} {r : Option Item}
    (h : Accepts (outlineGlobal sc d) pl st r st') : ∀ i ∈ r.toList, i.Bodied := by
  unfold outlineGlobal at h
  split at h
  · simp at h
  · simp only [accepts_store_bind] at h
    obtain ⟨c, st₁, -, h⟩ := accepts_bind.mp h
    obtain ⟨ok, st₂, -, h⟩ := accepts_bind.mp h
    split at h
    · obtain ⟨rfl, rfl⟩ := accepts_pure.mp h
      simp [Item.Bodied]
    · obtain ⟨rfl, rfl⟩ := accepts_pure.mp h
      simp
  · simp at h

mutual

theorem bodied_outlineDecl {module : String} {sc : Scope} {st st' : State} : (d : Tree.Decl) → {r : List Item} →
    d.Bodied → Accepts (outlineDecl module sc d) pl st r st' → ∀ i ∈ r, i.Bodied
  | .space span path decls, r, hd, h => by
    rw [outlineDecl] at h
    obtain ⟨n, st₁, -, h⟩ := accepts_bind.mp h
    split at h
    · obtain ⟨rfl, rfl⟩ := accepts_pure.mp h
      simp
    · exact bodied_outlineDecls decls (by rwa [Tree.Decl.Bodied] at hd) h
  | .func d, r, hd, h => by
    rw [outlineDecl] at h
    obtain ⟨o, st₁, ho, h⟩ := accepts_bind.mp h
    obtain ⟨rfl, rfl⟩ := accepts_pure.mp h
    exact bodied_outlineFunc (by rwa [Tree.Decl.Bodied] at hd) ho
  | .cls d, r, hd, h => by
    rw [outlineDecl] at h
    obtain ⟨o, st₁, ho, h⟩ := accepts_bind.mp h
    obtain ⟨rfl, rfl⟩ := accepts_pure.mp h
    exact bodied_outlineClass (by rwa [Tree.Decl.Bodied] at hd) ho
  | .iface d, r, hd, h => by
    rw [outlineDecl] at h
    obtain ⟨o, st₁, ho, h⟩ := accepts_bind.mp h
    obtain ⟨rfl, rfl⟩ := accepts_pure.mp h
    exact bodied_outlineInterface ho
  | .enumeration d, r, hd, h => by
    rw [outlineDecl] at h
    obtain ⟨o, st₁, -, h⟩ := accepts_bind.mp h
    obtain ⟨rfl, rfl⟩ := accepts_pure.mp h
    simp
  | .var d, r, hd, h => by
    rw [outlineDecl] at h
    obtain ⟨o, st₁, ho, h⟩ := accepts_bind.mp h
    obtain ⟨rfl, rfl⟩ := accepts_pure.mp h
    exact bodied_outlineGlobal ho

/-- The declarations of a tree with bodies await the analysis of their bodies. -/
theorem bodied_outlineDecls {module : String} {sc : Scope} {st st' : State} : (ds : List Tree.Decl) → {r : List Item} →
    Tree.bodiedDecls ds → Accepts (outlineDecls module sc ds) pl st r st' → ∀ i ∈ r, i.Bodied
  | [], r, hd, h => by
    rw [outlineDecls] at h
    obtain ⟨rfl, rfl⟩ := accepts_pure.mp h
    simp
  | d :: ds, r, hd, h => by
    rw [outlineDecls] at h
    rw [Tree.bodiedDecls] at hd
    obtain ⟨items, st₁, hitems, h⟩ := accepts_bind.mp h
    obtain ⟨more, st₂, hmore, h⟩ := accepts_bind.mp h
    obtain ⟨rfl, rfl⟩ := accepts_pure.mp h
    intro i hi
    rcases List.mem_append.mp hi with hi | hi
    · exact bodied_outlineDecl d hd.1 hitems i hi
    · exact bodied_outlineDecls ds hd.2 hmore i hi

end

end Outline

/-! ## Units -/

/-- A unit whose declarations have bodies, in its tree and in what awaits analysis. -/
def FileUnit.Bodied (u : FileUnit) : Prop :=
  match u.source with
  | .fresh tree items _ => Tree.bodiedDecls tree.decls ∧ ∀ i ∈ items, i.Bodied
  | .cached .. => True

section Phases

variable {u u' : FileUnit} {s s' : Store} {p : Project} {x : PUnit}

/-- The phases before the bodies are analyzed keep what awaits analysis. -/
theorem bodied_runPhase {ph : Phase} (hph : ph ≠ .bodies) (hu : u.Bodied) (h : Goes (runPhase p ph) u s x u' s') :
    u'.Bodied := by
  cases hsrc : u.source with
  | fresh tree items imports =>
    rw [FileUnit.Bodied, hsrc] at hu
    cases ph with
    | outline =>
      obtain ⟨items', st, hitems, -, rfl⟩ := goes_outline_fresh hsrc h
      exact ⟨hu.1, bodied_outlineDecls _ hu.1 hitems⟩
    | linkImports =>
      obtain ⟨imports', st, -, -, rfl⟩ := goes_linkImports_fresh hsrc h
      exact hu
    | addImports =>
      obtain ⟨-, rfl⟩ := goes_addImports_fresh hsrc h
      simpa only [FileUnit.Bodied, hsrc] using hu
    | types =>
      obtain ⟨rfl, -⟩ := goes_resolveDeclared_fresh hsrc h
      simpa only [FileUnit.Bodied, hsrc] using hu
    | bases =>
      obtain ⟨rfl, -⟩ := goes_bases_fresh hsrc h
      simpa only [FileUnit.Bodied, hsrc] using hu
    | bodies => exact absurd rfl hph
    | finalize =>
      obtain ⟨-, -, rfl, -⟩ := goes_pure.mp h
      simpa only [FileUnit.Bodied, hsrc] using hu
  | cached record imports pending =>
    obtain ⟨pending', hsrc'⟩ := goes_runPhase_cached hsrc h
    simp only [FileUnit.Bodied, hsrc']

end Phases

/-! ## Bodies -/

section Bodies

variable {pl : Place} {st st' : State}

theorem accepts_checkChain {yielded : Bool} {ns : List Typed.Node} {u : PUnit}
    (h : Accepts (checkChain yielded ns) pl st u st') : st' = st := by
  induction ns generalizing st with
  | nil => exact (accepts_pure.mp h).2
  | cons n rest ih =>
    rw [checkChain] at h
    split at h
    · split at h
      · simp only [accepts_guard] at h
        exact ih h.2.2
      · exact ih h
    · exact ih h

theorem accepts_checkYields {ns : List Typed.Node} {u : PUnit} (h : Accepts (checkYields ns) pl st u st') :
    st' = st := by
  unfold checkYields at h
  refine accepts_forM (R := fun st st' => st' = st) (fun _ => rfl) (fun h h' => h'.trans h) (fun n st st' h => ?_) h
  split at h
  · exact accepts_checkChain h
  · exact (accepts_pure.mp h).2

/-- The body of a function or of a method of a class, before anything is declared in it. -/
def openBody (sig : Signature) : Option ClassId → Body
  | some c => .method sig c
  | none => .empty sig

/-- A function with a body is accepted if its body is, by itself, and returns what the function does. -/
theorem accepts_analyzeMethod {s : Store} {cls : Option ClassId} {m r : Method} (hm : m.decl.body.isSome = true)
    (h : Accepts (analyzeMethod cls m) pl ⟨s, []⟩ r st') :
    ∃ block params ss b, Accepts (inBody (openBody ((s.func m.symbol).sig.getD default) cls)
        (frame (visit (max (Tree.paramsHeight m.decl.params) block.height)) m.decl.params block)) pl ⟨s, []⟩
        ((params, ss), b) st' ∧
      Accepts (checkBody m.decl.span (s.func m.symbol).fullName b block) pl st' () st' ∧
      r = { m with frame := some ⟨b.slots, params, block.span.start.line, ss⟩ } := by
  obtain ⟨block, hblock⟩ := Option.isSome_iff_exists.mp hm
  rw [analyzeMethod, hblock] at h
  simp only [accepts_store_bind] at h
  obtain ⟨⟨⟨params, ss⟩, b⟩, st₁, h₁, h₂⟩ := accepts_bind.mp h
  obtain ⟨_, st₂, h₃, h₄⟩ := accepts_bind.mp h₂
  obtain ⟨_, st₃, h₅, h₆⟩ := accepts_bind.mp h₄
  obtain ⟨rfl, -⟩ := accepts_checkBody h₃
  obtain rfl := accepts_checkYields h₅
  obtain ⟨rfl, rfl⟩ := accepts_pure.mp h₆
  refine ⟨block, params, ss, b, ?_, h₃, rfl⟩
  cases cls <;> exact h₁

/-- The initial value of a global variable is accepted if it is as an expression, in a body of its own. -/
theorem accepts_analyzeInit {s : Store} {g : GlobalId} {x : Tree.Expr} {r : Option Typed.Expr}
    (h : Accepts (analyzeInit g x) pl ⟨s, []⟩ r st') : ∃ y t b, r = some y ∧
      Accepts (inBody (.empty default) ((visit x.height).expr x (s.global g).type)) pl ⟨s, []⟩ ((y, t), b) st' := by
  simp only [analyzeInit, accepts_store_bind] at h
  obtain ⟨⟨⟨y, t⟩, b⟩, st₁, h₁, h₂⟩ := accepts_bind.mp h
  simp only [accepts_checkAssignable_bind] at h₂
  obtain ⟨_, st₂, h₃, h₄⟩ := accepts_bind.mp h₂.2
  obtain rfl := accepts_checkYields h₃
  obtain ⟨rfl, rfl⟩ := accepts_pure.mp h₄
  exact ⟨y, t, b, rfl, h₁⟩

/-- A body that captures nothing, in no loop, whose variables have slots. -/
structure Body.Starts (b : Body) : Prop where
  fits : b.Fits
  upvals : b.upvals = []
  around : b.around = []

theorem starts_openBody (sig : Signature) (cls : Option ClassId) : (openBody sig cls).Starts := by
  cases cls with
  | none => exact ⟨Body.fits_empty sig, rfl, rfl⟩
  | some c =>
    have h := (Body.fits_empty sig).add
      (v := { name := "this", type := some (.cls c), slot := 0, ref := false }) rfl
    exact ⟨h.1, rfl, rfl⟩

/-- A function with a body gets a frame that the compiler can rely on. -/
theorem trusted_analyzeMethod {s : Store} {cls : Option ClassId} {m r : Method} (hm : m.decl.body.isSome = true)
    (h : Accepts (analyzeMethod cls m) pl ⟨s, []⟩ r st') :
    st'.store = s ∧ ∃ f, r.frame = some f ∧ f.Trusted s.OfInterface := by
  obtain ⟨block, params, ss, b, hbody, hcheck, rfl⟩ := accepts_analyzeMethod hm h
  have hstart := starts_openBody ((s.func m.symbol).sig.getD default) cls
  obtain ⟨hstore, -, -, htrusted⟩ :=
    trusted_inBody (trusted_visit _) (show Frames (State.bodies ⟨s, []⟩) from True.intro) hstart.fits hstart.upvals
      hstart.around hbody
  exact ⟨hstore, _, rfl, htrusted (accepts_checkBody hcheck).2 _⟩

/-- The initial value of a global variable has no variables to capture, so it fits any frame. -/
theorem trusted_analyzeInit {s : Store} {g : GlobalId} {x : Tree.Expr} {r : Option Typed.Expr}
    (h : Accepts (analyzeInit g x) pl ⟨s, []⟩ r st') :
    st'.store = s ∧ ∀ y ∈ r, y.Trusted s.OfInterface Typed.maxFrame := by
  obtain ⟨y, t, b, rfl, hbody⟩ := accepts_analyzeInit h
  obtain ⟨st₃, h₅, -, rfl⟩ := accepts_inBody hbody
  have hframed : State.Framed ⟨s, [.empty default]⟩ :=
    ⟨⟨Body.fits_empty default, by simp [Body.empty], True.intro⟩, by simp⟩
  obtain ⟨hcaptured, hcovers⟩ := (trusted_visit _).expr hframed h₅
  refine ⟨hcaptured.store, ?_⟩
  rintro y' hy'
  obtain rfl : y = y' := by simpa using hy'
  refine hcovers _ ?_
  have hsame := hcaptured.bodies
  cases hbodies : st₃.bodies with
  | nil => simp [slotsOf]
  | cons b bs =>
    rw [hbodies] at hsame
    obtain rfl := hsame.2.1 rfl
    simp [slotsOf, Body.empty]

theorem accepts_checkOverride {base : ClassId} {m : Method} {u : PUnit}
    (h : Accepts (checkOverride base m) pl st u st') : st' = st := by
  simp only [checkOverride, accepts_store_bind] at h
  split at h
  · split at h
    · simp at h
    · split at h
      · simp at h
      · exact (accepts_guard_last.mp h).2 |> accepts_pure.mp |>.2
  · simp at h
  · exact (accepts_guard_last.mp h).2 |> accepts_pure.mp |>.2

/-- Checking a class lays classes out and changes nothing else. -/
theorem accepts_checkClass {d : Tree.ClassDecl} {c : ClassId} {methods : List Method} {u : PUnit}
    (h : Accepts (checkClass d c methods) pl st u st') : st.store.Relaid st'.store := by
  have hsame : ∀ {ι : Type} {f : ι → Analysis PUnit} {is : List ι} {st st' : State},
      (∀ i {st st'}, Accepts (f i) pl st () st' → st' = st) → Accepts (is.forM f) pl st () st' → st' = st :=
    fun hf h => accepts_forM (R := fun st st' => st' = st) (fun _ => rfl) (fun h h' => h'.trans h) hf h
  have hlast : ∀ {st₁}, Accepts (do
      symbols (Store.layout c)
      ((← store).conformance c).forM fun e => report d.span (.conformance e)) pl st₁ u st' →
      st₁.store.Relaid st'.store := by
    intro st₁ h
    obtain ⟨_, st₂, h₁, h₂⟩ := accepts_bind.mp h
    obtain ⟨-, rfl⟩ := accepts_symbols.mp h₁
    rw [accepts_store_bind] at h₂
    obtain rfl := hsame (fun e {st st'} h => absurd h accepts_report) h₂
    exact Store.relays_layout st₁.store
  simp only [checkClass, accepts_store_bind] at h
  split at h
  · obtain ⟨_, st₁, h₁, h₂⟩ := accepts_bind.mp h
    obtain ⟨_, st₂, h₃, h₄⟩ := accepts_bind.mp h₂
    obtain rfl := hsame (fun m {st st'} h => accepts_checkOverride h) h₁
    obtain rfl := hsame (fun f {st st'} h => by
      split at h
      · simp at h
      · exact (accepts_pure.mp h).2) h₃
    exact hlast h₄
  · obtain ⟨_, st₁, h₁, h₂⟩ := accepts_bind.mp h
    obtain rfl := hsame (fun m {st st'} h => by
      exact (accepts_pure.mp (accepts_guard_last.mp h).2).2) h₁
    exact hlast h₂

end Bodies

/-! ## Declarations -/

/-- What the compiler relies on in a declaration that was analyzed. -/
def Item.Trusted (iface : FuncId → Prop) (i : Item) : Prop := ∀ d ∈ FileUnit.typedItem i, d.Trusted iface

theorem ofInterface_relaid {s s' : Store} (h : s.Relaid s') : s'.OfInterface = s.OfInterface := by
  funext f
  obtain ⟨i, hf⟩ := h.func f
  simp only [Store.OfInterface, hf]

section Declarations

variable {u u' : FileUnit} {s s' : Store} {p : Project} {x : PUnit}

theorem trusted_methods {cls : Option ClassId} {ms rs : List Method} (hms : ∀ m ∈ ms, m.decl.body.isSome = true)
    (h : InTurn (MethodRun cls) ms s rs s') : s' = s ∧ ∀ m ∈ rs, ∃ f, m.frame = some f ∧ f.Trusted s.OfInterface := by
  induction h with
  | nil => exact ⟨rfl, by simp⟩
  | cons head tail ih =>
    obtain ⟨pl, st, hm, rfl⟩ := head
    obtain ⟨hbody, hms⟩ := List.forall_mem_cons.mp hms
    obtain ⟨hstore, htrusted⟩ := trusted_analyzeMethod hbody hm
    obtain ⟨rfl, hrest⟩ := ih hms
    rw [hstore] at hrest
    exact ⟨hstore, List.forall_mem_cons.mpr ⟨htrusted, hrest⟩⟩

/-- A declaration with bodies that is analyzed is one that the compiler can rely on. -/
theorem ItemRun.trusted {i r : Item} (hi : i.Bodied) (h : ItemRun i s r s') : s.Relaid s' ∧ r.Trusted s'.OfInterface := by
  cases h with
  | func method =>
    obtain ⟨pl, st, hm, rfl⟩ := method
    obtain ⟨hstore, htrusted⟩ := trusted_analyzeMethod hi hm
    rw [hstore]
    refine ⟨.refl _, ?_⟩
    rintro _ ⟨⟩
    exact htrusted
  | cls check methods =>
    obtain ⟨rfl, hms⟩ := trusted_methods hi methods
    refine ⟨accepts_checkClass check, ?_⟩
    rintro _ ⟨⟩
    exact List.forall_mem_map.mpr hms
  | iface => exact ⟨.refl _, by simp [Item.Trusted, FileUnit.typedItem]⟩
  | declared _ =>
    obtain rfl := hi
    refine ⟨.refl _, ?_⟩
    rintro _ ⟨⟩
    exact True.intro
  | @initialized _ _ _ _ _ y _ _ _ _ _ value =>
    obtain ⟨hstore, htrusted⟩ := trusted_analyzeInit value
    rw [hstore]
    refine ⟨.refl _, ?_⟩
    rintro _ ⟨⟩
    cases y with
    | none => exact True.intro
    | some y => exact htrusted y rfl

theorem trusted_items {is rs : List Item} (his : ∀ i ∈ is, i.Bodied) (h : InTurn ItemRun is s rs s') :
    s.Relaid s' ∧ ∀ i ∈ rs, i.Trusted s'.OfInterface := by
  induction h with
  | nil => exact ⟨.refl _, by simp⟩
  | cons head tail ih =>
    obtain ⟨hi, his⟩ := List.forall_mem_cons.mp his
    obtain ⟨hrelaid, htrusted⟩ := head.trusted hi
    obtain ⟨hrelaid', hrest⟩ := ih his
    refine ⟨hrelaid.trans hrelaid', List.forall_mem_cons.mpr ⟨?_, hrest⟩⟩
    rw [ofInterface_relaid hrelaid']
    exact htrusted

/-- What the compiler relies on in a unit that was analyzed. -/
def FileUnit.Trusted (s : Store) (u : FileUnit) : Prop := ∀ p ∈ u.program?, p.Trusted s.OfInterface

theorem trusted_bodies (hu : u.Bodied) (h : Goes (runPhase p .bodies) u s x u' s') :
    s.Relaid s' ∧ u'.Trusted s' := by
  cases hsrc : u.source with
  | fresh tree items imports =>
    rw [FileUnit.Bodied, hsrc] at hu
    obtain ⟨items', hitems, rfl⟩ := goes_bodies_fresh hsrc h
    obtain ⟨hrelaid, htrusted⟩ := trusted_items hu.2 hitems
    refine ⟨hrelaid, ?_⟩
    rintro p hp
    obtain rfl : _ = p := by simpa [FileUnit.program?] using hp
    rintro d hd
    rcases List.mem_append.mp hd with hd | hd
    · obtain ⟨i, -, rfl⟩ := List.mem_map.mp hd
      exact True.intro
    · obtain ⟨i, hi, hd⟩ := List.mem_filterMap.mp hd
      exact htrusted i hi d hd
  | cached record imports pending =>
    obtain ⟨rfl, rfl⟩ := goes_mapItems_cached hsrc h
    refine ⟨.refl _, ?_⟩
    simp [FileUnit.Trusted, FileUnit.program?, hsrc]

theorem bodied_sweep {ph : Phase} {us us' : List FileUnit} (hph : ph ≠ .bodies) (h : Sweep p ph us s us' s')
    (hus : ∀ u ∈ us, u.Bodied) : ∀ u ∈ us', u.Bodied :=
  (h.forall (R := fun _ _ => True) (P := fun _ u => u.Bodied) (Q := fun _ u => u.Bodied) (fun _ => True.intro)
    (fun _ _ => True.intro) (fun _ h => h) (fun _ h => h) (fun hu h => ⟨True.intro, bodied_runPhase hph hu h⟩) hus).2

/-- The programs of a run that reports nothing are ones that the compiler can rely on. -/
theorem trusted_run {registry : Registry} {resolver : Option Resolver} {us us' : List FileUnit}
    (hclean : ∀ u ∈ us, u.Clean) (hbodied : ∀ u ∈ us, u.Bodied) (h : run registry resolver us s = (us', s'))
    (hquiet : ∀ u ∈ us', u.diags = []) : ∀ u ∈ us', u.Trusted s' := by
  have hsweeps := sweeps_run hclean h hquiet
  simp only [Phase.all] at hsweeps
  obtain _ | ⟨h₁, hsweeps⟩ := hsweeps
  obtain _ | ⟨h₂, hsweeps⟩ := hsweeps
  obtain _ | ⟨h₃, hsweeps⟩ := hsweeps
  obtain _ | ⟨h₄, hsweeps⟩ := hsweeps
  obtain _ | ⟨h₅, hsweeps⟩ := hsweeps
  obtain _ | ⟨h₆, hsweeps⟩ := hsweeps
  obtain _ | ⟨h₇, hsweeps⟩ := hsweeps
  obtain _ | _ := hsweeps
  have hbodied := bodied_sweep (by decide) h₁ hbodied
  have hbodied := bodied_sweep (by decide) h₂ hbodied
  have hbodied := bodied_sweep (by decide) h₃ hbodied
  have hbodied := bodied_sweep (by decide) h₄ hbodied
  have hbodied := bodied_sweep (by decide) h₅ hbodied
  have hkeep : ∀ {s₁ s₂ : Store} {u : FileUnit}, s₁.Relaid s₂ → u.Trusted s₁ → u.Trusted s₂ := by
    intro s₁ s₂ u hrelaid hu
    rwa [FileUnit.Trusted, ofInterface_relaid hrelaid]
  obtain ⟨rfl, rfl⟩ := sweep_finalize h₇
  exact (h₆.forall (P := fun _ u => u.Bodied) (Q := fun s u => u.Trusted s) Store.Relaid.refl
    (fun h h' => h.trans h') (fun _ h => h) hkeep trusted_bodies hbodied).2

end Declarations

end Weft.Analysis
