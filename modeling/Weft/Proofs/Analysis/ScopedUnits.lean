import Weft.Proofs.Analysis.ScopedStmt
import Weft.Proofs.Bytecode.CleanUnits

/-!
# Frames of accepted units

A function, method or lambda is analyzed in a body of its own, so when its unit has no problem its frame is consistent:
each variable has a slot of its own, and every variable that is mentioned or captured is the one that its name stands
for. This depends on the unit alone, whatever is reported of the units beside it.
-/

namespace Weft.Analysis

open Typed (thisVar)

/-! ## Bodies -/

section Bodies

variable {pl : Place} {st' : State} {s : Store}

/-- The frame of a function or method that is accepted is consistent. -/
theorem scoped_analyzeMethod {cls : Option ClassId} {m r : Method} (hm : m.decl.body.isSome = true)
    (h : Accepts (analyzeMethod cls m) pl ⟨s, []⟩ r st') : ∃ f, r.frame = some f ∧ f.Scoped (cls.toList.map thisVar) := by
  obtain ⟨block, params, ss, b, hbody, hcheck, rfl⟩ := accepts_analyzeMethod hm h
  have hshows : ∀ outer, Layer.Shows ⟨[cls.toList.map thisVar], cls.toList.map thisVar,
      openBody ((s.func m.symbol).sig.getD default) cls⟩ outer := by
    cases cls with
    | none => exact shows_empty _
    | some c => exact shows_method _ c
  obtain ⟨l, ls, hframe, hgrows⟩ := (scoped_frame (scopes_visit _) b.slots block.span.start.line).inBody hshows
    (show Layered [] from True.intro) rfl hbody
  cases hgrows
  have hmentions := hframe.mentions
  have hslotted := hframe.slotted (.refl _) rfl (accepts_checkBody hcheck).2
  rw [hframe.upvals_nil] at hmentions hslotted
  exact ⟨_, rfl, hslotted, hmentions⟩

/-- The mentions of an initial value of a global variable are consistent. -/
theorem scoped_analyzeInit {g : GlobalId} {x : Tree.Expr} {r : Option Typed.Expr}
    (h : Accepts (analyzeInit g x) pl ⟨s, []⟩ r st') : ∀ y, r = some y → ∀ m ∈ y.mentions, m.Scoped [⟨[], []⟩] := by
  obtain ⟨y, t, b, rfl, hbody⟩ := accepts_analyzeInit h
  have hexpr : Tells [[]] [] [] ((visit x.height).expr x (s.global g).type) fun r => r.1.mentions :=
    (scopes_visit x.height).expr
  obtain ⟨l, ls, hinit, hgrows⟩ := Runs.inBody hexpr (shows_empty _) (show Layered [] from True.intro) rfl hbody
  cases hgrows
  have hmentions := hinit.mentions
  rw [hinit.upvals_nil] at hmentions
  rintro _ ⟨⟩ m hm
  exact hmentions _ (List.mem_map_of_mem hm)

end Bodies

/-! ## Declarations -/

section Declarations

variable {u u' : FileUnit} {s s' : Store} {p : Project} {x : PUnit}

theorem scoped_methods {cls : Option ClassId} {ms rs : List Method} (hms : ∀ m ∈ ms, m.decl.body.isSome = true)
    (h : InTurn (MethodRun cls) ms s rs s') : ∀ m ∈ rs, ∀ f, m.frame = some f → f.Scoped (cls.toList.map thisVar) := by
  induction h with
  | nil => simp
  | cons head tail ih =>
    obtain ⟨pl, st, hm, rfl⟩ := head
    obtain ⟨hbody, hms⟩ := List.forall_mem_cons.mp hms
    obtain ⟨f, hf, hscoped⟩ := scoped_analyzeMethod hbody hm
    refine List.forall_mem_cons.mpr ⟨fun f' hf' => ?_, ih hms⟩
    obtain rfl := Option.some.inj (hf.symm.trans hf')
    exact hscoped

/-- The frames of a declaration that is analyzed are consistent. -/
theorem ItemRun.scoped {i r : Item} (hi : i.Bodied) (h : ItemRun i s r s') : ∀ d ∈ FileUnit.typedItem r, d.Scoped := by
  cases h with
  | func method =>
    obtain ⟨pl, st, hm, rfl⟩ := method
    obtain ⟨f, hf, hscoped⟩ := scoped_analyzeMethod hi hm
    rintro _ ⟨⟩ f' hf'
    obtain rfl := Option.some.inj (hf.symm.trans hf')
    exact hscoped
  | cls _ methods =>
    rintro _ ⟨⟩
    exact List.forall_mem_map.mpr (scoped_methods hi methods)
  | iface => simp [FileUnit.typedItem]
  | declared _ =>
    obtain rfl := hi
    rintro _ ⟨⟩ y ⟨⟩
  | initialized _ value =>
    rintro _ ⟨⟩
    exact scoped_analyzeInit value

theorem scoped_items {is rs : List Item} (his : ∀ i ∈ is, i.Bodied) (h : InTurn ItemRun is s rs s') :
    ∀ i ∈ rs, ∀ d ∈ FileUnit.typedItem i, d.Scoped := by
  induction h with
  | nil => simp
  | cons head tail ih =>
    obtain ⟨hi, his⟩ := List.forall_mem_cons.mp his
    exact List.forall_mem_cons.mpr ⟨head.scoped hi, ih his⟩

/-- The frames of the program of a unit are consistent. -/
def FileUnit.Scoped (u : FileUnit) : Prop := ∀ p ∈ u.program?, ∀ d ∈ p.decls, d.Scoped

theorem scoped_bodies (hu : u.Bodied) (h : Goes (runPhase p .bodies) u s x u' s') : u'.Scoped := by
  cases hsrc : u.source with
  | fresh tree items imports =>
    rw [FileUnit.Bodied, hsrc] at hu
    obtain ⟨items', hitems, rfl⟩ := goes_bodies_fresh hsrc h
    rintro p hp d hd
    obtain rfl : _ = p := by simpa [FileUnit.program?] using hp
    rcases List.mem_append.mp hd with hd | hd
    · obtain ⟨i, -, rfl⟩ := List.mem_map.mp hd
      exact True.intro
    · obtain ⟨i, hi, hd⟩ := List.mem_filterMap.mp hd
      exact scoped_items hu.2 hitems i hi d hd
  | cached record imports pending =>
    obtain ⟨rfl, -⟩ := goes_mapItems_cached hsrc h
    simp [FileUnit.Scoped, FileUnit.program?, hsrc]

end Declarations

/-! ## Runs -/

section Runs

variable {p : Project} {ph : Phase} {u u' : FileUnit} {us : List FileUnit} {s : Store}

/-- Phases go well on one unit, whatever becomes of the units beside it. -/
inductive Walks (p : Project) : List Phase → FileUnit → FileUnit → Prop
  | nil {u : FileUnit} : Walks p [] u u
  | cons {ph : Phase} {phs : List Phase} {u u₁ u' : FileUnit} {s s' : Store} (head : Goes (runPhase p ph) u s () u₁ s')
      (tail : Walks p phs u₁ u') : Walks p (ph :: phs) u u'

/-- A unit that has broken off has a problem. -/
def FileUnit.Explained (u : FileUnit) : Prop := u.broken = true → u.diags ≠ []

theorem FileUnit.Explained.clean (h : u.Explained) (hu : u.diags = []) : u.Clean :=
  ⟨hu, Bool.eq_false_iff.mpr fun hb => h hb hu⟩

theorem explained_runPhase (h : u.Explained) : (runPhase p ph u s).1.2.Explained := by
  intro hbroken hnil
  rcases (tidy_runPhase ph).breaks u s hbroken with hb | hb
  · have hgrows := (tidy_runPhase (p := p) ph).grows u s
    rw [hnil] at hgrows
    exact h hb (List.prefix_nil.mp hgrows)
  · exact hb hnil

/-- A unit after a phase comes from one before it. -/
theorem mem_runUnits (h : u' ∈ (runUnits p us ph s).1) : ∃ u ∈ us, ∃ s₁, u' = (runPhase p ph u s₁).1.2 := by
  induction us generalizing s with
  | nil => cases h
  | cons u us ih =>
    rw [runUnits_cons] at h
    rcases List.mem_cons.mp h with rfl | h
    · exact ⟨u, List.mem_cons_self, s, rfl⟩
    · obtain ⟨v, hv, hu'⟩ := ih h
      exact ⟨v, List.mem_cons_of_mem _ hv, hu'⟩

theorem walks_foldlM {phs : List Phase} (hus : ∀ u ∈ us, u.Explained) (h : u' ∈ (phs.foldlM (runUnits p) us s).1)
    (hu' : u'.diags = []) : ∃ u ∈ us, u.Clean ∧ Walks p phs u u' := by
  induction phs generalizing us s with
  | nil => exact ⟨u', h, (hus u' h).clean hu', .nil⟩
  | cons ph phs ih =>
    have hexplained : ∀ u ∈ (runUnits p us ph s).1, u.Explained := by
      intro v hv
      obtain ⟨u, hu, s₁, rfl⟩ := mem_runUnits hv
      exact explained_runPhase (hus u hu)
    obtain ⟨v, hv, hclean, hwalks⟩ := ih hexplained h
    obtain ⟨u, hu, s₁, rfl⟩ := mem_runUnits hv
    have hgrows := (tidy_runPhase (p := p) ph).grows u s₁
    rw [hclean.diags] at hgrows
    have hbefore := (hus u hu).clean (List.prefix_nil.mp hgrows)
    exact ⟨u, hu, hbefore, .cons ⟨hbefore, rfl, hclean⟩ hwalks⟩

/-- **Frame slots and captures are consistent.** In the program of every unit that is accepted, each variable of a
function, method or lambda has a slot of its own below the limit, every variable that is read, written or passed by
reference is the one that its name stands for in lexical scope, and every lambda captures each name once, from the slot
of the variable that the name stands for where the lambda is made. -/
theorem run_scoped {registry : Registry} {resolver : Option Resolver} {units units' : List FileUnit} {s s' : Store}
    (hunits : ∀ u ∈ units, u.Unread) (hrun : run registry resolver units s = (units', s')) (hu : u ∈ units')
    (hclean : u.diags = []) {prog : Typed.Program} (hprog : u.program? = some prog) : ∀ d ∈ prog.decls, d.Scoped := by
  have hfold : u ∈ (Phase.all.foldlM (runUnits (.new registry resolver units)) units s).1 := by
    rw [run] at hrun
    rwa [hrun]
  have hexplained : ∀ u ∈ units, u.Explained := fun u hu hbroken => by simp [(hunits u hu).clean.unbroken] at hbroken
  obtain ⟨u₀, hu₀, -, hwalks⟩ := walks_foldlM hexplained hfold hclean
  obtain _ | ⟨h₁, _ | ⟨h₂, _ | ⟨h₃, _ | ⟨h₄, _ | ⟨h₅, _ | ⟨h₆, _ | ⟨h₇, h₈⟩⟩⟩⟩⟩⟩⟩ := hwalks
  cases h₈
  have hbodied := bodied_runPhase (by decide) (hunits u₀ hu₀).bodied h₁
  have hbodied := bodied_runPhase (by decide) hbodied h₂
  have hbodied := bodied_runPhase (by decide) hbodied h₃
  have hbodied := bodied_runPhase (by decide) hbodied h₄
  have hbodied := bodied_runPhase (by decide) hbodied h₅
  obtain ⟨-, -, rfl, -⟩ := goes_pure.mp h₇
  exact scoped_bodies hbodied h₆ prog hprog

end Runs

/-! ## A unit with a captured parameter -/

/-- Whether a function of a program makes a lambda that captures something. -/
def hasCapture (prog : Typed.Program) : Bool :=
  prog.decls.any fun d =>
    match d with
    | .func d => d.frame.any fun f => (f.located []).any fun m =>
      match m.mention with
      | .lambda fn => !fn.upvals.isEmpty
      | .var _ => false
    | _ => false

theorem leftLoop_hasCapture : (Bytecode.LeftLoop.analyzed.1.any fun u => u.program?.any hasCapture) = true := by
  unfold Bytecode.LeftLoop.analyzed Bytecode.LeftLoop.unit Tree.parseFile Tree.read Tree.Cursor.start
  rw [Bytecode.LeftLoop.scan_source]
  decide +kernel

/-- A unit whose function makes a lambda that captures a parameter is accepted, and its frames are consistent. -/
theorem run_leftLoop_scoped :
    (∀ u ∈ [Bytecode.LeftLoop.unit], u.Unread) ∧ ∃ u ∈ Bytecode.LeftLoop.analyzed.1, u.diags = [] ∧
      ∃ prog, u.program? = some prog ∧ hasCapture prog = true ∧ ∀ d ∈ prog.decls, d.Scoped := by
  have hunits : ∀ u ∈ [Bytecode.LeftLoop.unit], u.Unread := by
    intro u hu
    obtain rfl := List.mem_singleton.mp hu
    exact .read _ _ _ _
  obtain ⟨u, hu, hcapture⟩ := List.any_eq_true.mp leftLoop_hasCapture
  have hclean := Bytecode.LeftLoop.clean u hu
  cases hprog : u.program? with
  | none => simp [hprog] at hcapture
  | some prog =>
    rw [hprog, Option.any_some] at hcapture
    exact ⟨hunits, u, hu, hclean, prog, hprog, hcapture, run_scoped hunits rfl hu hclean hprog⟩

end Weft.Analysis
