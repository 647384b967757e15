import Weft.Proofs.Analysis.AnswersStmt
import Weft.Proofs.Analysis.OwnFunctions

/-!
# Units whose functions answer

Functions and methods are checked like lambdas, against the signatures that the store has for them. When units are
analyzed without problems, every function, method and lambda of their programs answers its signature.
-/

namespace Weft

open Analysis (Answering)

namespace Typed

/-- What a function returns. -/
def returnsOf (s : Store) (f : FuncId) : Ty := ((s.func f).sig.getD default).returns

/-- A function has a frame that answers what the function returns. -/
def FuncDecl.Answers (s : Store) (d : FuncDecl) : Prop :=
  ∃ f, d.frame = some f ∧ f.Answers (returnsOf s d.symbol) ∧ Answering f.lambdas

/-- The functions and lambdas of a declaration answer. -/
structure Decl.Answers (s : Store) (d : Decl) : Prop where
  funcs : ∀ m ∈ d.funcs, m.Answers s
  init : Answering d.initLambdas

/-- The functions and lambdas of a program answer. -/
def Program.Answers (s : Store) (p : Program) : Prop := ∀ d ∈ p.decls, d.Answers s

theorem Program.Answers.funcs {s : Store} {p : Program} (h : p.Answers s) : ∀ d ∈ p.funcs, d.Answers s := by
  intro d hd
  obtain ⟨decl, hdecl, hd⟩ := List.mem_flatMap.mp hd
  exact (h decl hdecl).funcs d hd

theorem Program.Answers.lambdas {s : Store} {p : Program} (h : p.Answers s) (part : Bytecode.Section) :
    Answering (p.lambdas part) := by
  cases part with
  | init =>
    intro fn hfn
    obtain ⟨d, hd, hfn⟩ := List.mem_flatMap.mp hfn
    exact (h d hd).init fn hfn
  | code =>
    intro fn hfn
    obtain ⟨d, hd, hfn⟩ := List.mem_flatMap.mp hfn
    obtain ⟨f, hf, -, hlambdas⟩ := h.funcs d hd
    rw [hf] at hfn
    exact hlambdas fn hfn

end Typed

namespace Analysis

section Bodies

variable {pl : Place} {st' : State}

theorem sig_openBody {sig : Signature} {cls : Option ClassId} : (openBody sig cls).sig = sig := by
  cases cls with
  | none => rfl
  | some c => exact Body.sig_add _ _

/-- A function with a body answers the signature that the store has for it. -/
theorem answers_analyzeMethod {s : Store} {cls : Option ClassId} {m r : Method} (hm : m.decl.body.isSome = true)
    (hsig : ProperSig s m.symbol) (h : Accepts (analyzeMethod cls m) pl ⟨s, []⟩ r st') :
    (FileUnit.typedMethod r).Answers s := by
  obtain ⟨block, params, ss, b, hbody, hcheck, rfl⟩ := accepts_analyzeMethod hm h
  generalize hstart : openBody ((s.func m.symbol).sig.getD default) cls = start at hbody
  have hsame : start.sig = (s.func m.symbol).sig.getD default := by rw [← hstart, sig_openBody]
  have hframe : Ensures [start.sig] (fun r => Answering (Typed.paramsLambdas r.1) ∧
      AnsweringStmts (returnsIn [start.sig]) (Tree.someReturns block.stmts) r.2)
      (frame (visit (max (Tree.paramsHeight m.decl.params) block.height)) m.decl.params block) :=
    answers_frame (answers_visit _) (Nat.le_max_left _ _) (Nat.le_max_right _ _)
  obtain ⟨-, ⟨hps, hss⟩, hb⟩ := hframe.inBody _ _ _ _ rfl hbody
  have hreturns := (ensures_checkBody _ _ _ _ rfl hcheck).2
  have hin : returnsIn [start.sig] = Typed.returnsOf s m.symbol := congrArg Signature.returns hsame
  rw [hin] at hss
  rw [hb.trans hsame] at hreturns
  exact ⟨_, rfl, hss.frame (Signature.proper_iff.mp hsig).1 hreturns, answering_append.mpr ⟨hps, hss.lambdas⟩⟩

/-- The lambdas of an initial value of a global variable answer. -/
theorem answers_analyzeInit {s : Store} {g : GlobalId} {x : Tree.Expr} {r : Option Typed.Expr}
    (h : Accepts (analyzeInit g x) pl ⟨s, []⟩ r st') : ∃ y, r = some y ∧ Answering y.lambdas := by
  obtain ⟨y, t, b, rfl, hbody⟩ := accepts_analyzeInit h
  have hexpr : EnsuresExpr [default] ((visit x.height).expr x (s.global g).type) :=
    (answers_visit x.height).expr (Nat.le_refl _)
  exact ⟨y, rfl, (hexpr.inBody _ _ _ _ rfl hbody).2.1⟩

end Bodies

/-! ## Declarations -/

section Declarations

variable {u u' : FileUnit} {s s' : Store} {p : Project} {x : PUnit}

theorem sig_relaid (h : s.Relaid s') (f : FuncId) : (s'.func f).sig = (s.func f).sig := by
  obtain ⟨i, hf⟩ := h.func f
  rw [hf]

theorem properSig_relaid (h : s.Relaid s') {f : FuncId} (hf : ProperSig s f) : ProperSig s' f := by
  rwa [ProperSig, sig_relaid h]

theorem answers_relaid (h : s.Relaid s') {d : Typed.Decl} (hd : d.Answers s) : d.Answers s' := by
  refine ⟨fun m hm => ?_, hd.init⟩
  obtain ⟨f, hf, hanswers, hlambdas⟩ := hd.funcs m hm
  refine ⟨f, hf, ?_, hlambdas⟩
  rwa [Typed.returnsOf, sig_relaid h]

theorem answers_methods {cls : Option ClassId} {ms rs : List Method}
    (hms : ∀ m ∈ ms, m.decl.body.isSome = true ∧ ProperSig s m.symbol) (h : InTurn (MethodRun cls) ms s rs s') :
    ∀ m ∈ rs, (FileUnit.typedMethod m).Answers s := by
  induction h with
  | nil => simp
  | cons head tail ih =>
    obtain ⟨pl, st, hm, rfl⟩ := head
    obtain ⟨⟨hbody, hsig⟩, hms⟩ := List.forall_mem_cons.mp hms
    rw [(trusted_analyzeMethod hbody hm).1] at ih
    exact List.forall_mem_cons.mpr ⟨answers_analyzeMethod hbody hsig hm, ih hms⟩

/-- The declarations that are analyzed answer, when their functions have proper signatures. -/
theorem ItemRun.answers {i r : Item} (hi : i.Bodied) (hsigs : ∀ f ∈ i.symbols, ProperSig s f) (h : ItemRun i s r s') :
    ∀ d ∈ FileUnit.typedItem r, d.Answers s' := by
  cases h with
  | func method =>
    obtain ⟨pl, st, hm, rfl⟩ := method
    rw [(trusted_analyzeMethod hi hm).1]
    rintro _ ⟨⟩
    have hm := answers_analyzeMethod hi (hsigs _ (List.mem_singleton_self _)) hm
    exact ⟨fun n hn => List.mem_singleton.mp hn ▸ hm, answering_nil⟩
  | @cls _ _ _ ms _ _ _ _ st check methods =>
    have hms : ∀ m ∈ ms, m.decl.body.isSome = true ∧ ProperSig st.store m.symbol := fun m hm =>
      ⟨hi m hm, properSig_relaid (accepts_checkClass check) (hsigs _ (List.mem_map_of_mem hm))⟩
    have hanswers := answers_methods hms methods
    obtain ⟨rfl, -⟩ := trusted_methods hi methods
    rintro _ ⟨⟩
    exact ⟨List.forall_mem_map.mpr hanswers, answering_nil⟩
  | iface => simp [FileUnit.typedItem]
  | declared _ =>
    obtain rfl := hi
    rintro _ ⟨⟩
    exact ⟨by simp [Typed.Decl.funcs], answering_nil⟩
  | initialized _ value =>
    obtain ⟨y, rfl, hy⟩ := answers_analyzeInit value
    rintro _ ⟨⟩
    exact ⟨by simp [Typed.Decl.funcs], hy⟩

theorem answers_items {is rs : List Item} (his : ∀ i ∈ is, i.Bodied) (hsigs : ∀ i ∈ is, ∀ f ∈ i.symbols, ProperSig s f)
    (h : InTurn ItemRun is s rs s') : ∀ i ∈ rs, ∀ d ∈ FileUnit.typedItem i, d.Answers s' := by
  induction h with
  | nil => simp
  | cons head tail ih =>
    obtain ⟨hi, his⟩ := List.forall_mem_cons.mp his
    obtain ⟨hsig, hsigs⟩ := List.forall_mem_cons.mp hsigs
    obtain ⟨hrelaid, -⟩ := head.trusted hi
    obtain ⟨hrelaid', -⟩ := trusted_items his tail
    have hanswers := head.answers hi hsig
    have hrest := ih his fun j hj f hf => properSig_relaid hrelaid (hsigs j hj f hf)
    exact List.forall_mem_cons.mpr ⟨fun d hd => answers_relaid hrelaid' (hanswers d hd), hrest⟩

/-! ## Runs -/

/-- The functions and lambdas of the program of a unit answer. -/
def FileUnit.Answers (s : Store) (u : FileUnit) : Prop := ∀ p ∈ u.program?, p.Answers s

theorem answers_bodies (hu : u.Bodied) (hsigned : u.Signed s) (h : Goes (runPhase p .bodies) u s x u' s') :
    s.Relaid s' ∧ u'.Answers s' := by
  refine ⟨(trusted_bodies hu h).1, ?_⟩
  cases hsrc : u.source with
  | fresh tree items imports =>
    have hsigs : ∀ i ∈ items, ∀ f ∈ i.symbols, ProperSig s f := by
      intro i hi f hf
      refine hsigned ⟨tree, items, imports, hsrc⟩ f ?_
      rw [FileUnit.own_fresh hsrc]
      exact List.mem_flatMap.mpr ⟨i, hi, hf⟩
    rw [FileUnit.Bodied, hsrc] at hu
    obtain ⟨items', hitems, rfl⟩ := goes_bodies_fresh hsrc h
    have hanswers := answers_items hu.2 hsigs hitems
    rintro p hp
    obtain rfl : _ = p := by simpa [FileUnit.program?] using hp
    rintro d hd
    rcases List.mem_append.mp hd with hd | hd
    · obtain ⟨i, -, rfl⟩ := List.mem_map.mp hd
      exact ⟨by simp [Typed.Decl.funcs], answering_nil⟩
    · obtain ⟨i, hi, hd⟩ := List.mem_filterMap.mp hd
      exact hanswers i hi d hd
  | cached record imports pending =>
    obtain ⟨rfl, -⟩ := goes_mapItems_cached hsrc h
    simp [FileUnit.Answers, FileUnit.program?, hsrc]

/-- The functions, methods and lambdas of a run that reports nothing answer their signatures. -/
theorem answers_run {registry : Registry} {resolver : Option Resolver} {us us' : List FileUnit}
    (hclean : ∀ u ∈ us, u.Clean) (hbodied : ∀ u ∈ us, u.Bodied) (h : run registry resolver us s = (us', s'))
    (hquiet : ∀ u ∈ us', u.diags = []) : ∀ u ∈ us', u.Answers s' := by
  obtain _ | ⟨h₁, _ | ⟨h₂, _ | ⟨h₃, _ | ⟨h₄, _ | ⟨h₅, _ | ⟨h₆, _ | ⟨h₇, h₈⟩⟩⟩⟩⟩⟩⟩ := sweeps_run hclean h hquiet
  cases h₈
  have hbodied := bodied_sweep (by decide) h₁ hbodied
  have hbodied := bodied_sweep (by decide) h₂ hbodied
  have hbodied := bodied_sweep (by decide) h₃ hbodied
  have hbodied := bodied_sweep (by decide) h₄ hbodied
  have hbodied := bodied_sweep (by decide) h₅ hbodied
  -- every unit signs functions of its own
  have hapart := apart_imports (by simp) h₃ (apart_imports (by simp) h₂ (apart_outline h₁).1)
  obtain ⟨rfl, hsigned⟩ := signed_types h₄ hapart
  obtain ⟨rfl, hsigned⟩ := signed_bases h₅ hsigned
  have hkeep : ∀ {s₁ s₂ : Store} {u : FileUnit}, s₁.Relaid s₂ → u.Answers s₁ → u.Answers s₂ :=
    fun hrelaid hu p hp d hd => answers_relaid hrelaid (hu p hp d hd)
  have hbefore : ∀ {s₁ s₂ : Store} {u : FileUnit}, s₁.Relaid s₂ → u.Bodied ∧ u.Signed s₁ → u.Bodied ∧ u.Signed s₂ :=
    fun hrelaid hu => ⟨hu.1, fun hfresh f hf => properSig_relaid hrelaid (hu.2 hfresh f hf)⟩
  obtain ⟨rfl, rfl⟩ := sweep_finalize h₇
  exact (h₆.forall (P := fun s u => u.Bodied ∧ u.Signed s) (Q := fun s u => u.Answers s) Store.Relaid.refl
    (fun h h' => h.trans h') hbefore hkeep (fun hu => answers_bodies hu.1 hu.2)
    fun u hu => ⟨hbodied u hu, hsigned u hu⟩).2

end Declarations

end Analysis

end Weft
