import Weft.Proofs.Analysis.TypeNames
import Weft.Proofs.Analysis.TrustedChain
import Weft.Proofs.Bytecode.Answers

/-!
# Chains whose lambdas answer

An analysis keeps the signatures of the bodies around it. What it accepts of a chain has only lambdas that answer what
their signatures say, if that holds of the phrases inside the chain.
-/

namespace Weft.Analysis

open Typed (Expr exprsLambdas callsLambdas appendsLambdas paramsLambdas stmtsLambdas stmtsResults)

/-! ## Lambdas that answer -/

/-- Lambdas whose signatures are proper and that answer them. -/
def Answering (fns : List Typed.Lambda) : Prop := ∀ fn ∈ fns, fn.sig.proper = true ∧ fn.Answers

section Answering

variable {xs ys : List Typed.Lambda}

theorem answering_nil : Answering [] := by simp [Answering]

theorem answering_append : Answering (xs ++ ys) ↔ Answering xs ∧ Answering ys := List.forall_mem_append

theorem exprsLambdas_append (xs ys : List Expr) : exprsLambdas (xs ++ ys) = exprsLambdas xs ++ exprsLambdas ys := by
  induction xs with
  | nil => rfl
  | cons x xs ih => rw [List.cons_append, exprsLambdas, exprsLambdas, ih, List.append_assoc]

theorem answering_exprs {xs : List Expr} : Answering (exprsLambdas xs) ↔ ∀ x ∈ xs, Answering x.lambdas := by
  induction xs with
  | nil => simp [exprsLambdas, Answering]
  | cons x xs ih => rw [exprsLambdas, answering_append, ih, List.forall_mem_cons]

/-- A call has no more lambdas than its children. -/
theorem answering_call {c : Typed.Call} (h : Answering (exprsLambdas c.children)) : Answering (Expr.call c).lambdas := by
  obtain ⟨line, a, name, t, args, site, children⟩ := c
  rw [Expr.lambdas, Typed.Call.lambdas]
  split
  · exact answering_nil
  · exact h

theorem answering_access {line : Nat} {a : Typed.Access} {name : String} {t : Option Ty} {kids : List Expr}
    (h : Answering (exprsLambdas kids)) : Answering (access line a name t kids).lambdas := answering_call h

end Answering

/-! ## Analyses that ensure a property -/

/-- What an analysis accepts has a property. The bodies around it, which have some signatures, keep them. -/
def Ensures (sigs : List Signature) {α : Type} (Q : α → Prop) (m : Analysis α) : Prop :=
  ∀ pl st r st', st.bodies.map Body.sig = sigs → Accepts m pl st r st' → st'.bodies.map Body.sig = sigs ∧ Q r

section Ensures

variable {α β ι : Type} {sigs : List Signature} {P : α → Prop} {Q : β → Prop} {m : Analysis α} {f : α → Analysis β}

theorem ensures_pure {b : β} (h : Q b) : Ensures sigs Q (pure b) := by
  intro pl st r st' hs hr
  obtain ⟨rfl, rfl⟩ := accepts_pure.mp hr
  exact ⟨hs, h⟩

theorem Ensures.bind (hm : Ensures sigs P m) (hf : ∀ a, P a → Ensures sigs Q (f a)) : Ensures sigs Q (m >>= f) := by
  intro pl st r st' hs hr
  obtain ⟨a, st₁, ha, hr⟩ := accepts_bind.mp hr
  obtain ⟨hs, ha⟩ := hm _ _ _ _ hs ha
  exact hf a ha _ _ _ _ hs hr

theorem Ensures.then (hm : Ensures sigs (fun _ => True) m) (hf : ∀ a, Ensures sigs Q (f a)) : Ensures sigs Q (m >>= f) :=
  hm.bind fun a _ => hf a

theorem Ensures.imp {R : α → Prop} (hm : Ensures sigs P m) (h : ∀ a, P a → R a) : Ensures sigs R m :=
  fun _ _ _ _ hs hr => ⟨(hm _ _ _ _ hs hr).1, h _ (hm _ _ _ _ hs hr).2⟩

theorem Ensures.still (h : ∀ {pl st r st'}, Accepts m pl st r st' → st' = st ∧ P r) : Ensures sigs P m := by
  intro pl st r st' hs hr
  obtain ⟨rfl, hp⟩ := h hr
  exact ⟨hs, hp⟩

theorem ensures_report_bind {span : Span} {p : Problem} {g : Unit → Analysis β} :
    Ensures sigs Q (report span p >>= g) := fun _ _ _ _ _ hr => absurd hr accepts_report_bind

theorem ensures_guard {c : Prop} [Decidable c] {span : Span} {p : Problem} {g : Unit → Analysis β} {m : Analysis β}
    (h : ¬c → Ensures sigs Q m) : Ensures sigs Q (if c then report span p >>= g else m) := by
  split
  · exact ensures_report_bind
  · exact h ‹_›

theorem ensures_store_bind {g : Store → Analysis β} (h : ∀ s, Ensures sigs Q (g s)) : Ensures sigs Q (store >>= g) :=
  fun _ _ _ _ hs hr => h _ _ _ _ _ hs (accepts_store_bind.mp hr)

theorem ensures_typeName_bind {t : Ty} {g : String → Analysis β} (h : ∀ s, Ensures sigs Q (g s)) :
    Ensures sigs Q (typeName t >>= g) :=
  fun _ _ _ _ hs hr => h _ _ _ _ _ hs (accepts_typeName_bind.mp hr)

theorem ensures_thisClass_bind {g : Option ClassId → Analysis β} (h : ∀ c, Ensures sigs Q (g c)) :
    Ensures sigs Q (thisClass >>= g) :=
  fun _ _ _ _ hs hr => h _ _ _ _ _ hs (accepts_thisClass_bind.mp hr)

theorem ensures_lookup_bind {name : String} {g : Option Found → Analysis β} (h : ∀ x, Ensures sigs Q (g x)) :
    Ensures sigs Q (lookup name >>= g) :=
  fun _ _ _ _ hs hr => h _ _ _ _ _ hs (accepts_lookup_bind.mp hr)

/-- What the body around the current place returns. -/
def returnsIn (sigs : List Signature) : Ty := (sigs.head?.getD default).returns

theorem ensures_body_bind {g : Body → Analysis β} (h : ∀ b : Body, b.sig.returns = returnsIn sigs → Ensures sigs Q (g b)) :
    Ensures sigs Q (body >>= g) := by
  intro pl st r st' hs hr
  refine h _ ?_ _ _ _ _ hs (accepts_body_bind.mp hr)
  subst hs
  cases st.bodies with
  | nil => rfl
  | cons b bs => rfl

theorem ensures_checkAssignable_bind {span : Span} {src dst : Option Ty} {g : Unit → Analysis β}
    (h : Ensures sigs Q (g ())) : Ensures sigs Q (checkAssignable span src dst >>= g) :=
  fun _ _ _ _ hs hr => h _ _ _ _ hs (accepts_checkAssignable_bind.mp hr).2

theorem ensures_lift_bind {x : Except Typed.ArgumentsError α} (h : ∀ a, Ensures sigs Q (f a)) :
    Ensures sigs Q (liftM x >>= f) := by
  refine Ensures.then (.still fun hr => ?_) h
  exact ⟨(accepts_lift.mp hr).2, trivial⟩

/-- What each step of a list of analyses ensures, all of them do of their results in order. -/
theorem ensures_mapM {R : ι → β → Prop} {g : ι → Analysis β} {xs : List ι} (h : ∀ x ∈ xs, Ensures sigs (R x) (g x)) :
    Ensures sigs (List.Forall₂ R xs) (xs.mapM g) := by
  induction xs with
  | nil => exact ensures_pure .nil
  | cons x xs ih =>
    rw [List.mapM_cons]
    refine (h x (by simp)).bind fun y hy => ?_
    exact (ih fun z hz => h z (by simp [hz])).bind fun ys hys => ensures_pure (.cons hy hys)

/-- What each step ensures of its result holds of all results. -/
theorem ensures_each {g : ι → Analysis β} {xs : List ι} (h : ∀ x ∈ xs, Ensures sigs Q (g x)) :
    Ensures sigs (fun ys => ∀ y ∈ ys, Q y) (xs.mapM g) := by
  refine (ensures_mapM (R := fun _ => Q) h).imp fun ys hys => ?_
  clear h
  induction hys with
  | nil => simp
  | cons hy _ ih => exact List.forall_mem_cons.mpr ⟨hy, ih⟩

/-! ### Changes of bodies -/

theorem sigs_update {st : State} {f : Body → Body} (hf : ∀ b, (f b).sig = b.sig) :
    (st.update f).bodies.map Body.sig = st.bodies.map Body.sig := by
  rcases hb : st.bodies with _ | ⟨b, bs⟩ <;> simp [State.update, hb, hf]

theorem ensures_updateBody {f : Body → Body} (hf : ∀ b, (f b).sig = b.sig) {R : Unit → Prop} (hR : R ()) :
    Ensures sigs R (updateBody f) := by
  intro pl st r st' hs hr
  obtain rfl := accepts_updateBody.mp hr
  exact ⟨(sigs_update hf).trans hs, hR⟩

theorem Body.sig_add (b : Body) (v : LocalVar) : (b.add v).sig = b.sig := by
  unfold Body.add
  split <;> rfl

theorem sigs_findVar {name : String} {bs bs' : List Body} {v : LocalVar} (h : findVar name bs = some (v, bs')) :
    bs'.map Body.sig = bs.map Body.sig := by
  induction bs generalizing bs' v with
  | nil => simp [findVar] at h
  | cons b bs ih =>
    rw [findVar] at h
    split at h
    · obtain ⟨rfl, rfl⟩ := Prod.mk.inj (Option.some.inj h)
      rfl
    · split at h
      · cases h
      · next hfound =>
        obtain ⟨-, rfl⟩ := Prod.mk.inj (Option.some.inj h)
        rw [List.map_cons, List.map_cons, ih hfound]

theorem ensures_localVar {name : String} : Ensures sigs (fun _ => True) (localVar name) := by
  intro pl st r st' hs hr
  rcases accepts_localVar.mp hr with ⟨-, -, rfl⟩ | ⟨x, bodies, hx, -, rfl⟩
  · exact ⟨hs, trivial⟩
  · exact ⟨(sigs_findVar hx).trans hs, trivial⟩

theorem ensures_declare {name : String} {t : Ty} {ref : Bool} : Ensures sigs (fun _ => True) (declare name t ref) := by
  intro pl st r st' hs hr
  obtain ⟨-, rfl⟩ := accepts_declare.mp hr
  exact ⟨(sigs_update fun b => b.sig_add _).trans hs, trivial⟩

theorem Ensures.inBlock (hm : Ensures sigs P m) : Ensures sigs P (inBlock m) := by
  intro pl st r st' hs hr
  obtain ⟨st₁, h₁, rfl⟩ := accepts_inBlock hr
  obtain ⟨hs₁, hp⟩ := hm _ _ _ _ ((sigs_update (by intro b; rfl)).trans hs) h₁
  exact ⟨(sigs_update (by intro b; rfl)).trans hs₁, hp⟩

theorem Ensures.inside {e : Enclosing} (hm : Ensures sigs P m) : Ensures sigs P (inside e m) := by
  intro pl st r st' hs hr
  obtain ⟨st₁, h₁, rfl⟩ := accepts_inside hr
  obtain ⟨hs₁, hp⟩ := hm _ _ _ _ ((sigs_update (by intro b; rfl)).trans hs) h₁
  exact ⟨(sigs_update (by intro b; rfl)).trans hs₁, hp⟩

/-- An analysis in a body of its own. -/
theorem Ensures.inBody {b : Body} (hm : Ensures (b.sig :: sigs) P m) :
    Ensures sigs (fun r => P r.1 ∧ r.2.sig = b.sig) (inBody b m) := by
  intro pl st r st' hs hr
  obtain ⟨st₁, h₁, hlast, rfl⟩ := accepts_inBody hr
  obtain ⟨hs₁, hp⟩ := hm _ _ _ _ (by rw [List.map_cons, hs]) h₁
  cases hb : st₁.bodies with
  | nil => simp [hb] at hs₁
  | cons b' bs =>
    rw [hb, List.map_cons, List.cons.injEq] at hs₁
    refine ⟨hs₁.2, hp, ?_⟩
    rw [hlast, hb]
    exact hs₁.1

end Ensures

/-! ## Chains -/

/-- Statements whose lambdas answer and whose returns give as many values as a type has. They return on every path if
they do so as they are written. -/
structure AnsweringStmts (t : Ty) (written : Bool) (ss : List Typed.Stmt) : Prop where
  lambdas : Answering (stmtsLambdas ss)
  results : ∀ n ∈ stmtsResults ss, n = t.valueCount
  returns : written = true → Typed.someReturns ss = true

/-- The lambdas of the expressions that an analysis accepts answer. -/
abbrev EnsuresExpr (sigs : List Signature) (m : Analysis (Expr × Option Ty)) : Prop :=
  Ensures sigs (fun r => Answering r.1.lambdas) m

/-- What a visit accepts of an expression or statement up to a height answers the body around it. -/
structure Visit.Answers (v : Visit) (height : Nat) : Prop where
  expr : ∀ {sigs x expect}, Tree.Expr.height x ≤ height → EnsuresExpr sigs (v.expr x expect)
  stmt : ∀ {sigs x}, Tree.Stmt.height x ≤ height → Ensures sigs (AnsweringStmts (returnsIn sigs) x.returns) (v.stmt x)

/-- The lambdas of the accesses of a chain answer. -/
def Walk.Answers (w : Walk) : Prop := Answering (exprsLambdas w.links)

/-- The lambdas of the value that a chain writes answer. -/
def Mode.Answers (m : Mode) : Prop := Answering (exprsLambdas m.values)

section Chains

variable {v : Visit} {height : Nat} {sigs : List Signature}

theorem Walk.Answers.push {w : Walk} {x : Expr} {t : Option Ty} (h : w.Answers) (hx : Answering x.lambdas) :
    (w.push x t).Answers := by
  rw [Walk.Answers, Walk.push, exprsLambdas_append, answering_append]
  exact ⟨h, answering_append.mpr ⟨hx, answering_nil⟩⟩

theorem Mode.Answers.last {m : Mode} (h : m.Answers) (b : Bool) : (m.last b).Answers := by
  unfold Mode.last
  split
  · exact h
  · exact answering_nil

theorem answering_null {line : Nat} : Answering (Typed.nullLiteral line).lambdas := answering_nil

theorem ensures_failWith {w : Walk} {span : Span} {p : Problem} {R : Walk → Prop} : Ensures sigs R (failWith w span p) := ensures_report_bind

theorem ensures_failWith_bind {β : Type} {w : Walk} {span : Span} {p : Problem} {g : Walk → Analysis β} {R : β → Prop} :
    Ensures sigs R (failWith w span p >>= g) :=
  (ensures_failWith (R := fun _ => False)).bind fun _ h => h.elim

/-! ### Arguments -/

theorem height_of_args {as : List Tree.Arg} (h : Tree.argsHeight as ≤ height) : ∀ a ∈ as, a.value.height ≤ height := by
  induction as with
  | nil => simp
  | cons a as ih =>
    rw [Tree.argsHeight, Nat.max_le] at h
    obtain ⟨span, ref, name, x⟩ := a
    exact List.forall_mem_cons.mpr ⟨h.1, ih h.2⟩

/-- Parameters are given nothing but arguments of the call. -/
theorem ensures_passArguments {P : Tree.Arg → Prop} {names : List String} {as : List Tree.Arg} {p : Passing}
    (has : ∀ a ∈ as, P a) (hp : ∀ a, some a ∈ p.places → P a) :
    Ensures sigs (fun places => ∀ a, some a ∈ places → P a) (passArguments names as p) := by
  induction as generalizing p with
  | nil =>
    rw [passArguments]
    exact ensures_pure hp
  | cons a as ih =>
    have has' : ∀ a ∈ as, P a := fun b hb => has b (by simp [hb])
    have hgive : ∀ {p : Passing} {i : Nat}, (∀ a, some a ∈ p.places → P a) →
        Ensures sigs (fun places => ∀ a, some a ∈ places → P a) (passArguments.give names a as p i) := by
      intro p i hp
      rw [passArguments.give]
      split
      · exact ensures_report_bind
      · exact ensures_report_bind
      · refine ih has' fun b hb => ?_
        rcases List.mem_or_eq_of_mem_set hb with hb | hb
        · exact hp b hb
        · obtain rfl := Option.some.inj hb
          exact has b (by simp)
    rw [passArguments]
    split
    · simp only
      split
      · exact ensures_report_bind
      · exact hgive hp
    · split
      · exact ensures_report_bind
      · exact hgive hp

theorem answers_passArgument (hv : v.Answers height) {a : Tree.Arg} (ha : a.value.height ≤ height) {ref : Bool} {t : Ty} :
    Ensures sigs (fun x => Answering x.lambdas) (passArgument v a ref t) := by
  simp only [passArgument]
  refine ensures_guard fun _ => ensures_guard fun _ => ?_
  split
  · refine (hv.expr ha).bind fun r hr => ?_
    exact ensures_checkAssignable_bind (ensures_pure hr)
  · split
    · refine ensures_localVar.then fun found => ?_
      cases found with
      | none => exact ensures_report_bind
      | some x => exact ensures_store_bind fun s => ensures_guard fun _ => ensures_pure (answering_access answering_nil)
    · exact ensures_report_bind

theorem answers_fillParams (hv : v.Answers height) {line : Nat} {span : Span} {names : List String} {required : Int}
    {count : Nat} {ps : List (Option Tree.Arg × Bool × Ty)} (hps : ∀ a ref t, (some a, ref, t) ∈ ps → a.value.height ≤ height)
    (i : Nat) (bits : Typed.Arguments) :
    Ensures sigs (fun r => Answering (exprsLambdas r.1)) (fillParams v line span names required count i ps bits) := by
  induction ps generalizing i bits with
  | nil =>
    rw [fillParams]
    exact ensures_pure answering_nil
  | cons p ps ih =>
    have hrest := fun i bits => ih (fun a ref t h => hps a ref t (List.mem_cons_of_mem _ h)) i bits
    obtain ⟨arg, ref, t⟩ := p
    cases arg with
    | none =>
      simp only [fillParams]
      split
      · exact ensures_report_bind
      · refine ensures_lift_bind fun bits => (hrest _ bits).bind fun r hr => ensures_pure ?_
        split
        · exact answering_append.mpr ⟨answering_null, hr⟩
        · exact hr
    | some a =>
      rw [fillParams]
      refine (answers_passArgument hv (hps a ref t (by simp))).bind fun x hx => ?_
      exact (hrest _ bits).bind fun r hr => ensures_pure (answering_append.mpr ⟨hx, hr⟩)

theorem answers_arguments (hv : v.Answers height) {line : Nat} {sig : Signature} {names : List String} {c : Tree.Call}
    (hc : c.height ≤ height) : Ensures sigs (fun r => Answering (exprsLambdas r.1)) (arguments v line sig names c) := by
  obtain ⟨span, args⟩ := c
  have has : ∀ a ∈ args, a.value.height ≤ height := height_of_args hc
  simp only [arguments]
  refine (ensures_passArguments has (by simp)).bind fun places hplaces => ensures_guard fun _ => ?_
  refine (answers_fillParams hv (fun a ref t h => hplaces a (List.of_mem_zip h).1) _ _).bind fun r hr => ?_
  exact ensures_lift_bind fun bits => ensures_pure hr

/-! ### Steps -/

/-- The call that follows a step is low enough for a visit. -/
def Low (height : Nat) (next : Option Tree.Call) : Prop := ∀ c ∈ next, c.height ≤ height

theorem answers_callFunction (hv : v.Answers height) {line : Nat} {a : Typed.Access} {name callee : String}
    {sig : Signature} {names : List String} {c : Tree.Call} (hc : c.height ≤ height) {w : Walk} (hw : w.Answers) :
    Ensures sigs Walk.Answers (callFunction v line a name callee sig names c w) := by
  simp only [callFunction]
  exact (answers_arguments hv hc).bind fun r hr => ensures_pure (hw.push (answering_call hr))

theorem answers_symbolStep (hv : v.Answers height) {m : Mode} (hm : m.Answers) {span : Span} {f : Found}
    {next : Option Tree.Call} (hn : Low height next) {w : Walk} (hw : w.Answers) :
    Ensures sigs (fun r => r.1.Answers) (symbolStep v m span f next w) := by
  simp only [symbolStep]
  refine ensures_store_bind fun s => ?_
  split
  · exact ensures_pure (hw.push (answering_access hm))
  · split
    · exact ensures_pure (hw.push (answering_access answering_nil))
    · exact (answers_callFunction hv (hn _ rfl) hw).bind fun _ hw => ensures_pure hw
  · exact ensures_failWith_bind
  · exact ensures_failWith_bind
  · exact ensures_failWith_bind
  · exact ensures_pure hw

theorem answers_pushThis {span : Span} {w : Walk} (hw : w.Answers) : Ensures sigs Walk.Answers (pushThis span w) := by
  simp only [pushThis]
  refine ensures_thisClass_bind fun c => ensures_localVar.then fun x => ?_
  split
  · exact ensures_pure (hw.push (answering_access answering_nil))
  · exact ensures_failWith

theorem answers_valueMember (hv : v.Answers height) {m : Mode} (hm : m.Answers) {span : Span} {name : String}
    {next : Option Tree.Call} (hn : Low height next) {t : Option Ty} {viaBase : Bool} {w : Walk} (hw : w.Answers) :
    Ensures sigs (fun r => r.1.Answers) (valueMember v m span name next t viaBase w) := by
  simp only [valueMember]
  refine ensures_store_bind fun s => ?_
  split
  · exact ensures_failWith_bind
  · exact ensures_failWith_bind
  · split
    · exact ensures_failWith_bind
    · exact ensures_pure (hw.push (answering_access hm))
  · split
    · exact ensures_failWith_bind
    · exact ensures_pure (hw.push (answering_access answering_nil))
  · split
    · exact ensures_failWith_bind
    · exact (answers_callFunction hv (hn _ rfl) hw).bind fun _ hw => ensures_pure hw
  · split
    · exact ensures_failWith_bind
    · exact (answers_callFunction hv (hn _ rfl) hw).bind fun _ hw => ensures_pure hw

theorem answers_staticMember (hv : v.Answers height) {m : Mode} (hm : m.Answers) {span : Span} {name : String}
    {next : Option Tree.Call} (hn : Low height next) {f : Found} {w : Walk} (hw : w.Answers) :
    Ensures sigs (fun r => r.1.Answers) (staticMember v m span name next f w) := by
  simp only [staticMember]
  refine ensures_store_bind fun s => ?_
  split
  · split
    · exact ensures_failWith_bind
    · exact answers_symbolStep hv hm hn hw
  · split
    · split
      · exact ensures_pure (hw.push answering_nil)
      · exact ensures_failWith_bind
    · exact ensures_failWith_bind
    · exact ensures_failWith_bind

theorem answers_memberStep (hv : v.Answers height) {m : Mode} (hm : m.Answers) {span : Span} {name : String}
    {next : Option Tree.Call} (hn : Low height next) {w : Walk} (hw : w.Answers) :
    Ensures sigs (fun r => r.1.Answers) (memberStep v m span name next w) := by
  unfold memberStep
  split
  · exact answers_staticMember hv hm hn hw
  · exact answers_valueMember hv hm hn hw
  · exact ensures_pure hw

theorem answers_indexStep (hv : v.Answers height) {m : Mode} (hm : m.Answers) {span : Span} {x : Tree.Expr}
    (hx : x.height ≤ height) {w : Walk} (hw : w.Answers) : Ensures sigs Walk.Answers (indexStep v m span x w) := by
  -- an index is analyzed before the access is added
  have hpush : ∀ {i : Expr} {a : Typed.Access} {t : Option Ty}, Answering i.lambdas →
      (w.push (access span.start.line a "" t (i :: m.values)) t).Answers :=
    fun hi => hw.push (answering_access (answering_append.mpr ⟨hi, hm⟩))
  simp only [indexStep]
  split
  · exact ensures_pure hw
  · exact ensures_store_bind fun s => ensures_failWith
  · refine (hv.expr hx).bind fun ⟨i, t⟩ hi => ?_
    cases t with
    | none => exact ensures_pure (hpush hi)
    | some t =>
      simp only
      split
      · exact ensures_typeName_bind fun _ => ensures_report_bind
      · exact ensures_pure (hpush hi)
  · exact (hv.expr hx).bind fun ⟨k, t⟩ hk => ensures_checkAssignable_bind (ensures_pure (hpush hk))
  · exact ensures_store_bind fun s => ensures_failWith

theorem answers_callStep (hv : v.Answers height) {c : Tree.Call} (hc : c.height ≤ height) {w : Walk} (hw : w.Answers) :
    Ensures sigs Walk.Answers (callStep v c w) := by
  simp only [callStep]
  split
  · exact ensures_pure hw
  · exact ensures_store_bind fun s => ensures_failWith
  · exact answers_callFunction hv hc hw
  · exact ensures_store_bind fun s => ensures_failWith

theorem answers_nameStep (hv : v.Answers height) {m : Mode} (hm : m.Answers) {span : Span} {name : String}
    {next : Option Tree.Call} (hn : Low height next) {w : Walk} (hw : w.Answers) :
    Ensures sigs (fun r => r.1.Answers) (nameStep v m span name next w) := by
  rw [nameStep]
  refine ensures_localVar.then fun x => ?_
  cases x with
  | some x => exact ensures_pure (hw.push (answering_access hm))
  | none =>
    refine ensures_store_bind fun s => ensures_thisClass_bind fun c => ?_
    -- inside and outside of classes, the name is looked up unless it is a member
    split
    all_goals
      dsimp only
      split
      · exact (answers_pushThis hw).bind fun w' hw' => answers_memberStep hv hm hn hw'
      · refine ensures_lookup_bind fun f => ?_
        split
        · exact ensures_failWith_bind
        · exact answers_symbolStep hv hm hn hw

theorem answers_baseStep {span : Span} {items : List Tree.Item} {w : Walk} (hw : w.Answers) :
    Ensures sigs Walk.Answers (baseStep span items w) := by
  simp only [baseStep]
  refine ensures_store_bind fun s => ensures_thisClass_bind fun c => ?_
  split
  · exact ensures_failWith
  · split
    · exact ensures_failWith
    · refine (answers_pushThis hw).bind fun w' hw' => ?_
      split
      · next this _ hlast =>
        have hlinks : ∀ x ∈ w'.links, Answering x.lambdas := answering_exprs.mp hw'
        refine ensures_pure (answering_exprs.mpr fun x hx => ?_)
        rcases List.mem_append.mp hx with hx | hx
        · exact hlinks x (List.dropLast_subset _ hx)
        · rw [List.mem_singleton.mp hx]
          exact hlinks this (List.mem_of_getLast? hlast)
      · exact ensures_pure hw'
    · exact ensures_failWith

theorem low_firstCall {items : List Tree.Item} (h : Tree.itemsHeight items ≤ height) : Low height (firstCall? items) := by
  intro c hc
  unfold firstCall? at hc
  split at hc
  · obtain rfl : _ = c := by simpa using hc
    rw [Tree.itemsHeight, Nat.max_le] at h
    exact h.1
  · simp at hc

theorem answers_followItems (hv : v.Answers height) {m : Mode} (hm : m.Answers) {items : List Tree.Item}
    (hi : Tree.itemsHeight items ≤ height) {used : Bool} {w : Walk} (hw : w.Answers) :
    Ensures sigs Walk.Answers (followItems v m used items w) := by
  induction items generalizing used w with
  | nil =>
    rw [followItems]
    exact ensures_pure hw
  | cons item rest ih =>
    rw [Tree.itemsHeight, Nat.max_le] at hi
    obtain ⟨hitem, hrest⟩ := hi
    cases used with
    | true => exact ih hrest hw
    | false =>
      rw [followItems]
      split
      · exact ensures_pure hw
      · cases item with
        | index span x => exact (answers_indexStep hv (hm.last _) hitem hw).bind fun w' hw' => ih hrest hw'
        | call c => exact (answers_callStep hv hitem hw).bind fun w' hw' => ih hrest hw'
        | member span name =>
          exact (answers_memberStep hv (hm.last _) (low_firstCall hrest) hw).bind fun r hr => ih hrest hr

theorem answers_rootStep (hv : v.Answers height) {lambda : Tree.Lambda → Analysis (Expr × Option Ty)}
    (hl : ∀ fn : Tree.Lambda, fn.height ≤ height → EnsuresExpr sigs (lambda fn)) {m : Mode}
    (hm : m.Answers) {c : Tree.Chain} (hc : c.height ≤ height) :
    Ensures sigs (fun r => r.1.Answers) (rootStep v lambda m c) := by
  obtain ⟨span, root, items⟩ := c
  rw [Tree.Chain.height, Nat.max_le] at hc
  obtain ⟨hroot, hitems⟩ := hc
  have hstart : Walk.Answers { links := [], stand := .failed } := answering_nil
  rw [rootStep]
  cases root with
  | name s name => exact answers_nameStep hv (hm.last _) (low_firstCall hitems) hstart
  | this s => exact (answers_pushThis hstart).bind fun w hw => ensures_pure hw
  | base s => exact (answers_baseStep hstart).bind fun w hw => ensures_pure hw
  | paren s x =>
    refine (hv.expr hroot).bind fun x hx => ensures_pure ?_
    obtain ⟨x, t⟩ := x
    cases t with
    | none => exact hstart.push (t := none) hx
    | some t => exact hstart.push hx
  | lambda fn => exact (hl fn hroot).bind fun x hx => ensures_pure (hstart.push hx)

/-- The lambdas of a chain answer. -/
theorem answers_chain (hv : v.Answers height) {lambda : Tree.Lambda → Analysis (Expr × Option Ty)}
    (hl : ∀ fn : Tree.Lambda, fn.height ≤ height → EnsuresExpr sigs (lambda fn)) {m : Mode}
    (hm : m.Answers) {c : Tree.Chain} (hc : c.height ≤ height) :
    Ensures sigs (fun r => Answering (exprsLambdas r.1.links)) (chain v lambda m c) := by
  have hitems : Tree.itemsHeight c.items ≤ height := by
    obtain ⟨span, root, items⟩ := c
    rw [Tree.Chain.height, Nat.max_le] at hc
    exact hc.2
  rw [chain]
  refine (answers_rootStep hv hl hm hc).bind fun w hw => ?_
  refine (answers_followItems hv hm hitems hw).bind fun w' hw' => ?_
  split
  · exact ensures_pure hw'
  · exact ensures_store_bind fun s => ensures_report_bind
  · split
    · exact ensures_report_bind
    · exact ensures_pure hw'

end Chains

end Weft.Analysis
