import Weft.Proofs.Analysis.Standing

/-!
# Chains in scope

Every variable that an accepted chain mentions is the one that its name stands for, and every lambda in it captures what
names stand for where it is made, if that holds of the phrases inside the chain.
-/

namespace Weft.Analysis

open Typed (Expr Mention exprsMentions exprsMentions_append)

/-- The mentions of the accesses of a chain. -/
def Walk.mentions (w : Walk) : List Mention := exprsMentions w.links

/-- The mentions of the value that a chain writes. -/
def Mode.mentions (m : Mode) : List Mention := exprsMentions m.values

section Chains

variable {v : Visit} {D : List (List LocalVar)} {L : List LocalVar} {K : List Mention}

theorem mentions_access {line : Nat} {a : Typed.Access} {name : String} {t : Option Ty} {kids : List Expr}
    (ha : a.mentions ⊆ K) (hk : exprsMentions kids ⊆ K) : (access line a name t kids).mentions ⊆ K :=
  List.append_subset.mpr ⟨ha, hk⟩

theorem Walk.mentions_push {w : Walk} {x : Expr} {t : Option Ty} (h : w.mentions ⊆ K) (hx : x.mentions ⊆ K) :
    (w.push x t).mentions ⊆ K := by
  rw [Walk.mentions, Walk.push, exprsMentions_append, exprsMentions, exprsMentions, List.append_nil]
  exact List.append_subset.mpr ⟨h, hx⟩

theorem Mode.mentions_last {m : Mode} (h : m.mentions ⊆ K) (b : Bool) : (m.last b).mentions ⊆ K := by
  unfold Mode.last
  split
  · exact h
  · exact List.nil_subset _

theorem known_later {ms ns : List Mention} (h : ms ⊆ K) : ms ⊆ ns ++ K := List.subset_append_of_subset_right _ h

theorem tells_failWith {w : Walk} {span : Span} {p : Problem} {μ : Walk → List Mention} :
    Tells D L K (failWith w span p) μ := runs_report_bind

theorem tells_failWith_bind {β : Type} {w : Walk} {span : Span} {p : Problem} {g : Walk → Analysis β}
    {ν : β → List Mention} : Tells D L K (failWith w span p >>= g) ν :=
  fun _ _ _ _ _ _ _ ha => absurd ha (by simp [failWith])

/-! ### Arguments -/

theorem runs_passArguments {p : Standing} {names : List String} {as : List Tree.Arg} {g : Passing} :
    Runs p (passArguments names as g) fun _ => p := by
  induction as generalizing g with
  | nil =>
    rw [passArguments]
    exact runs_pure (.refl p)
  | cons a as ih =>
    have hgive : ∀ {g : Passing} {i : Nat}, Runs p (passArguments.give names a as g i) fun _ => p := by
      intro g i
      rw [passArguments.give]
      split
      · exact runs_report_bind
      · exact runs_report_bind
      · exact ih
    rw [passArguments]
    split
    · simp only
      split
      · exact runs_report_bind
      · exact hgive
    · split
      · exact runs_report_bind
      · exact hgive

theorem scoped_passArgument (hv : v.Scopes) {a : Tree.Arg} {ref : Bool} {t : Ty} :
    Tells D L K (passArgument v a ref t) Expr.mentions := by
  simp only [passArgument]
  refine runs_guard fun _ => runs_guard fun _ => ?_
  split
  · refine Tells.bind hv.expr fun r => runs_checkAssignable_bind (tells_pure ?_)
    exact List.subset_append_left _ _
  · split
    · refine tells_localVar.bind fun found => ?_
      cases found with
      | none => exact runs_report_bind
      | some x =>
        refine runs_store_bind fun s => runs_guard fun _ => tells_pure (mentions_access ?_ (List.nil_subset _))
        exact List.subset_append_left _ _
    · exact runs_report_bind

theorem scoped_fillParams (hv : v.Scopes) {line : Nat} {span : Span} {names : List String} {required : Int} {count : Nat}
    {ps : List (Option Tree.Arg × Bool × Ty)} (i : Nat) (bits : Typed.Arguments) :
    Tells D L K (fillParams v line span names required count i ps bits) fun r => exprsMentions r.1 := by
  induction ps generalizing i bits K with
  | nil =>
    rw [fillParams]
    exact tells_pure (List.nil_subset _)
  | cons p ps ih =>
    obtain ⟨arg, ref, t⟩ := p
    cases arg with
    | none =>
      simp only [fillParams]
      split
      · exact runs_report_bind
      · refine runs_lift_bind fun bits => (ih _ bits).bind fun r => tells_pure ?_
        split <;> exact List.subset_append_left _ _
    | some a =>
      rw [fillParams]
      refine (scoped_passArgument hv).bind fun x => (ih _ bits).bind fun r => tells_pure ?_
      exact List.append_subset.mpr ⟨known_later (List.subset_append_left _ _), List.subset_append_left _ _⟩

theorem scoped_arguments (hv : v.Scopes) {line : Nat} {sig : Signature} {names : List String} {c : Tree.Call} :
    Tells D L K (arguments v line sig names c) fun r => exprsMentions r.1 := by
  simp only [arguments]
  refine runs_passArguments.then fun places => runs_guard fun _ => ?_
  refine (scoped_fillParams hv _ _).bind fun r => runs_lift_bind fun bits => tells_pure ?_
  exact List.subset_append_left _ _

/-! ### Steps -/

theorem scoped_callFunction (hv : v.Scopes) {line : Nat} {a : Typed.Access} {name callee : String} {sig : Signature}
    {names : List String} {c : Tree.Call} {w : Walk} (ha : a.mentions = []) (hw : w.mentions ⊆ K) :
    Tells D L K (callFunction v line a name callee sig names c w) Walk.mentions := by
  simp only [callFunction]
  refine (scoped_arguments hv).bind fun r => tells_pure (Walk.mentions_push (known_later hw) ?_)
  rw [Expr.mentions, Typed.Call.mentions, ha]
  exact List.subset_append_left _ _

theorem scoped_symbolStep (hv : v.Scopes) {m : Mode} (hm : m.mentions ⊆ K) {span : Span} {f : Found}
    {next : Option Tree.Call} {w : Walk} (hw : w.mentions ⊆ K) :
    Tells D L K (symbolStep v m span f next w) fun r => r.1.mentions := by
  simp only [symbolStep]
  refine runs_store_bind fun s => ?_
  split
  · refine tells_pure (Walk.mentions_push hw (mentions_access ?_ hm))
    split <;> exact List.nil_subset _
  · split
    · exact tells_pure (Walk.mentions_push hw (mentions_access (List.nil_subset _) (List.nil_subset _)))
    · exact (scoped_callFunction hv rfl hw).bind fun _ => tells_pure (List.subset_append_left _ _)
  · exact tells_failWith_bind
  · exact tells_failWith_bind
  · exact tells_failWith_bind
  · exact tells_pure hw

theorem scoped_pushThis {span : Span} {w : Walk} (hw : w.mentions ⊆ K) : Tells D L K (pushThis span w) Walk.mentions := by
  simp only [pushThis]
  refine runs_thisClass_bind fun c => tells_localVar.bind fun x => ?_
  split
  · refine tells_pure (Walk.mentions_push (known_later hw) (mentions_access ?_ (List.nil_subset _)))
    exact List.subset_append_left _ _
  · exact tells_failWith

theorem mentions_methodAccess {f : FuncId} {x : Func} {viaBase : Bool} : (methodAccess f x viaBase).mentions = [] := by
  unfold methodAccess
  split
  · rfl
  · split <;> rfl

theorem scoped_valueMember (hv : v.Scopes) {m : Mode} (hm : m.mentions ⊆ K) {span : Span} {name : String}
    {next : Option Tree.Call} {t : Option Ty} {viaBase : Bool} {w : Walk} (hw : w.mentions ⊆ K) :
    Tells D L K (valueMember v m span name next t viaBase w) fun r => r.1.mentions := by
  simp only [valueMember]
  refine runs_store_bind fun s => ?_
  split
  · exact tells_failWith_bind
  · exact tells_failWith_bind
  · split
    · exact tells_failWith_bind
    · refine tells_pure (Walk.mentions_push hw (mentions_access ?_ hm))
      split <;> exact List.nil_subset _
  · split
    · exact tells_failWith_bind
    · exact tells_pure (Walk.mentions_push hw (mentions_access (List.nil_subset _) (List.nil_subset _)))
  · split
    · exact tells_failWith_bind
    · exact (scoped_callFunction hv mentions_methodAccess hw).bind fun _ => tells_pure (List.subset_append_left _ _)
  · split
    · exact tells_failWith_bind
    · exact (scoped_callFunction hv rfl hw).bind fun _ => tells_pure (List.subset_append_left _ _)

theorem scoped_staticMember (hv : v.Scopes) {m : Mode} (hm : m.mentions ⊆ K) {span : Span} {name : String}
    {next : Option Tree.Call} {f : Found} {w : Walk} (hw : w.mentions ⊆ K) :
    Tells D L K (staticMember v m span name next f w) fun r => r.1.mentions := by
  simp only [staticMember]
  refine runs_store_bind fun s => ?_
  split
  · split
    · exact tells_failWith_bind
    · exact scoped_symbolStep hv hm hw
  · split
    · split
      · exact tells_pure (Walk.mentions_push hw (List.nil_subset _))
      · exact tells_failWith_bind
    · exact tells_failWith_bind
    · exact tells_failWith_bind

theorem scoped_memberStep (hv : v.Scopes) {m : Mode} (hm : m.mentions ⊆ K) {span : Span} {name : String}
    {next : Option Tree.Call} {w : Walk} (hw : w.mentions ⊆ K) :
    Tells D L K (memberStep v m span name next w) fun r => r.1.mentions := by
  unfold memberStep
  split
  · exact scoped_staticMember hv hm hw
  · exact scoped_valueMember hv hm hw
  · exact tells_pure hw

theorem scoped_indexStep (hv : v.Scopes) {m : Mode} (hm : m.mentions ⊆ K) {span : Span} {x : Tree.Expr} {w : Walk}
    (hw : w.mentions ⊆ K) : Tells D L K (indexStep v m span x w) Walk.mentions := by
  -- an index is analyzed before the access is added
  have hpush : ∀ {i : Expr} {a : Typed.Access} {t : Option Ty}, a.mentions = [] →
      (w.push (access span.start.line a "" t (i :: m.values)) t).mentions ⊆ i.mentions ++ K := fun ha =>
    Walk.mentions_push (known_later hw) (mentions_access (ha ▸ List.nil_subset _)
      (List.append_subset.mpr ⟨List.subset_append_left _ _, known_later hm⟩))
  simp only [indexStep]
  split
  · exact tells_pure hw
  · exact runs_store_bind fun s => tells_failWith
  · refine Tells.bind hv.expr fun r => ?_
    obtain ⟨i, t⟩ := r
    have ha : (if m.isWrite = true then Typed.Access.arraySet else .arrayGet).mentions = [] := by split <;> rfl
    cases t with
    | none => exact tells_pure (hpush ha)
    | some t =>
      simp only
      split
      · exact runs_typeName_bind fun _ => runs_report_bind
      · exact tells_pure (hpush ha)
  · have ha : (if m.isWrite = true then Typed.Access.mapSet else .mapGet).mentions = [] := by split <;> rfl
    exact Tells.bind hv.expr fun r => runs_checkAssignable_bind (tells_pure (hpush ha))
  · exact runs_store_bind fun s => tells_failWith

theorem scoped_callStep (hv : v.Scopes) {c : Tree.Call} {w : Walk} (hw : w.mentions ⊆ K) :
    Tells D L K (callStep v c w) Walk.mentions := by
  simp only [callStep]
  split
  · exact tells_pure hw
  · exact runs_store_bind fun s => tells_failWith
  · exact scoped_callFunction hv rfl hw
  · exact runs_store_bind fun s => tells_failWith

theorem scoped_nameStep (hv : v.Scopes) {m : Mode} (hm : m.mentions ⊆ K) {span : Span} {name : String}
    {next : Option Tree.Call} {w : Walk} (hw : w.mentions ⊆ K) :
    Tells D L K (nameStep v m span name next w) fun r => r.1.mentions := by
  rw [nameStep]
  refine tells_localVar.bind fun x => ?_
  cases x with
  | some x =>
    refine tells_pure (Walk.mentions_push (known_later hw) (mentions_access ?_ (known_later hm)))
    split <;> exact List.subset_append_left _ _
  | none =>
    refine runs_store_bind fun s => runs_thisClass_bind fun c => ?_
    -- inside and outside of classes, the name is looked up unless it is a member
    split
    all_goals
      dsimp only
      split
      · exact (scoped_pushThis hw).bind fun w' => scoped_memberStep hv (known_later hm) (List.subset_append_left _ _)
      · refine runs_lookup_bind fun f => ?_
        split
        · exact tells_failWith_bind
        · exact scoped_symbolStep hv hm hw

theorem scoped_baseStep {span : Span} {items : List Tree.Item} {w : Walk} (hw : w.mentions ⊆ K) :
    Tells D L K (baseStep span items w) Walk.mentions := by
  simp only [baseStep]
  refine runs_store_bind fun s => runs_thisClass_bind fun c => ?_
  split
  · exact tells_failWith
  · split
    · exact tells_failWith
    · refine (scoped_pushThis hw).bind fun w' => ?_
      split
      · next this _ hlast =>
        refine tells_pure (List.subset_append_of_subset_left _ fun x hx => ?_)
        obtain ⟨y, hy, hx⟩ := Typed.mem_exprsMentions.mp hx
        rcases List.mem_append.mp hy with hy | hy
        · exact Typed.mem_exprsMentions.mpr ⟨y, List.dropLast_subset _ hy, hx⟩
        · rw [List.mem_singleton.mp hy] at hx
          exact Typed.mem_exprsMentions.mpr ⟨this, List.mem_of_getLast? hlast, hx⟩
      · exact tells_pure (List.subset_append_left _ _)
    · exact tells_failWith

theorem scoped_followItems (hv : v.Scopes) {m : Mode} (hm : m.mentions ⊆ K) {items : List Tree.Item} {used : Bool}
    {w : Walk} (hw : w.mentions ⊆ K) : Tells D L K (followItems v m used items w) Walk.mentions := by
  induction items generalizing used w K with
  | nil =>
    rw [followItems]
    exact tells_pure hw
  | cons item rest ih =>
    cases used with
    | true => exact ih hm hw
    | false =>
      rw [followItems]
      split
      · exact tells_pure hw
      · cases item with
        | index span x =>
          exact (scoped_indexStep hv (Mode.mentions_last hm _) hw).bind fun w' =>
            ih (known_later hm) (List.subset_append_left _ _)
        | call c =>
          exact (scoped_callStep hv hw).bind fun w' => ih (known_later hm) (List.subset_append_left _ _)
        | member span name =>
          exact (scoped_memberStep hv (Mode.mentions_last hm _) hw).bind fun r =>
            ih (known_later hm) (List.subset_append_left _ _)

/-- An analysis of lambdas that is consistent with the scopes around it. -/
abbrev ScopesLambdas (lambda : Tree.Lambda → Analysis (Expr × Option Ty)) : Prop :=
  ∀ D L K fn, Tells D L K (lambda fn) fun r => r.1.mentions

theorem scoped_rootStep (hv : v.Scopes) {lambda : Tree.Lambda → Analysis (Expr × Option Ty)} (hl : ScopesLambdas lambda)
    {m : Mode} (hm : m.mentions ⊆ K) {c : Tree.Chain} : Tells D L K (rootStep v lambda m c) fun r => r.1.mentions := by
  obtain ⟨span, root, items⟩ := c
  have hstart : Walk.mentions { links := [], stand := .failed } ⊆ K := List.nil_subset _
  rw [rootStep]
  cases root with
  | name s name => exact scoped_nameStep hv (Mode.mentions_last hm _) hstart
  | this s => exact (scoped_pushThis hstart).bind fun w => tells_pure (List.subset_append_left _ _)
  | base s => exact (scoped_baseStep hstart).bind fun w => tells_pure (List.subset_append_left _ _)
  | paren s x =>
    refine Tells.bind hv.expr fun r => tells_pure ?_
    obtain ⟨x, t⟩ := r
    have hlinks : Walk.mentions { links := [x], stand := .failed } ⊆ x.mentions ++ K :=
      Walk.mentions_push (t := t) (known_later hstart) (List.subset_append_left _ _)
    cases t with
    | none => exact hlinks
    | some t => exact hlinks
  | lambda fn =>
    refine (hl _ _ _ fn).bind fun r => tells_pure ?_
    exact Walk.mentions_push (known_later hstart) (List.subset_append_left _ _)

/-- The mentions of a chain are consistent, given those of the value that it writes. -/
theorem scoped_chain (hv : v.Scopes) {lambda : Tree.Lambda → Analysis (Expr × Option Ty)} (hl : ScopesLambdas lambda)
    {m : Mode} (hm : m.mentions ⊆ K) {c : Tree.Chain} :
    Tells D L K (chain v lambda m c) fun r => exprsMentions r.1.links := by
  rw [chain]
  refine (scoped_rootStep hv hl hm).bind fun r => ?_
  refine (scoped_followItems hv (known_later hm) (List.subset_append_left _ _)).bind fun w => ?_
  split
  · exact tells_pure (List.subset_append_left _ _)
  · exact runs_store_bind fun s => runs_report_bind
  · split
    · exact runs_report_bind
    · exact tells_pure (List.subset_append_left _ _)

end Chains

end Weft.Analysis
