import Weft.Proofs.Analysis.Bodies

/-!
# Accepted chains

What the compiler relies on in a chain holds for every chain that is accepted: one lemma for each step of a chain,
given what holds of the phrases inside it.
-/

namespace Weft.Analysis

open Typed (Expr trustedExprs trustedStmts)

/-- What an analysis accepts has a property, given the symbols and as many slots as its body will have. It captures
variables only. -/
def Trusts {α : Type} (P : (FuncId → Prop) → Nat → α → Prop) (m : Analysis α) : Prop :=
  ∀ {pl st r st'}, st.Framed → Accepts m pl st r st' → st.Captured st' ∧ st'.Covers fun n => P st.store.OfInterface n r

/-- What an analysis accepts has a property that also depends on whether a loop is around it. It may declare
variables. -/
def TrustsIn {α : Type} (P : (FuncId → Prop) → Nat → Bool → α → Prop) (m : Analysis α) : Prop :=
  ∀ {pl st r st'}, st.Framed → Accepts m pl st r st' →
    st.Declared st' ∧ ∀ loop, (st.inLoop = true → loop = true) → st'.Covers fun n => P st.store.OfInterface n loop r

/-- The expressions that an analysis accepts are trusted. -/
abbrev TrustsExpr (m : Analysis (Expr × Option Ty)) : Prop := Trusts (fun iface n r => r.1.Trusted iface n) m

/-- What a visit accepts is trusted. -/
structure Visit.Trusted (v : Visit) : Prop where
  expr : ∀ {x expect}, TrustsExpr (v.expr x expect)
  stmt : ∀ {x}, TrustsIn trustedStmts (v.stmt x)

section Lists

variable {ι β : Type} {f : ι → Analysis β}

theorem trusts_mapM {P : (FuncId → Prop) → Nat → β → Prop} (hf : ∀ x, Trusts P (f x)) (xs : List ι) :
    Trusts (fun iface n ys => ∀ y ∈ ys, P iface n y) (xs.mapM f) := by
  intro pl st r st' hframed h
  induction xs generalizing st r with
  | nil =>
    obtain ⟨rfl, rfl⟩ := accepts_mapM_nil.mp h
    exact ⟨.refl hframed, .of fun _ => by simp⟩
  | cons x xs ih =>
    obtain ⟨y, st₁, rest, hy, hrest, rfl⟩ := accepts_mapM_cons.mp h
    obtain ⟨hc, hy⟩ := hf x hframed hy
    obtain ⟨hc', hrest⟩ := ih hc.framed hrest
    rw [hc.store] at hrest
    exact ⟨hc.trans hc', ((hy.captured hc').and hrest).imp fun n h => List.forall_mem_cons.mpr h⟩

theorem trustsIn_mapM {P : (FuncId → Prop) → Nat → Bool → β → Prop} (hf : ∀ x, TrustsIn P (f x)) (xs : List ι) :
    TrustsIn (fun iface n loop ys => ∀ y ∈ ys, P iface n loop y) (xs.mapM f) := by
  intro pl st r st' hframed h
  induction xs generalizing st r with
  | nil =>
    obtain ⟨rfl, rfl⟩ := accepts_mapM_nil.mp h
    exact ⟨.refl hframed, fun _ _ => .of fun _ => by simp⟩
  | cons x xs ih =>
    obtain ⟨y, st₁, rest, hy, hrest, rfl⟩ := accepts_mapM_cons.mp h
    obtain ⟨hd, hy⟩ := hf x hframed hy
    obtain ⟨hd', hrest⟩ := ih hd.framed hrest
    refine ⟨hd.trans hd', fun loop hloop => ?_⟩
    have hrest := hrest loop (by rw [hd.inLoop]; exact hloop)
    rw [hd.store] at hrest
    exact (((hy loop hloop).declared hd').and hrest).imp fun n h => List.forall_mem_cons.mpr h

end Lists

section Trees

variable {iface : FuncId → Prop} {n : Nat}

theorem trustedExprs_iff {xs : List Expr} : trustedExprs iface n xs ↔ ∀ x ∈ xs, x.Trusted iface n := by
  induction xs with
  | nil => simp [trustedExprs]
  | cons x xs ih => simp [trustedExprs, ih]

theorem trustedExprs_append {xs ys : List Expr} :
    trustedExprs iface n (xs ++ ys) ↔ trustedExprs iface n xs ∧ trustedExprs iface n ys := by
  simp only [trustedExprs_iff, List.mem_append]
  exact ⟨fun h => ⟨fun x hx => h x (.inl hx), fun x hx => h x (.inr hx)⟩, fun h x hx => hx.elim (h.1 x) (h.2 x)⟩

theorem trusted_call {c : Typed.Call} :
    (Expr.call c).Trusted iface n ↔ c.access.Trusted iface n ∧ trustedExprs iface n c.children := by
  obtain ⟨line, a, name, t, args, site, children⟩ := c
  simp [Expr.Trusted, Typed.Call.Trusted]

theorem trusted_links {c : Typed.Chain} : (Expr.chain c).Trusted iface n ↔ trustedExprs iface n c.links := by
  obtain ⟨line, type, yielded, links⟩ := c
  simp [Expr.Trusted]

theorem trusted_access {line : Nat} {a : Typed.Access} {name : String} {t : Option Ty} {kids : List Expr} :
    (access line a name t kids).Trusted iface n ↔ a.Trusted iface n ∧ trustedExprs iface n kids := by
  simp [access, trusted_call]

end Trees

section Chains

variable {v : Visit} {pl : Place} {st st' : State}

/-! ## Arguments -/

theorem accepts_passArguments {names : List String} {as : List Tree.Arg} {p : Passing}
    {r : List (Option Tree.Arg)} (h : Accepts (passArguments names as p) pl st r st') : st' = st := by
  induction as generalizing p with
  | nil =>
    rw [passArguments] at h
    exact (accepts_pure.mp h).2
  | cons a as ih =>
    have hgive : ∀ {p : Passing} {i : Nat}, Accepts (passArguments.give names a as p i) pl st r st' → st' = st := by
      intro p i h
      rw [passArguments.give] at h
      split at h
      · simp at h
      · simp at h
      · exact ih h
    rw [passArguments] at h
    split at h
    · simp only at h
      split at h
      · simp at h
      · exact hgive h
    · split at h
      · simp at h
      · exact hgive h

theorem trusted_passArgument (hv : v.Trusted) (hf : st.Framed) {a : Tree.Arg} {ref : Bool} {t : Ty} {x : Expr}
    (h : Accepts (passArgument v a ref t) pl st x st') : st.Captured st' ∧ st'.Covers (x.Trusted st.store.OfInterface) := by
  simp only [passArgument, accepts_guard] at h
  obtain ⟨-, -, h⟩ := h
  split at h
  · rw [accepts_bind] at h
    obtain ⟨r, st₁, hx, h⟩ := h
    simp only [accepts_checkAssignable_bind, accepts_pure] at h
    obtain ⟨-, rfl, rfl⟩ := h
    exact hv.expr hf hx
  · split at h
    · rw [accepts_bind] at h
      obtain ⟨found, st₁, hfound, h⟩ := h
      obtain ⟨hc, hslot⟩ := captured_localVar hf hfound
      split at h
      · simp at h
      · next y =>
        simp only [accepts_store_bind, accepts_guard, accepts_pure] at h
        obtain ⟨-, rfl, rfl⟩ := h
        exact ⟨hc, (hslot y rfl).imp fun n hn => trusted_access.mpr ⟨hn, True.intro⟩⟩
    · simp at h

theorem trusted_fillParams (hv : v.Trusted) {line : Nat} {span : Span} {names : List String} {required : Int}
    {count : Nat} {ps : List (Option Tree.Arg × Bool × Ty)} {i : Nat} {bits : Typed.Arguments}
    {r : List Expr × Typed.Arguments} (hf : st.Framed)
    (h : Accepts (fillParams v line span names required count i ps bits) pl st r st') :
    st.Captured st' ∧ st'.Covers fun n => trustedExprs st.store.OfInterface n r.1 := by
  induction ps generalizing st i bits r with
  | nil =>
    simp only [fillParams, accepts_pure] at h
    obtain ⟨rfl, rfl⟩ := h
    exact ⟨.refl hf, .of fun _ => True.intro⟩
  | cons p ps ih =>
    obtain ⟨arg, ref, t⟩ := p
    cases arg with
    | none =>
      simp only [fillParams] at h
      split at h
      · simp at h
      · simp only [accepts_bind, accepts_lift, accepts_pure] at h
        obtain ⟨bits', _, ⟨-, rfl⟩, rest, st₁, hrest, rfl, rfl⟩ := h
        obtain ⟨hc, hx⟩ := ih hf hrest
        refine ⟨hc, hx.imp fun n hn => ?_⟩
        split
        · exact ⟨by simp [Typed.nullLiteral, Expr.Trusted], hn⟩
        · exact hn
    | some a =>
      simp only [fillParams, accepts_bind, accepts_pure] at h
      obtain ⟨x, st₁, hx, rest, st₂, hrest, rfl, rfl⟩ := h
      obtain ⟨hc, hx⟩ := trusted_passArgument hv hf hx
      obtain ⟨hc', hxs⟩ := ih hc.framed hrest
      rw [hc.store] at hxs
      exact ⟨hc.trans hc', (hx.captured hc').and hxs⟩

theorem trusted_arguments (hv : v.Trusted) {line : Nat} {sig : Signature} {names : List String} {c : Tree.Call}
    {r : List Expr × Typed.Arguments} (hf : st.Framed) (h : Accepts (arguments v line sig names c) pl st r st') :
    st.Captured st' ∧ st'.Covers fun n => trustedExprs st.store.OfInterface n r.1 := by
  simp only [arguments, accepts_bind, accepts_guard, accepts_lift, accepts_pure] at h
  obtain ⟨places, _, hp, -, ⟨xs, _⟩, st₁, hx, bits, _, ⟨-, rfl⟩, rfl, rfl⟩ := h
  obtain rfl := accepts_passArguments hp
  have hfill := trusted_fillParams hv hf hx
  exact hfill

/-- The accesses of a chain so far. -/
def Walk.Trusted (iface : FuncId → Prop) (w : Walk) (n : Nat) : Prop := trustedExprs iface n w.links

/-- The value that a chain writes. -/
def Mode.Trusted (iface : FuncId → Prop) (m : Mode) (n : Nat) : Prop := trustedExprs iface n m.values

theorem Walk.Trusted.push {iface : FuncId → Prop} {w : Walk} {n : Nat} {x : Expr} {t : Option Ty} (h : w.Trusted iface n)
    (hx : x.Trusted iface n) : (w.push x t).Trusted iface n :=
  trustedExprs_append.mpr ⟨h, hx, True.intro⟩

theorem Mode.Trusted.last {iface : FuncId → Prop} {m : Mode} {n : Nat} (h : m.Trusted iface n) (b : Bool) :
    (m.last b).Trusted iface n := by
  unfold Mode.last
  split
  · exact h
  · exact True.intro

/-! ## Steps -/

/-- A step of a chain that captures variables only and goes on to another chain. -/
def Steps (st : State) (w : Walk) (st' : State) (w' : Walk) : Prop :=
  st.Covers (w.Trusted st.store.OfInterface) → st.Captured st' ∧ st'.Covers (w'.Trusted st.store.OfInterface)

@[simp]
theorem accepts_failWith {w w' : Walk} {span : Span} {p : Problem} : ¬Accepts (failWith w span p) pl st w' st' := by
  simp [failWith]

theorem steps_refl (hf : st.Framed) {w : Walk} {s : Stand} : Steps st w st { w with stand := s } :=
  fun hw => ⟨.refl hf, hw⟩

theorem steps_push (hf : st.Framed) {w : Walk} {x : Expr} {t : Option Ty}
    (hx : st.Covers (x.Trusted st.store.OfInterface)) : Steps st w st (w.push x t) :=
  fun hw => ⟨.refl hf, (hw.and hx).imp fun _ h => h.1.push h.2⟩

theorem trusted_callFunction (hv : v.Trusted) {line : Nat} {a : Typed.Access} {name callee : String}
    {sig : Signature} {names : List String} {c : Tree.Call} {w w' : Walk} (hf : st.Framed)
    (h : Accepts (callFunction v line a name callee sig names c w) pl st w' st') (ha : ∀ n, a.Trusted st.store.OfInterface n) :
    Steps st w st' w' := by
  intro hw
  simp only [callFunction, accepts_bind, accepts_pure] at h
  obtain ⟨⟨children, args⟩, st₁, hargs, rfl, rfl⟩ := h
  obtain ⟨hc, hx⟩ := trusted_arguments hv hf hargs
  refine ⟨hc, ((hw.captured hc).and hx).imp fun n h => h.1.push ⟨ha n, h.2⟩⟩

/-- A call that follows a name is used by it. -/
theorem trusted_callNext (hv : v.Trusted) {line : Nat} {a : Typed.Access} {name callee : String}
    {sig : Signature} {names : List String} {c : Tree.Call} {w : Walk} {r : Walk × Bool} (hf : st.Framed)
    (h : Accepts (do return (← callFunction v line a name callee sig names c w, true)) pl st r st')
    (ha : ∀ n, a.Trusted st.store.OfInterface n) :
    Steps st w st' r.1 := by
  simp only [accepts_bind, accepts_pure] at h
  obtain ⟨w', st₁, hcall, rfl, rfl⟩ := h
  exact trusted_callFunction hv hf hcall ha

theorem trusted_symbolStep (hv : v.Trusted) {m : Mode} {span : Span} {f : Found} {next : Option Tree.Call}
    {w : Walk} {r : Walk × Bool} (hf : st.Framed) (hm : st.Covers (m.Trusted st.store.OfInterface))
    (h : Accepts (symbolStep v m span f next w) pl st r st') : Steps st w st' r.1 := by
  simp only [symbolStep, accepts_store_bind] at h
  split at h
  · obtain ⟨rfl, rfl⟩ := accepts_pure.mp h
    refine steps_push hf (hm.imp fun n hn => trusted_access.mpr ⟨?_, hn⟩)
    cases m.isWrite <;> exact True.intro
  · split at h
    · obtain ⟨rfl, rfl⟩ := accepts_pure.mp h
      exact steps_push hf (.of fun n => trusted_access.mpr ⟨True.intro, True.intro⟩)
    · exact trusted_callNext hv hf h fun _ => True.intro
  · simp at h
  · simp at h
  · simp at h
  · obtain ⟨rfl, rfl⟩ := accepts_pure.mp h
    exact steps_refl hf

theorem trusted_pushThis {span : Span} {w w' : Walk} (hf : st.Framed)
    (h : Accepts (pushThis span w) pl st w' st') : Steps st w st' w' := by
  intro hw
  simp only [pushThis, accepts_thisClass_bind] at h
  rw [accepts_bind] at h
  obtain ⟨x, st₁, hx, h⟩ := h
  obtain ⟨hc, hslot⟩ := captured_localVar hf hx
  split at h
  · obtain ⟨rfl, rfl⟩ := accepts_pure.mp h
    refine ⟨hc, ((hw.captured hc).and (hslot _ rfl)).imp fun n h => h.1.push ?_⟩
    exact trusted_access.mpr ⟨h.2, True.intro⟩
  · simp at h

theorem trusted_methodAccess {s : Store} {f : FuncId} {viaBase : Bool} (n : Nat) :
    (methodAccess f (s.func f) viaBase).Trusted s.OfInterface n := by
  unfold methodAccess
  split
  · next i hi => exact ⟨i, hi⟩
  · split <;> exact True.intro

theorem trusted_valueMember (hv : v.Trusted) {m : Mode} {span : Span} {name : String} {next : Option Tree.Call}
    {t : Option Ty} {viaBase : Bool} {w : Walk} {r : Walk × Bool} (hf : st.Framed)
    (hm : st.Covers (m.Trusted st.store.OfInterface)) (h : Accepts (valueMember v m span name next t viaBase w) pl st r st') :
    Steps st w st' r.1 := by
  simp only [valueMember, accepts_store_bind] at h
  split at h
  · simp at h
  · simp at h
  · split at h
    · simp at h
    · obtain ⟨rfl, rfl⟩ := accepts_pure.mp h
      refine steps_push hf (hm.imp fun n hn => trusted_access.mpr ⟨?_, hn⟩)
      cases m.isWrite <;> exact True.intro
  · split at h
    · simp at h
    · obtain ⟨rfl, rfl⟩ := accepts_pure.mp h
      exact steps_push hf (.of fun n => trusted_access.mpr ⟨True.intro, True.intro⟩)
  · split at h
    · simp at h
    · exact trusted_callNext hv hf h trusted_methodAccess
  · split at h
    · simp at h
    · exact trusted_callNext hv hf h fun _ => True.intro

theorem trusted_staticMember (hv : v.Trusted) {m : Mode} {span : Span} {name : String} {next : Option Tree.Call}
    {f : Found} {w : Walk} {r : Walk × Bool} (hf : st.Framed) (hm : st.Covers (m.Trusted st.store.OfInterface))
    (h : Accepts (staticMember v m span name next f w) pl st r st') : Steps st w st' r.1 := by
  simp only [staticMember, accepts_store_bind] at h
  split at h
  · split at h
    · simp at h
    · exact trusted_symbolStep hv hf hm h
  · split at h
    · split at h
      · obtain ⟨rfl, rfl⟩ := accepts_pure.mp h
        exact steps_push hf (.of fun n => by simp [Expr.Trusted])
      · simp at h
    · simp at h
    · simp at h

theorem trusted_memberStep (hv : v.Trusted) {m : Mode} {span : Span} {name : String} {next : Option Tree.Call}
    {w : Walk} {r : Walk × Bool} (hf : st.Framed) (hm : st.Covers (m.Trusted st.store.OfInterface))
    (h : Accepts (memberStep v m span name next w) pl st r st') : Steps st w st' r.1 := by
  unfold memberStep at h
  split at h
  · exact trusted_staticMember hv hf hm h
  · exact trusted_valueMember hv hf hm h
  · obtain ⟨rfl, rfl⟩ := accepts_pure.mp h
    exact fun hw => ⟨.refl hf, hw⟩

theorem trusted_indexStep (hv : v.Trusted) {m : Mode} {span : Span} {x : Tree.Expr} {w w' : Walk} (hf : st.Framed)
    (hm : st.Covers (m.Trusted st.store.OfInterface)) (h : Accepts (indexStep v m span x w) pl st w' st') :
    Steps st w st' w' := by
  intro hw
  -- an index is analyzed before the access is added
  have hpush : ∀ {i : Expr} {a : Typed.Access} {t : Option Ty} {st₁ : State}, (∀ n, a.Trusted st.store.OfInterface n) →
      st.Captured st₁ → st₁.Covers (i.Trusted st.store.OfInterface) →
      st₁.Covers ((w.push (access span.start.line a "" t (i :: m.values)) t).Trusted st.store.OfInterface) := by
    intro i a t st₁ ha hc hi
    refine (((hw.and hm).captured hc).and hi).imp fun n h => h.1.1.push ?_
    exact trusted_access.mpr ⟨ha n, h.2, h.1.2⟩
  unfold indexStep at h
  split at h
  · obtain ⟨rfl, rfl⟩ := accepts_pure.mp h
    exact ⟨.refl hf, hw⟩
  · simp at h
  · rw [accepts_bind] at h
    obtain ⟨⟨i, t⟩, st₁, hi, h⟩ := h
    obtain ⟨hc, hi⟩ := hv.expr hf hi
    have hacc : ∀ n, (if m.isWrite = true then Typed.Access.arraySet else .arrayGet).Trusted st.store.OfInterface n := by
      intro n
      cases m.isWrite <;> exact True.intro
    cases t with
    | none =>
      obtain ⟨rfl, rfl⟩ := accepts_pure.mp h
      exact ⟨hc, hpush hacc hc hi⟩
    | some t =>
      simp only at h
      split at h
      · simp at h
      · obtain ⟨rfl, rfl⟩ := accepts_pure.mp h
        exact ⟨hc, hpush hacc hc hi⟩
  · rw [accepts_bind] at h
    obtain ⟨⟨k, t⟩, st₁, hk, h⟩ := h
    obtain ⟨hc, hk⟩ := hv.expr hf hk
    simp only [accepts_checkAssignable_bind, accepts_pure] at h
    obtain ⟨-, rfl, rfl⟩ := h
    refine ⟨hc, hpush ?_ hc hk⟩
    intro n
    cases m.isWrite <;> exact True.intro
  · simp at h

theorem Steps.after {w w' : Walk} {st₁ : State} (hc : st.Captured st₁) (h : Steps st₁ w st' w') :
    Steps st w st' w' := by
  intro hw
  rw [← hc.store] at hw ⊢
  obtain ⟨hc', hw'⟩ := h (hw.captured hc)
  exact ⟨hc.trans hc', hw'⟩

theorem Steps.andThen {w w' w'' : Walk} {st₁ : State} (h : Steps st w st₁ w')
    (h' : st.Captured st₁ → Steps st₁ w' st' w'') : Steps st w st' w'' := by
  intro hw
  obtain ⟨hc, hw'⟩ := h hw
  rw [← hc.store] at hw' ⊢
  obtain ⟨hc', hw''⟩ := h' hc hw'
  exact ⟨hc.trans hc', hw''⟩

theorem captured_mode {m : Mode} (hm : st.Covers (m.Trusted st.store.OfInterface)) (hc : st.Captured st') :
    st'.Covers (m.Trusted st'.store.OfInterface) := by
  rw [hc.store]
  exact hm.captured hc

theorem trusted_callStep (hv : v.Trusted) {c : Tree.Call} {w w' : Walk} (hf : st.Framed)
    (h : Accepts (callStep v c w) pl st w' st') : Steps st w st' w' := by
  unfold callStep at h
  split at h
  · obtain ⟨rfl, rfl⟩ := accepts_pure.mp h
    exact fun hw => ⟨.refl hf, hw⟩
  · simp at h
  · exact trusted_callFunction hv hf h fun _ => True.intro
  · simp at h

theorem trusted_nameStep (hv : v.Trusted) {m : Mode} {span : Span} {name : String} {next : Option Tree.Call}
    {w : Walk} {r : Walk × Bool} (hf : st.Framed) (hm : st.Covers (m.Trusted st.store.OfInterface))
    (h : Accepts (nameStep v m span name next w) pl st r st') : Steps st w st' r.1 := by
  rw [nameStep, accepts_bind] at h
  obtain ⟨x, st₁, hx, h⟩ := h
  obtain ⟨hc, hslot⟩ := captured_localVar hf hx
  cases x with
  | some x =>
    obtain ⟨rfl, rfl⟩ := accepts_pure.mp h
    refine fun hw => ⟨hc, (((hw.and hm).captured hc).and (hslot x rfl)).imp fun n h => h.1.1.push ?_⟩
    refine trusted_access.mpr ⟨?_, h.1.2⟩
    cases m.isWrite <;> exact h.2
  | none =>
    have hm := captured_mode hm hc
    refine Steps.after hc ?_
    simp only [accepts_store_bind, accepts_thisClass_bind] at h
    -- inside and outside of classes, the name is looked up unless it is a member
    split at h
    all_goals
      split at h
      · obtain ⟨w₁, st₂, hthis, h⟩ := accepts_bind.mp h
        exact (trusted_pushThis hc.framed hthis).andThen fun hc' =>
          trusted_memberStep hv hc'.framed (captured_mode hm hc') h
      · simp only [accepts_lookup_bind] at h
        split at h
        · simp at h
        · exact trusted_symbolStep hv hc.framed hm h

theorem trusted_baseStep {span : Span} {items : List Tree.Item} {w w' : Walk} (hf : st.Framed)
    (h : Accepts (baseStep span items w) pl st w' st') : Steps st w st' w' := by
  simp only [baseStep, accepts_store_bind, accepts_thisClass_bind] at h
  split at h
  · simp at h
  · split at h
    · simp at h
    · next b _ _ _ _ =>
      rw [accepts_bind] at h
      obtain ⟨w₁, st₁, hthis, h⟩ := h
      intro hw
      obtain ⟨hc, hw₁⟩ := trusted_pushThis hf hthis hw
      split at h
      · next this _ hlast =>
        obtain ⟨rfl, rfl⟩ := accepts_pure.mp h
        refine ⟨hc, hw₁.imp fun n hn => ?_⟩
        have hmem : ∀ x ∈ w₁.links, x.Trusted st.store.OfInterface n := trustedExprs_iff.mp hn
        refine trustedExprs_append.mpr ⟨trustedExprs_iff.mpr fun x hx => hmem x (List.dropLast_subset _ hx), ?_⟩
        exact ⟨⟨rfl, hmem this (List.mem_of_getLast? hlast)⟩, True.intro⟩
      · obtain ⟨rfl, rfl⟩ := accepts_pure.mp h
        exact ⟨hc, hw₁⟩
    · simp at h

theorem trusted_followItems (hv : v.Trusted) {m : Mode} {items : List Tree.Item} {used : Bool} {w w' : Walk}
    (hf : st.Framed) (hm : st.Covers (m.Trusted st.store.OfInterface)) (h : Accepts (followItems v m used items w) pl st w' st') :
    Steps st w st' w' := by
  induction items generalizing used w st with
  | nil =>
    obtain ⟨rfl, rfl⟩ : w' = w ∧ st' = st := by simpa [followItems] using h
    exact fun hw => ⟨.refl hf, hw⟩
  | cons item rest ih =>
    cases used with
    | true => exact ih hf hm h
    | false =>
      -- the rest of the chain goes on where the first step ends
      have hrest : ∀ {w₁ st₁ used}, Steps st w st₁ w₁ → Accepts (followItems v m used rest w₁) pl st₁ w' st' →
          Steps st w st' w' :=
        fun h₁ h₂ => h₁.andThen fun hc => ih hc.framed (captured_mode hm hc) h₂
      have hm' : st.Covers ((m.last rest.isEmpty).Trusted st.store.OfInterface) := hm.imp fun n hn => hn.last _
      rw [followItems] at h
      split at h
      · obtain ⟨rfl, rfl⟩ := accepts_pure.mp h
        exact fun hw => ⟨.refl hf, hw⟩
      · cases item with
        | index span x =>
          obtain ⟨w₁, st₁, h₁, h⟩ := accepts_bind.mp h
          exact hrest (trusted_indexStep hv hf hm' h₁) h
        | call c =>
          obtain ⟨w₁, st₁, h₁, h⟩ := accepts_bind.mp h
          exact hrest (trusted_callStep hv hf h₁) h
        | member span name =>
          obtain ⟨⟨w₁, used⟩, st₁, h₁, h⟩ := accepts_bind.mp h
          exact hrest (trusted_memberStep hv hf hm' h₁) h

theorem trusted_rootStep (hv : v.Trusted) {lambda : Tree.Lambda → Analysis (Expr × Option Ty)}
    (hl : ∀ fn, TrustsExpr (lambda fn)) {m : Mode} {c : Tree.Chain} {r : Walk × Bool} (hf : st.Framed)
    (hm : st.Covers (m.Trusted st.store.OfInterface)) (h : Accepts (rootStep v lambda m c) pl st r st') :
    Steps st { links := [], stand := .failed } st' r.1 := by
  -- a root that is an expression is the first access
  have hexpr : ∀ {x : Expr} {w : Walk}, w.links = [x] → st.Captured st' ∧ st'.Covers (x.Trusted st.store.OfInterface) →
      Steps st { links := [], stand := .failed } st' w := by
    intro x w hlinks hx _
    refine ⟨hx.1, hx.2.imp fun n hn => ?_⟩
    rw [Walk.Trusted, hlinks]
    exact ⟨hn, True.intro⟩
  rw [rootStep] at h
  split at h
  · exact trusted_nameStep hv hf (hm.imp fun n hn => hn.last _) h
  · obtain ⟨w, st₁, hthis, h⟩ := accepts_bind.mp h
    obtain ⟨rfl, rfl⟩ := accepts_pure.mp h
    exact trusted_pushThis hf hthis
  · obtain ⟨w, st₁, hbase, h⟩ := accepts_bind.mp h
    obtain ⟨rfl, rfl⟩ := accepts_pure.mp h
    exact trusted_baseStep hf hbase
  · obtain ⟨⟨x, t⟩, st₁, hx, h⟩ := accepts_bind.mp h
    obtain ⟨rfl, rfl⟩ := accepts_pure.mp h
    exact hexpr (by cases t <;> rfl) (hv.expr hf hx)
  · obtain ⟨⟨x, t⟩, st₁, hx, h⟩ := accepts_bind.mp h
    obtain ⟨rfl, rfl⟩ := accepts_pure.mp h
    exact hexpr rfl (hl _ hf hx)

theorem trusted_chain (hv : v.Trusted) {lambda : Tree.Lambda → Analysis (Expr × Option Ty)}
    (hl : ∀ fn, TrustsExpr (lambda fn)) {m : Mode} {c : Tree.Chain} {r : Typed.Chain × Option Ty} (hf : st.Framed)
    (hm : st.Covers (m.Trusted st.store.OfInterface)) (h : Accepts (chain v lambda m c) pl st r st') :
    st.Captured st' ∧ st'.Covers fun n => trustedExprs st.store.OfInterface n r.1.links := by
  rw [chain, accepts_bind] at h
  obtain ⟨⟨w, used⟩, st₁, hroot, h⟩ := h
  rw [accepts_bind] at h
  obtain ⟨w', st₂, hitems, h⟩ := h
  have hsteps : Steps st { links := [], stand := .failed } st₂ w' :=
    (trusted_rootStep hv hl hf hm hroot).andThen fun hc =>
      trusted_followItems hv hc.framed (captured_mode hm hc) hitems
  have hall := hsteps (.of fun _ => True.intro)
  split at h
  · obtain ⟨rfl, rfl⟩ := accepts_pure.mp h
    exact hall
  · simp at h
  · split at h
    · simp at h
    · obtain ⟨rfl, rfl⟩ := accepts_pure.mp h
      exact hall

end Chains

end Weft.Analysis
