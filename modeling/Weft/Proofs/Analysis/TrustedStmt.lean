import Weft.Proofs.Analysis.TrustedExpr

/-!
# Accepted statements

What the compiler relies on in a statement holds for every statement that is accepted, and so for everything that a
visit of any height accepts.
-/

namespace Weft.Analysis

open Typed (Expr trustedExprs trustedStmts trustedArms)

section Lists

variable {iface : FuncId → Prop} {n : Nat} {loop : Bool}

theorem trustedStmts_iff {xs : List Typed.Stmt} : trustedStmts iface n loop xs ↔ ∀ x ∈ xs, x.Trusted iface n loop := by
  induction xs with
  | nil => simp [trustedStmts]
  | cons x xs ih => simp [trustedStmts, ih]

theorem trustedArms_iff {arms : List Typed.Arm} :
    trustedArms iface n loop arms ↔ ∀ a ∈ arms, a.test.Trusted iface n ∧ a.body.Trusted iface n loop := by
  induction arms with
  | nil => simp [trustedArms]
  | cons a arms ih =>
    obtain ⟨test, body⟩ := a
    simp [trustedArms, ih, and_assoc]

theorem trusted_chainStmt {c : Typed.Chain} :
    (Typed.Stmt.expr (.chain c)).Trusted iface n loop ↔ trustedExprs iface n c.links := by
  rw [Typed.Stmt.Trusted, trusted_links]

theorem trusted_discard {c : Typed.Chain} {t : Option Ty} (h : trustedExprs iface n c.links) :
    (discard c t).Trusted iface n loop := by
  unfold discard
  split <;> simpa [Typed.Stmt.Trusted, trusted_links] using h

theorem trusted_store {c : Typed.Chain} {x : Expr} (h : trustedExprs iface n c.links) (hx : x.Trusted iface n) :
    trustedExprs iface n (c.store x).links := by
  unfold Typed.Chain.store
  split
  · next w hlast =>
    split
    · have hall := trustedExprs_iff.mp h
      refine trustedExprs_append.mpr ⟨trustedExprs_iff.mpr fun y hy => hall y (List.dropLast_subset _ hy), ?_⟩
      obtain ⟨ha, hchildren⟩ := trusted_call.mp (hall _ (List.mem_of_getLast? hlast))
      exact ⟨trusted_call.mpr ⟨ha, trustedExprs_append.mpr ⟨hchildren, hx, True.intro⟩⟩, True.intro⟩
    · exact h
  · exact h

end Lists

section Statements

variable {v : Visit} {pl : Place} {st st' : State}

/-! ## Blocks, conditions and jumps -/

section Enclosed

variable {α : Type} {P : (FuncId → Prop) → Nat → Bool → α → Prop} {m : Analysis α}

theorem trustsIn_inBlock (hm : TrustsIn P m) : TrustsIn P (inBlock m) := by
  intro pl st r st' hf h
  have hall : st.Declared st' ∧
      st'.Covers fun n => ∀ loop, (st.inLoop = true → loop = true) → P st.store.OfInterface n loop r := by
    refine declared_inBlock hf h ?_
    intro st₁ st₂ hf hloop hstore h
    obtain ⟨hd, hr⟩ := hm hf h
    rw [hloop, hstore] at hr
    exact ⟨hd, fun n hn loop hl => hr loop hl n hn⟩
  exact ⟨hall.1, fun loop hl n hn => hall.2 n hn loop hl⟩

theorem trustsIn_defer (hm : TrustsIn P m) : TrustsIn P (inside .defer m) := by
  intro pl st r st' hf h
  have hall : st.Declared st' ∧
      st'.Covers fun n => ∀ loop, (st.inLoop = true → loop = true) → P st.store.OfInterface n loop r := by
    refine declared_inside hf h ?_
    intro st₁ st₂ hf hloop hstore h
    obtain ⟨hd, hr⟩ := hm hf h
    rw [hloop rfl, hstore] at hr
    exact ⟨hd, fun n hn loop hl => hr loop hl n hn⟩
  exact ⟨hall.1, fun loop hl n hn => hall.2 n hn loop hl⟩

/-- Inside a loop, jumps are allowed wherever the loop stands. -/
theorem trustsIn_loop (hm : TrustsIn P m) : TrustsIn (fun iface n _ => P iface n true) (inside .loop m) := by
  intro pl st r st' hf h
  obtain ⟨hd, hr⟩ : st.Declared st' ∧ st'.Covers fun n => P st.store.OfInterface n true r := by
    refine declared_inside hf h ?_
    intro st₁ st₂ hf _ hstore h
    obtain ⟨hd, hr⟩ := hm hf h
    rw [hstore] at hr
    exact ⟨hd, hr true fun _ => rfl⟩
  exact ⟨hd, fun _ _ => hr⟩

end Enclosed

theorem trusted_group (hv : v.Trusted) (kind : Typed.Grouping) (b : Tree.Block) :
    TrustsIn Typed.Block.Trusted (group v kind b) := by
  intro pl st r st' hf h
  rw [group, accepts_bind] at h
  obtain ⟨ss, st₁, hss, h⟩ := h
  obtain ⟨rfl, rfl⟩ := accepts_pure.mp h
  exact trustsIn_inBlock (trusted_stmts hv b.stmts) hf hss

theorem trusted_loopBody (hv : v.Trusted) (b : Tree.Block) :
    TrustsIn (fun iface n _ => Typed.Block.Trusted iface n true) (loopBody v b) :=
  trustsIn_loop (trusted_group hv .seq b)

theorem trusted_condition (hv : v.Trusted) (x : Tree.Expr) : Trusts Expr.Trusted (condition v x) := by
  intro pl st r st' hf h
  rw [condition, accepts_bind] at h
  obtain ⟨⟨c, t⟩, st₁, hc, h⟩ := h
  cases t with
  | none =>
    obtain ⟨rfl, rfl⟩ := accepts_pure.mp h
    exact hv.expr hf hc
  | some t =>
    simp only at h
    split at h
    · simp at h
    · obtain ⟨rfl, rfl⟩ := accepts_pure.mp h
      exact hv.expr hf hc

theorem accepts_checkJump {span : Span} {word : String} {u : Unit} (h : Accepts (checkJump span word) pl st u st') :
    st' = st ∧ st.inLoop = true := by
  simp only [checkJump, accepts_body_bind, accepts_guard_last, accepts_pure] at h
  obtain ⟨hloop, -, -, rfl⟩ := h
  refine ⟨rfl, ?_⟩
  rcases hb : st'.bodies with _ | ⟨b, outer⟩
  · simp [hb, Body.loopState, Body.empty] at hloop
  · simpa [State.inLoop, hb, Body.loopState] using hloop

theorem trusted_conditions (hv : v.Trusted) (i : Tree.If) : TrustsIn Typed.Block.Trusted (conditions v i) := by
  intro pl st r st' hf h
  rw [conditions, accepts_bind] at h
  obtain ⟨arms, st₁, harms, h⟩ := h
  obtain ⟨other, st₂, hother, h⟩ := accepts_bind.mp h
  obtain ⟨rfl, rfl⟩ := accepts_pure.mp h
  have hone : st.Declared st₁ ∧ ∀ loop, (st.inLoop = true → loop = true) →
      st₁.Covers fun n => ∀ a ∈ arms, a.test.Trusted st.store.OfInterface n ∧ a.body.Trusted st.store.OfInterface n loop := by
    refine trustsIn_mapM (P := fun iface n loop a => a.test.Trusted iface n ∧ a.body.Trusted iface n loop) (fun a => ?_) i.arms hf
      harms
    intro pl st r st' hf h
    obtain ⟨x, b⟩ := a
    obtain ⟨test, st₁, htest, h⟩ := accepts_bind.mp h
    obtain ⟨body, st₂, hbody, h⟩ := accepts_bind.mp h
    obtain ⟨rfl, rfl⟩ := accepts_pure.mp h
    obtain ⟨hc, htest⟩ := trusted_condition hv x hf htest
    obtain ⟨hd, hbody⟩ := trusted_group hv .seq b hc.framed hbody
    rw [hc.store] at hbody
    refine ⟨hc.declared.trans hd, fun loop hl => ?_⟩
    exact (htest.declared hd).and (hbody loop (by rw [hc.declared.inLoop]; exact hl))
  obtain ⟨hd, harms⟩ := hone
  cases hlast : i.last? with
  | none =>
    rw [hlast] at hother
    obtain ⟨rfl, rfl⟩ : other = none ∧ st' = st₁ := by simpa using hother
    exact ⟨hd, fun loop hl => (harms loop hl).imp fun n h => trustedArms_iff.mpr h⟩
  | some b =>
    rw [hlast] at hother
    obtain ⟨body, hbody, rfl⟩ : ∃ body, Accepts (group v .seq b) pl st₁ body st' ∧ other = some body := by
      simpa using hother
    obtain ⟨hd', hbody⟩ := trusted_group hv .seq b hd.framed hbody
    rw [hd.store] at hbody
    refine ⟨hd.trans hd', fun loop hl => ?_⟩
    exact (((harms loop hl).declared hd').and (hbody loop (by rw [hd.inLoop]; exact hl))).imp fun n h =>
      ⟨trustedArms_iff.mpr h.1, h.2⟩

theorem trusted_loopStmt (hv : v.Trusted) (x : Option Tree.Stmt) : TrustsIn trustedStmts (loopStmt v x) := by
  intro pl st r st' hf h
  cases x with
  | some x => exact hv.stmt hf h
  | none =>
    obtain ⟨rfl, rfl⟩ := accepts_pure.mp h
    exact ⟨.refl hf, fun _ _ => .of fun _ => True.intro⟩

theorem trusted_loopTest (hv : v.Trusted) (line : Nat) (x : Option Tree.Expr) :
    Trusts Expr.Trusted (loopTest v line x) := by
  intro pl st r st' hf h
  cases x with
  | some x => exact trusted_condition hv x hf h
  | none =>
    obtain ⟨rfl, rfl⟩ := accepts_pure.mp h
    exact ⟨.refl hf, .of fun n => by simp [Typed.boolLiteral, Expr.Trusted]⟩

theorem trusted_forLoop (hv : v.Trusted) (span : Span) (init : Option Tree.Stmt) (cond : Option Tree.Expr)
    (post : Option Tree.Stmt) (b : Tree.Block) : TrustsIn Typed.Stmt.Trusted (forLoop v span init cond post b) := by
  refine trustsIn_inBlock ?_
  intro pl st r st' hf h
  obtain ⟨first, st₁, hfirst, h₁⟩ := accepts_bind.mp h
  obtain ⟨test, st₂, htest, h₂⟩ := accepts_bind.mp h₁
  obtain ⟨inner, st₃, hinner, h₃⟩ := accepts_bind.mp h₂
  obtain ⟨after, st₄, hafter, h₄⟩ := accepts_bind.mp h₃
  obtain ⟨rfl, rfl⟩ := accepts_pure.mp h₄
  obtain ⟨hd₁, hfirst⟩ := trusted_loopStmt hv init hf hfirst
  obtain ⟨hc₂, htest⟩ := trusted_loopTest hv _ cond hd₁.framed htest
  obtain ⟨hd₃, hinner⟩ := trusted_loopBody hv b hc₂.framed hinner
  obtain ⟨hd₄, hafter⟩ := trusted_loopStmt hv post hd₃.framed hafter
  have hinner := hinner true fun _ => rfl
  have hafter := hafter true fun _ => rfl
  rw [hd₃.store, hc₂.store, hd₁.store] at hafter
  rw [hc₂.store, hd₁.store] at hinner
  rw [hd₁.store] at htest
  have hd₂ := hc₂.declared
  refine ⟨((hd₁.trans hd₂).trans hd₃).trans hd₄, fun loop hloop => ?_⟩
  have hloops := ((htest.declared (hd₃.trans hd₄)).and (hinner.declared hd₄)).and hafter
  refine (((hfirst loop hloop).declared ((hd₂.trans hd₃).trans hd₄)).and hloops).imp fun n h => ?_
  exact trustedStmts_append.mpr ⟨h.1, ⟨h.2.1.1, h.2.1.2, h.2.2⟩, True.intro⟩

theorem trusted_wordBlock (hv : v.Trusted) (w : Tree.BlockWord) (b : Tree.Block) :
    TrustsIn Typed.Block.Trusted (wordBlock v w b) := by
  cases w with
  | defer => exact trustsIn_defer (trusted_group hv .defer b)
  | seq | paral | paralAll => exact trusted_group hv _ b

/-! ## Returns and yields -/

theorem trustsIn_yielding {m : Analysis (List Typed.Stmt)} (span : Span) (hm : TrustsIn trustedStmts m) :
    TrustsIn trustedStmts (yielding span m) := by
  intro pl st r st' hf h
  simp only [yielding, accepts_body_bind, accepts_guard, accepts_updateBody_bind] at h
  obtain ⟨hd, hr⟩ := hm (hf.update keeps_hasYield) h.2
  refine ⟨?_, fun loop hloop => hr loop ?_⟩
  · refine State.Declared.after ?_ hd
    intro b b' hg
    exact ⟨hg.sig, hg.cls, hg.around, hg.slots⟩
  · have hsame := @inLoop_update st (fun b => { b with hasYield := true }) fun _ => rfl
    rw [hsame]
    exact hloop

/-- The values of a return. -/
theorem trusted_returnStmt (hv : v.Trusted) (span : Span) (values : List Tree.Expr) :
    Trusts (fun iface n r => ∀ loop, r.Trusted iface n loop) (returnStmt v span values) := by
  intro pl st r st' hf h
  simp only [returnStmt, accepts_body_bind, accepts_guard] at h
  obtain ⟨-, h⟩ := h
  split at h
  · simp only [accepts_guard, accepts_pure] at h
    obtain ⟨-, rfl, rfl⟩ := h
    exact ⟨.refl hf, .of fun _ _ => True.intro⟩
  · simp only [accepts_guard] at h
    obtain ⟨⟨x, t⟩, st₁, hx, h₁⟩ := accepts_bind.mp h.2
    simp only [accepts_checkAssignable_bind, accepts_pure] at h₁
    obtain ⟨-, rfl, rfl⟩ := h₁
    obtain ⟨hc, hx⟩ := hv.expr hf hx
    exact ⟨hc, hx.imp fun n h _ => ⟨h, True.intro⟩⟩
  · simp only [accepts_guard] at h
    obtain ⟨-, -, h⟩ := h
    obtain ⟨xs, st₁, hxs, h₁⟩ := accepts_bind.mp h
    obtain ⟨rfl, rfl⟩ := accepts_pure.mp h₁
    have hall : st.Captured st' ∧ st'.Covers fun n => ∀ x ∈ xs, x.Trusted st.store.OfInterface n := by
      refine trusts_mapM (P := fun iface n x => x.Trusted iface n) (fun x => ?_) _ hf hxs
      intro pl st r st' hf h
      obtain ⟨⟨y, t⟩, st₁, hy, h₁⟩ := accepts_bind.mp h
      simp only [accepts_checkAssignable_bind, accepts_pure] at h₁
      obtain ⟨-, rfl, rfl⟩ := h₁
      exact hv.expr hf hy
    exact ⟨hall.1, hall.2.imp fun n h _ => trustedExprs_iff.mpr h⟩

/-! ## Variables -/

theorem accepts_inferType {d : Tree.VarDecl} {name : String} {t r : Option Ty}
    (h : Accepts (inferType d name t) pl st r st') : st' = st := by
  unfold inferType at h
  split at h
  · simp at h
  · exact (accepts_pure.mp h).2
  · split at h
    · simp at h
    · split at h
      · simp at h
      · exact (accepts_pure.mp h).2

theorem accepts_singleType {d : Tree.VarDecl} {name : String} {written : Option Tree.TypeExpr} {t initType r : Option Ty}
    (h : Accepts (singleType d name written t initType) pl st r st') : st' = st := by
  cases written with
  | none => exact accepts_inferType h
  | some te =>
    simp only [singleType, accepts_checkAssignable_bind, accepts_pure] at h
    exact h.2.2

theorem accepts_variableType {d : Tree.VarDecl} {name : String} {written : Option Tree.TypeExpr}
    {t item r : Option Ty} (h : Accepts (variableType d name written t item) pl st r st') : st' = st := by
  unfold variableType at h
  split at h
  · exact (accepts_pure.mp h).2
  · simp at h
  · simp only [accepts_checkAssignable_bind, accepts_pure] at h
    exact h.2.2

theorem accepts_valueTypes {span : Span} {n : Nat} {t : Option Ty} {r : Option (List Ty)}
    (h : Accepts (valueTypes span n t) pl st r st') : st' = st := by
  cases t with
  | none => exact (accepts_pure.mp h).2
  | some t =>
    simp only [valueTypes] at h
    split at h <;> split at h <;> simp_all

theorem accepts_itemTypes {x : Option Tree.Expr} {n : Nat} {t : Option Ty} {r : Option (Option (List Ty))}
    (h : Accepts (x.mapM fun x => valueTypes x.span n t) pl st r st') : st' = st := by
  cases x with
  | none =>
    simp only [Option.mapM_none, accepts_pure] at h
    exact h.2
  | some x =>
    simp only [Option.mapM_some, accepts_map] at h
    obtain ⟨items, h, -⟩ := h
    exact accepts_valueTypes h

theorem accepts_writtenType {te : Option Tree.TypeExpr} {r : Option Ty} (h : Accepts (writtenType te) pl st r st') :
    st' = st := by
  cases te with
  | none =>
    simp only [writtenType, Option.mapM_none, pure_bind, accepts_pure] at h
    exact h.2
  | some te =>
    simp only [writtenType, Option.mapM_some, bind_pure_comp, accepts_map] at h
    obtain ⟨_, ⟨t, ht, -⟩, -⟩ := h
    exact (accepts_resolveType te ht).1

theorem declared_declareLocal {span : Span} {name : String} {t : Option Ty} {x : LocalVar} (hf : st.Framed)
    (h : Accepts (declareLocal span name t) pl st x st') :
    st.Declared st' ∧ st'.Covers x.InFrame ∧ x.type.isSome = true := by
  simp only [declareLocal, accepts_body_bind, accepts_guard] at h
  obtain ⟨hd, hslot, htype, -⟩ := declared_declare hf h.2
  exact ⟨hd, hslot, by simp [htype]⟩

theorem declared_declareVars {d : Tree.VarDecl} {vars : List ((String × Option Tree.TypeExpr) × Option Ty)} {i : Nat}
    {items : Option (List Ty)} {xs : List LocalVar} (hf : st.Framed)
    (h : Accepts (declareVars d i vars items) pl st xs st') :
    st.Declared st' ∧ st'.Covers fun n => ∀ x ∈ xs, x.InFrame n ∧ x.type.isSome = true := by
  induction vars generalizing i st xs with
  | nil =>
    obtain ⟨rfl, rfl⟩ := accepts_pure.mp h
    exact ⟨.refl hf, .of fun _ => by simp⟩
  | cons x vars ih =>
    obtain ⟨⟨name, written⟩, t⟩ := x
    rw [declareVars, accepts_bind] at h
    obtain ⟨t', st₁, ht, h⟩ := h
    obtain rfl := accepts_variableType ht
    obtain ⟨y, st₂, hy, h₁⟩ := accepts_bind.mp h
    obtain ⟨rest, st₃, hrest, h₂⟩ := accepts_bind.mp h₁
    obtain ⟨rfl, rfl⟩ := accepts_pure.mp h₂
    obtain ⟨hd, hslot, htype⟩ := declared_declareLocal hf hy
    obtain ⟨hd', hrest⟩ := ih hd.framed hrest
    exact ⟨hd.trans hd', ((hslot.declared hd').and hrest).imp fun n h =>
      List.forall_mem_cons.mpr ⟨⟨h.1, htype⟩, h.2⟩⟩

/-- The first value of a variable, if it has one. -/
theorem trusted_initial (hv : v.Trusted) (x : Option Tree.Expr) (expect : Option Ty) :
    Trusts (fun iface n r => ∀ y ∈ r, y.1.Trusted iface n) (x.mapM (v.expr · expect)) := by
  intro pl st r st' hf h
  cases x with
  | none =>
    simp only [Option.mapM_none, accepts_pure] at h
    obtain ⟨rfl, rfl⟩ := h
    exact ⟨.refl hf, .of fun _ => by simp⟩
  | some x =>
    simp only [Option.mapM_some, accepts_map] at h
    obtain ⟨y, hy, rfl⟩ := h
    obtain ⟨hc, hy⟩ := hv.expr hf hy
    exact ⟨hc, hy.imp fun n h => by simpa using h⟩

theorem trusted_varStmt (hv : v.Trusted) (d : Tree.VarDecl) : TrustsIn trustedStmts (varStmt v d) := by
  intro pl st r st' hf h
  rw [varStmt, accepts_bind] at h
  obtain ⟨types, st₁, htypes, h⟩ := h
  obtain ⟨rfl, -⟩ : st₁ = st ∧ ∀ t ∈ types, True := by
    refine accepts_mapM (R := fun st st' => st' = st) (P := fun _ => True) (fun _ => rfl) (fun h h' => h'.trans h)
      (fun _ _ => True.intro) ?_ (by simp) htypes
    intro x _ st t st' h
    exact ⟨accepts_writtenType h, True.intro⟩
  obtain ⟨init, st₂, hinit, h₁⟩ := accepts_bind.mp h
  obtain ⟨hc, htrusted⟩ := trusted_initial hv d.init _ hf hinit
  simp only at h₁
  split at h₁
  · obtain ⟨t, st₃, ht, h₂⟩ := accepts_bind.mp h₁
    obtain rfl := accepts_singleType ht
    obtain ⟨x, st₄, hx, h₃⟩ := accepts_bind.mp h₂
    obtain ⟨rfl, rfl⟩ := accepts_pure.mp h₃
    obtain ⟨hd, hslot, htype⟩ := declared_declareLocal hc.framed hx
    refine ⟨hc.declared.trans hd, fun loop _ => (hslot.and (htrusted.declared hd)).imp fun n h => ⟨?_, True.intro⟩⟩
    cases init with
    | none => exact ⟨h.1, htype⟩
    | some y => exact ⟨h.1, h.2 y rfl⟩
  · obtain ⟨items, st₃, hitems, h₂⟩ := accepts_bind.mp h₁
    obtain rfl := accepts_itemTypes hitems
    obtain ⟨xs, st₄, hxs, h₃⟩ := accepts_bind.mp h₂
    obtain ⟨hd, hslots⟩ := declared_declareVars hc.framed hxs
    -- the declarations, and the stores of the values that one expression leaves
    have hdecls : ∀ {n loop}, (∀ x ∈ xs, x.InFrame n ∧ x.type.isSome = true) →
        trustedStmts st₁.store.OfInterface n loop
          (xs.map fun x => Typed.Stmt.var { line := d.span.start.line, var := x, init := none }) := by
      intro n loop h
      refine trustedStmts_iff.mpr fun y hy => ?_
      obtain ⟨x, hx, rfl⟩ := List.mem_map.mp hy
      exact h x hx
    have hstores : ∀ {n loop}, (∀ x ∈ xs, x.InFrame n ∧ x.type.isSome = true) →
        trustedStmts st₁.store.OfInterface n loop (xs.reverse.map (storeLocal d.span.start.line)) := by
      intro n loop h
      refine trustedStmts_iff.mpr fun y hy => ?_
      obtain ⟨x, hx, rfl⟩ := List.mem_map.mp hy
      have hslot := (h x (List.mem_reverse.mp hx)).1
      exact trusted_chainStmt.mpr ⟨trusted_access.mpr ⟨hslot, True.intro⟩, True.intro⟩
    split at h₃
    · obtain ⟨rfl, rfl⟩ := accepts_pure.mp h₃
      exact ⟨hc.declared.trans hd, fun loop _ => hslots.imp fun n h => hdecls h⟩
    · next value _ =>
      obtain ⟨rfl, rfl⟩ := accepts_pure.mp h₃
      refine ⟨hc.declared.trans hd, fun loop _ => (hslots.and (htrusted.declared hd)).imp fun n h => ?_⟩
      have hvalue : trustedStmts st₁.store.OfInterface n loop [.expr value] := ⟨h.2 _ rfl, True.intro⟩
      exact trustedStmts_append.mpr ⟨trustedStmts_append.mpr ⟨hdecls h.1, hvalue⟩, hstores h.1⟩

/-! ## Assignments -/

theorem trusted_chainOf (hv : v.Trusted) {m : Mode} (c : Tree.Chain) {r : Typed.Chain × Option Ty} (hf : st.Framed)
    (hm : st.Covers (m.Trusted st.store.OfInterface)) (h : Accepts (chainOf v m c) pl st r st') :
    st.Captured st' ∧ st'.Covers fun n => trustedExprs st.store.OfInterface n r.1.links :=
  trusted_chain hv (trusted_lambda hv) hf hm h

theorem trusted_setStmt (hv : v.Trusted) (target : Tree.Chain) (value : Tree.Expr) :
    Trusts (fun iface n r => ∀ loop, trustedStmts iface n loop r) (setStmt v target value) := by
  intro pl st r st' hf h
  rw [setStmt, accepts_bind] at h
  obtain ⟨⟨c, t⟩, st₁, hchain, h⟩ := h
  obtain ⟨⟨x, xt⟩, st₂, hx, h₁⟩ := accepts_bind.mp h
  simp only [accepts_checkAssignable_bind, accepts_pure] at h₁
  obtain ⟨-, rfl, rfl⟩ := h₁
  obtain ⟨hc, hchain⟩ := trusted_chainOf (m := .write none) hv target hf (.of fun _ => True.intro) hchain
  obtain ⟨hc', hx⟩ := hv.expr hc.framed hx
  rw [hc.store] at hx
  refine ⟨hc.trans hc', ((hchain.captured hc').and hx).imp fun n h loop => ?_⟩
  exact ⟨trusted_chainStmt.mpr (trusted_store h.1 h.2), True.intro⟩

theorem trusted_updateStmt (hv : v.Trusted) (span : Span) (op : BinaryOp) (target : Tree.Chain) (value : Tree.Expr) :
    Trusts (fun iface n r => ∀ loop, trustedStmts iface n loop r) (updateStmt v span op target value) := by
  intro pl st r st' hf h
  unfold updateStmt at h
  split at h
  · simp at h
  · obtain ⟨⟨c, l⟩, st₁, hread, h₁⟩ := accepts_bind.mp h
    obtain ⟨⟨x, r⟩, st₂, hx, h₂⟩ := accepts_bind.mp h₁
    obtain ⟨t, st₃, ht, h₃⟩ := accepts_bind.mp h₂
    obtain rfl := accepts_updateType ht
    obtain ⟨⟨w, _⟩, st₄, hwrite, h₄⟩ := accepts_bind.mp h₃
    obtain ⟨rfl, rfl⟩ := accepts_pure.mp h₄
    obtain ⟨hc, hread⟩ := trusted_chainOf (m := .read) hv target hf (.of fun _ => True.intro) hread
    obtain ⟨hc', hx⟩ := hv.expr hc.framed hx
    rw [hc.store] at hx
    have hsum : st₃.Covers fun n => (Typed.Expr.binary span.start.line op t (.chain c) x).Trusted st.store.OfInterface n :=
      ((hread.captured hc').and hx).imp fun n h => ⟨trusted_links.mpr h.1, h.2⟩
    obtain ⟨hc'', hwrite⟩ := trusted_chainOf hv target hc'.framed (m := .write (some _)) (by
      rw [hc'.store, hc.store]
      exact hsum.imp fun n h => ⟨h, True.intro⟩) hwrite
    rw [hc'.store, hc.store] at hwrite
    exact ⟨(hc.trans hc').trans hc'', hwrite.imp fun n h loop => ⟨trusted_chainStmt.mpr h, True.intro⟩⟩

theorem trusted_targets (hv : v.Trusted) (xs : List Tree.Expr) (i : Nat) (items : Option (List Ty)) :
    Trusts (fun iface n r => ∀ ws ∈ r, ∀ loop, trustedStmts iface n loop ws) (targets v i xs items) := by
  intro pl st r st' hf h
  induction xs generalizing i st r with
  | nil =>
    obtain ⟨rfl, rfl⟩ := accepts_pure.mp h
    exact ⟨.refl hf, .of fun _ => by simp [trustedStmts]⟩
  | cons x xs ih =>
    unfold targets at h
    split at h
    · obtain ⟨⟨c, t⟩, st₁, hchain, h₁⟩ := accepts_bind.mp h
      obtain ⟨hc, hchain⟩ := trusted_chainOf (m := .write none) hv _ hf (.of fun _ => True.intro) hchain
      have hrest : Accepts (do return (← targets v (i + 1) xs items).map (.expr (.chain c) :: ·)) pl st₁ r st' := by
        simp only at h₁
        split at h₁
        · simp only [accepts_checkAssignable_bind] at h₁
          exact h₁.2
        · exact h₁
      obtain ⟨ws, st₂, hws, h₂⟩ := accepts_bind.mp hrest
      obtain ⟨rfl, rfl⟩ := accepts_pure.mp h₂
      obtain ⟨hc', hws⟩ := ih _ hc.framed hws
      rw [hc.store] at hws
      refine ⟨hc.trans hc', ((hchain.captured hc').and hws).imp fun n h => ?_⟩
      cases ws with
      | none => simp
      | some ws =>
        intro ws' hws' loop
        obtain rfl : _ :: ws = ws' := by simpa using hws'
        exact ⟨trusted_chainStmt.mpr h.1, h.2 ws rfl loop⟩
    · simp at h

theorem trusted_multiStmt (hv : v.Trusted) (span : Span) (xs : List Tree.Expr) (op : AssignOp) (value : Tree.Expr) :
    Trusts (fun iface n r => ∀ loop, trustedStmts iface n loop r) (multiStmt v span xs op value) := by
  intro pl st r st' hf h
  unfold multiStmt at h
  split at h
  · simp at h
  · obtain ⟨⟨x, t⟩, st₁, hx, h₁⟩ := accepts_bind.mp h
    obtain ⟨items, st₂, hitems, h₂⟩ := accepts_bind.mp h₁
    obtain rfl := accepts_valueTypes hitems
    obtain ⟨ws, st₃, hws, h₃⟩ := accepts_bind.mp h₂
    obtain ⟨hc, hx⟩ := hv.expr hf hx
    obtain ⟨hc', hws⟩ := trusted_targets hv xs 0 items hc.framed hws
    rw [hc.store] at hws
    cases ws with
    | none =>
      obtain ⟨rfl, rfl⟩ := accepts_pure.mp h₃
      exact ⟨hc.trans hc', .of fun _ _ => True.intro⟩
    | some ws =>
      obtain ⟨rfl, rfl⟩ := accepts_pure.mp h₃
      refine ⟨hc.trans hc', ((hx.captured hc').and hws).imp fun n h loop => ⟨h.1, ?_⟩⟩
      have hws := trustedStmts_iff.mp (h.2 ws rfl loop)
      exact trustedStmts_iff.mpr fun w hw => hws w (List.mem_reverse.mp hw)

theorem trusted_assignStmt (hv : v.Trusted) (span : Span) (xs : List Tree.Expr) (op : AssignOp) (value : Tree.Expr) :
    Trusts (fun iface n r => ∀ loop, trustedStmts iface n loop r) (assignStmt v span xs op value) := by
  intro pl st r st' hf h
  unfold assignStmt at h
  split at h
  · split at h
    · exact trusted_setStmt hv _ value hf h
    · exact trusted_updateStmt hv span _ _ value hf h
  · simp at h
  · exact trusted_multiStmt hv span xs op value hf h

/-! ## All statements -/

theorem trusts_stmts {m : Analysis (List Typed.Stmt)} (hm : Trusts (fun iface n r => ∀ loop, trustedStmts iface n loop r) m) :
    TrustsIn trustedStmts m := by
  intro pl st r st' hf h
  obtain ⟨hc, hr⟩ := hm hf h
  exact ⟨hc.declared, fun loop _ => hr.imp fun n h => h loop⟩

/-- A statement that is a block. -/
theorem trustsIn_block {m : Analysis Typed.Block} (hm : TrustsIn Typed.Block.Trusted m) :
    TrustsIn trustedStmts (do return [.block (← m)]) := by
  intro pl st r st' hf h
  obtain ⟨b, st₁, hb, h⟩ := accepts_bind.mp h
  obtain ⟨rfl, rfl⟩ := accepts_pure.mp h
  obtain ⟨hd, hb⟩ := hm hf hb
  exact ⟨hd, fun loop hl => (hb loop hl).imp fun n h => ⟨h, True.intro⟩⟩

/-- A call as a statement. -/
theorem trusted_callStmt (hv : v.Trusted) (c : Tree.Chain) (f : Typed.Chain → Typed.Chain)
    (hf : ∀ c, (f c).links = c.links) :
    TrustsIn trustedStmts (do
      let (c, t) ← chainOf v .read c
      return [discard (f c) t]) := by
  refine trusts_stmts ?_
  intro pl st r st' hframed h
  obtain ⟨⟨c, t⟩, st₁, hc, h⟩ := accepts_bind.mp h
  obtain ⟨rfl, rfl⟩ := accepts_pure.mp h
  obtain ⟨hc, hlinks⟩ := trusted_chainOf (m := .read) hv _ hframed (.of fun _ => True.intro) hc
  exact ⟨hc, hlinks.imp fun n h loop => ⟨trusted_discard (by rw [hf]; exact h), True.intro⟩⟩

theorem trusted_stmtStep (hv : v.Trusted) (x : Tree.Stmt) : TrustsIn trustedStmts (stmtStep v x) := by
  intro pl st r st' hf h
  -- a jump stands in a loop
  have hjump : ∀ (span word) (jump : Typed.Stmt), (∀ iface n, jump.Trusted iface n true) →
      Accepts (do
        checkJump span word
        return [jump]) pl st r st' → st.Declared st' ∧ ∀ loop, (st.inLoop = true → loop = true) →
          st'.Covers fun n => trustedStmts st.store.OfInterface n loop r := by
    intro span word jump hjump h
    obtain ⟨_, st₁, hcheck, h⟩ := accepts_bind.mp h
    obtain ⟨rfl, rfl⟩ := accepts_pure.mp h
    obtain ⟨rfl, hloop⟩ := accepts_checkJump hcheck
    refine ⟨.refl hf, fun loop hl => .of fun n => ⟨?_, True.intro⟩⟩
    rw [hl hloop]
    exact hjump _ n
  cases x with
  | block b => exact trustsIn_block (trusted_group hv .seq b) hf h
  | var d => exact trusted_varStmt hv d hf h
  | expr span x =>
    simp only [stmtStep] at h
    split at h
    · simp at h
    · exact trusted_callStmt hv _ id (fun _ => rfl) hf h
  | assign span xs op value => exact trusts_stmts (trusted_assignStmt hv span xs op value) hf h
  | ret span values =>
    obtain ⟨y, st₁, hy, h⟩ := accepts_bind.mp h
    obtain ⟨rfl, rfl⟩ := accepts_pure.mp h
    obtain ⟨hc, hy⟩ := trusted_returnStmt hv span values hf hy
    exact ⟨hc.declared, fun loop _ => hy.imp fun n h => ⟨h loop, True.intro⟩⟩
  | brk span => exact hjump _ _ (.brk span.start.line) (fun _ _ => rfl) h
  | cont span => exact hjump _ _ (.cont span.start.line) (fun _ _ => rfl) h
  | cond i => exact trustsIn_block (trusted_conditions hv i) hf h
  | whileLoop span x b =>
    obtain ⟨test, st₁, htest, h₁⟩ := accepts_bind.mp h
    obtain ⟨inner, st₂, hinner, h₂⟩ := accepts_bind.mp h₁
    obtain ⟨rfl, rfl⟩ := accepts_pure.mp h₂
    obtain ⟨hc, htest⟩ := trusted_condition hv x hf htest
    obtain ⟨hd, hinner⟩ := trusted_loopBody hv b hc.framed hinner
    have hinner := hinner true fun _ => rfl
    rw [hc.store] at hinner
    exact ⟨hc.declared.trans hd, fun loop _ => ((htest.declared hd).and hinner).imp fun n h => ⟨h, True.intro⟩⟩
  | doLoop span b x =>
    obtain ⟨inner, st₁, hinner, h₁⟩ := accepts_bind.mp h
    obtain ⟨test, st₂, htest, h₂⟩ := accepts_bind.mp h₁
    obtain ⟨rfl, rfl⟩ := accepts_pure.mp h₂
    obtain ⟨hd, hinner⟩ := trusted_loopBody hv b hf hinner
    obtain ⟨hc, htest⟩ := trusted_condition hv x hd.framed htest
    have hinner := hinner true fun _ => rfl
    rw [hd.store] at htest
    exact ⟨hd.trans hc.declared, fun loop _ => ((hinner.captured hc).and htest).imp fun n h => ⟨h, True.intro⟩⟩
  | forLoop span init cond post b =>
    obtain ⟨y, st₁, hy, h⟩ := accepts_bind.mp h
    obtain ⟨rfl, rfl⟩ := accepts_pure.mp h
    obtain ⟨hd, hy⟩ := trusted_forLoop hv span init cond post b hf hy
    exact ⟨hd, fun loop hl => (hy loop hl).imp fun n h => ⟨h, True.intro⟩⟩
  | yield span =>
    refine trustsIn_yielding span ?_ hf h
    intro pl st r st' hf h
    obtain ⟨rfl, rfl⟩ := accepts_pure.mp h
    exact ⟨.refl hf, fun _ _ => .of fun _ => ⟨True.intro, True.intro⟩⟩
  | yieldWhile span x =>
    refine trustsIn_yielding span ?_ hf h
    intro pl st r st' hf h
    obtain ⟨test, st₁, htest, h⟩ := accepts_bind.mp h
    obtain ⟨rfl, rfl⟩ := accepts_pure.mp h
    obtain ⟨hc, htest⟩ := trusted_condition hv x hf htest
    refine ⟨hc.declared, fun _ _ => htest.imp fun n h => ⟨⟨h, True.intro, True.intro⟩, True.intro⟩⟩
  | yieldCall span x =>
    refine trustsIn_yielding span ?_ hf h
    intro pl st r st' hf h
    split at h
    · simp at h
    · exact trusted_callStmt hv _ (fun c => { c with yielded := true }) (fun _ => rfl) hf h
  | words span w b => exact trustsIn_block (trusted_wordBlock hv w b) hf h

/-- What a visit of any height accepts is trusted. -/
theorem trusted_visit (height : Nat) : (visit height).Trusted := by
  induction height with
  | zero =>
    refine ⟨?_, ?_⟩
    · intro x expect pl st r st' hf h
      obtain ⟨rfl, rfl⟩ := accepts_pure.mp h
      exact ⟨.refl hf, .of fun n => by simp [Typed.nullLiteral, Expr.Trusted]⟩
    · intro x pl st r st' hf h
      obtain ⟨rfl, rfl⟩ := accepts_pure.mp h
      exact ⟨.refl hf, fun _ _ => .of fun _ => True.intro⟩
  | succ n ih => exact ⟨fun {x expect} => trusted_exprStep ih x expect, fun {x} => trusted_stmtStep ih x⟩

end Statements

end Weft.Analysis
