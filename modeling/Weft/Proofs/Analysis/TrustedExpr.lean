import Weft.Proofs.Analysis.TrustedChain
import Weft.Proofs.Analysis.WrittenTypes

/-!
# Accepted expressions

What the compiler relies on in an expression holds for every expression that is accepted: one lemma for each form of
expression, given what holds of the phrases inside it.
-/

namespace Weft.Analysis

open Typed (Expr trustedExprs trustedCalls trustedAppends trustedParams trustedStmts)

section Frames

variable {v : Visit} {pl : Place} {st st' : State}

/-! ## Functions -/

theorem trustedParams_iff {iface : FuncId → Prop} {n : Nat} {ds : List Typed.VarDecl} :
    trustedParams iface n ds ↔ ∀ d ∈ ds, d.var.InFrame n ∧ ∀ x, d.init = some x → x.Trusted iface n := by
  induction ds with
  | nil => simp [trustedParams]
  | cons d ds ih =>
    obtain ⟨line, x, init⟩ := d
    cases init <;> simp [trustedParams, ih, and_assoc]

theorem trustedStmts_append {iface : FuncId → Prop} {n : Nat} {loop : Bool} {xs ys : List Typed.Stmt} :
    trustedStmts iface n loop (xs ++ ys) ↔ trustedStmts iface n loop xs ∧ trustedStmts iface n loop ys := by
  induction xs with
  | nil => simp [trustedStmts]
  | cons x xs ih => simp [trustedStmts, ih, and_assoc]

theorem trusted_declareParams {ps : List Tree.Param} {ts : List (Bool × Ty)} {r : List Typed.VarDecl}
    (hf : st.Framed) (h : Accepts (declareParams ps ts) pl st r st') :
    st.Declared st' ∧ slotsOf st'.bodies = slotsOf st.bodies + r.length ∧
      st'.Covers fun n => trustedParams st.store.OfInterface n r := by
  induction ps generalizing ts st r with
  | nil =>
    obtain ⟨rfl, rfl⟩ : r = [] ∧ st' = st := by simpa [declareParams] using h
    exact ⟨.refl hf, rfl, .of fun _ => True.intro⟩
  | cons p ps ih =>
    cases ts with
    | nil =>
      obtain ⟨rfl, rfl⟩ : r = [] ∧ st' = st := by simpa [declareParams] using h
      exact ⟨.refl hf, rfl, .of fun _ => True.intro⟩
    | cons t ts =>
      simp only [declareParams, accepts_guard] at h
      obtain ⟨x, st₁, hx, h⟩ := accepts_bind.mp h.2
      obtain ⟨rest, st₂, hrest, h⟩ := accepts_bind.mp h
      obtain ⟨rfl, rfl⟩ := accepts_pure.mp h
      obtain ⟨hd, hslot, -, hcount⟩ := declared_declare hf hx
      obtain ⟨hd', hcount', hrest⟩ := ih hd.framed hrest
      rw [hd.store] at hrest
      refine ⟨hd.trans hd', ?_, ((hslot.declared hd').and hrest).imp fun n h => ⟨h.1, h.2⟩⟩
      rw [hcount', hcount, List.length_cons]
      omega

theorem trusted_defaultValues (hv : v.Trusted) {ps : List Tree.Param} {ts : List (Bool × Ty)}
    {ds r : List Typed.VarDecl} (hf : st.Framed) (hd : st.Covers fun n => trustedParams st.store.OfInterface n ds)
    (h : Accepts (defaultValues v ps ts ds) pl st r st') :
    st.Captured st' ∧ r.length = ds.length ∧ st'.Covers fun n => trustedParams st.store.OfInterface n r := by
  induction ps generalizing ts st ds r with
  | nil =>
    obtain ⟨rfl, rfl⟩ : r = ds ∧ st' = st := by simpa [defaultValues] using h
    exact ⟨.refl hf, rfl, hd⟩
  | cons p ps ih =>
    match ts, ds with
    | [], ds =>
      obtain ⟨rfl, rfl⟩ : r = ds ∧ st' = st := by simpa [defaultValues] using h
      exact ⟨.refl hf, rfl, hd⟩
    | _ :: _, [] =>
      obtain ⟨rfl, rfl⟩ : r = [] ∧ st' = st := by simpa [defaultValues] using h
      exact ⟨.refl hf, rfl, hd⟩
    | t :: ts, d :: ds =>
      have hhead : st.Covers fun n => d.var.InFrame n ∧ ∀ x, d.init = some x → x.Trusted st.store.OfInterface n :=
        hd.imp fun n hn => trustedParams_iff.mp hn d (by simp)
      have htail : st.Covers fun n => trustedParams st.store.OfInterface n ds :=
        hd.imp fun n hn => trustedParams_iff.mpr fun e he => trustedParams_iff.mp hn e (by simp [he])
      simp only [defaultValues] at h
      split at h
      · obtain ⟨rest, st₁, hrest, h⟩ := accepts_bind.mp h
        obtain ⟨rfl, rfl⟩ := accepts_pure.mp h
        obtain ⟨hc, hlen, hrest⟩ := ih hf htail hrest
        refine ⟨hc, by simp [hlen], ((hhead.captured hc).and hrest).imp fun n h => ?_⟩
        refine trustedParams_iff.mpr fun e he => ?_
        rcases List.mem_cons.mp he with rfl | he
        · exact h.1
        · exact trustedParams_iff.mp h.2 e he
      · obtain ⟨⟨value, type⟩, st₁, hx, h⟩ := accepts_bind.mp h
        simp only [accepts_checkAssignable_bind] at h
        obtain ⟨rest, st₂, hrest, h⟩ := accepts_bind.mp h.2
        obtain ⟨rfl, rfl⟩ := accepts_pure.mp h
        obtain ⟨hc, hx⟩ := hv.expr hf hx
        obtain ⟨hc', hlen, hrest⟩ := ih hc.framed (by rw [hc.store]; exact htail.captured hc) hrest
        rw [hc.store] at hrest
        refine ⟨hc.trans hc', by simp [hlen], ?_⟩
        refine (((hhead.captured (hc.trans hc')).and (hx.captured hc')).and hrest).imp fun n h => ?_
        exact ⟨h.1.1.1, h.1.2, h.2⟩

theorem trustedStmts_flatten {iface : FuncId → Prop} {n : Nat} {loop : Bool} {lists : List (List Typed.Stmt)} :
    trustedStmts iface n loop lists.flatten ↔ ∀ xs ∈ lists, trustedStmts iface n loop xs := by
  induction lists with
  | nil => simp [trustedStmts]
  | cons xs lists ih => simp [trustedStmts_append, ih]

theorem trusted_stmts (hv : v.Trusted) (ss : List Tree.Stmt) : TrustsIn trustedStmts (stmts v ss) := by
  intro pl st r st' hf h
  rw [stmts, accepts_bind] at h
  obtain ⟨lists, st₁, hlists, h⟩ := h
  obtain ⟨rfl, rfl⟩ := accepts_pure.mp h
  obtain ⟨hd, hss⟩ := trustsIn_mapM (fun _ => hv.stmt) ss hf hlists
  exact ⟨hd, fun loop hloop => (hss loop hloop).imp fun n h => trustedStmts_flatten.mpr h⟩

theorem trusted_frame (hv : v.Trusted) {ps : List Tree.Param} {b : Tree.Block}
    {r : List Typed.VarDecl × List Typed.Stmt} (hf : st.Framed) (hloop : st.inLoop = false)
    (h : Accepts (frame v ps b) pl st r st') :
    st.Declared st' ∧ r.1.length ≤ slotsOf st'.bodies ∧
      st'.Covers fun n => trustedParams st.store.OfInterface n r.1 ∧ trustedStmts st.store.OfInterface n false r.2 := by
  simp only [frame, accepts_body_bind] at h
  obtain ⟨ds, st₁, hds, h⟩ := accepts_bind.mp h
  obtain ⟨ds', st₂, hds', h⟩ := accepts_bind.mp h
  obtain ⟨ss, st₃, hss, h⟩ := accepts_bind.mp h
  obtain ⟨rfl, rfl⟩ := accepts_pure.mp h
  obtain ⟨hd, hcount, hds⟩ := trusted_declareParams hf hds
  rw [← hd.store] at hds
  obtain ⟨hc, hlen, hds'⟩ := trusted_defaultValues hv hd.framed hds hds'
  obtain ⟨hd', hss⟩ := trusted_stmts hv _ hc.framed hss
  have hss := hss false (by rw [hc.declared.inLoop, hd.inLoop, hloop]; exact id)
  rw [hc.store, hd.store] at hss
  rw [hd.store] at hds'
  refine ⟨(hd.trans hc.declared).trans hd', ?_, (hds'.declared hd').and hss⟩
  have := hc.bodies.slots
  have := hd'.bodies.slots
  simp only
  omega

theorem accepts_checkBody {span : Span} {name : String} {b : Body} {block : Tree.Block} {u : Unit}
    (h : Accepts (checkBody span name b block) pl st u st') : st' = st ∧ b.slots ≤ Typed.maxFrame := by
  simp only [checkBody, accepts_guard, accepts_guard_last, accepts_pure] at h
  obtain ⟨hslots, -, -, -, rfl⟩ := h
  exact ⟨rfl, Nat.le_of_not_lt hslots⟩

/-- The frame of a body of its own, and what it captures. -/
theorem trusted_inBody (hv : v.Trusted) {ps : List Tree.Param} {block : Tree.Block} {b : Body}
    {r : (List Typed.VarDecl × List Typed.Stmt) × Body} (hf : Frames st.bodies) (hb : b.Fits) (hu : b.upvals = [])
    (ha : b.around = []) (h : Accepts (inBody b (frame v ps block)) pl st r st') :
    st'.store = st.store ∧ Captures st.bodies st'.bodies ∧ Frames (r.2 :: st'.bodies) ∧
      (r.2.slots ≤ Typed.maxFrame → ∀ line, (⟨r.2.slots, r.1.1, line, r.1.2⟩ : Typed.Frame).Trusted st.store.OfInterface) := by
  obtain ⟨st₁, hframe, hframed, hdone⟩ := declared_inBody hf hb hu h
  obtain ⟨hd, hlen, htrusted⟩ := trusted_frame hv hframed (by simp [State.inLoop, ha]) hframe
  obtain ⟨hstore, hc, hframes, -, hslots⟩ := hdone hd
  refine ⟨hstore, hc, hframes, fun hmax line => ?_⟩
  rw [hslots] at hlen
  exact ⟨hmax, hlen, htrusted _ (by rw [hslots])⟩

theorem trusted_lambda (hv : v.Trusted) (fn : Tree.Lambda) : TrustsExpr (lambda v fn) := by
  intro pl st r st' hf h
  rw [lambda, accepts_bind] at h
  obtain ⟨sig, st₁, hsig, h⟩ := h
  obtain ⟨rfl, -⟩ := accepts_resolveSignature hsig
  obtain ⟨⟨⟨ps, ss⟩, b⟩, st₂, hbody, hrest⟩ := accepts_bind.mp h
  obtain ⟨u, st₃, hcheck, hlast⟩ := accepts_bind.mp hrest
  obtain ⟨rfl, hmax⟩ := accepts_checkBody hcheck
  obtain ⟨rfl, rfl⟩ := accepts_pure.mp hlast
  obtain ⟨hstore, hc, hframes, htrusted⟩ := trusted_inBody hv hf.frames (Body.fits_empty sig) rfl rfl hbody
  refine ⟨⟨hstore, hc, hframes.2.2, hc.ne_nil hf.inside⟩, fun n hn => ⟨?_, htrusted hmax _⟩⟩
  intro u hu
  have := hframes.2.1 u hu
  exact ⟨Nat.lt_of_lt_of_le this.1 hn, this.2⟩

end Frames

section Expressions

variable {v : Visit}

/-! ## Operators and casts -/

theorem trusted_unary (hv : v.Trusted) (span : Span) (op : UnaryOp) (x : Tree.Expr) : TrustsExpr (unary v span op x) := by
  intro pl st r st' hf h
  rw [unary, accepts_bind] at h
  obtain ⟨⟨y, t⟩, st₁, hy, h⟩ := h
  obtain ⟨hc, hy⟩ := hv.expr hf hy
  cases t with
  | none =>
    obtain ⟨rfl, rfl⟩ := accepts_pure.mp h
    exact ⟨hc, hy⟩
  | some t =>
    simp only [accepts_store_bind] at h
    split at h
    · obtain ⟨rfl, rfl⟩ := accepts_pure.mp h
      exact ⟨hc, hy⟩
    · simp at h

theorem trusted_binary (hv : v.Trusted) (span : Span) (op : BinaryOp) (x y : Tree.Expr) :
    TrustsExpr (binary v span op x y) := by
  intro pl st r st' hf h
  rw [binary, accepts_bind] at h
  obtain ⟨⟨x, l⟩, st₁, hx, h⟩ := h
  obtain ⟨⟨y, r⟩, st₂, hy, hrest⟩ := accepts_bind.mp h
  obtain ⟨hc, hx⟩ := hv.expr hf hx
  obtain ⟨hc', hy⟩ := hv.expr hc.framed hy
  rw [hc.store] at hy
  have hall := And.intro (hc.trans hc') ((hx.captured hc').and hy)
  simp only at hrest
  split at hrest
  · simp only [accepts_store_bind] at hrest
    split at hrest
    · obtain ⟨rfl, rfl⟩ := accepts_pure.mp hrest
      exact hall
    · simp at hrest
  · obtain ⟨rfl, rfl⟩ := accepts_pure.mp hrest
    exact hall

theorem trusted_cast (hv : v.Trusted) (span : Span) (kind : Typed.CastKind) (x : Tree.Expr) (type : Tree.TypeExpr) :
    TrustsExpr (cast v span kind x type) := by
  intro pl st r st' hf h
  rw [cast, accepts_bind] at h
  obtain ⟨⟨y, src⟩, st₁, hy, h⟩ := h
  obtain ⟨dst, st₂, hdst, hrest⟩ := accepts_bind.mp h
  obtain ⟨hc, hy⟩ := hv.expr hf hy
  obtain ⟨rfl, dst, rfl, -⟩ := accepts_resolveType _ hdst
  have hall : st.Captured st₂ ∧ st₂.Covers fun n =>
      (Expr.cast span.start.line kind (some dst) y).Trusted st.store.OfInterface n := ⟨hc, hy.imp fun n h => ⟨rfl, h⟩⟩
  cases src with
  | none =>
    obtain ⟨rfl, rfl⟩ := accepts_pure.mp hrest
    exact hall
  | some src =>
    simp only [accepts_store_bind, accepts_guard] at hrest
    obtain ⟨-, hrest⟩ := hrest
    cases kind with
    | isType | explicit =>
      obtain ⟨rfl, rfl⟩ := accepts_pure.mp hrest
      exact hall
    | asType =>
      simp only [accepts_guard, accepts_pure] at hrest
      obtain ⟨-, rfl, rfl⟩ := hrest
      exact hall

/-! ## Construction -/

theorem trusted_initFields (hv : v.Trusted) (c : ClassId) (seen : List String) (is : List Tree.FieldInit) :
    Trusts trustedCalls (initFields v c seen is) := by
  intro pl st r st' hf h
  induction is generalizing seen st r with
  | nil =>
    obtain ⟨rfl, rfl⟩ : r = [] ∧ st' = st := by simpa [initFields] using h
    exact ⟨.refl hf, .of fun _ => True.intro⟩
  | cons i is ih =>
    simp only [initFields, accepts_store_bind] at h
    split at h
    · simp only [accepts_guard] at h
      obtain ⟨⟨x, t⟩, st₁, hx, hrest⟩ := accepts_bind.mp h.2
      simp only [accepts_checkAssignable_bind] at hrest
      obtain ⟨cs, st₂, hcs, hlast⟩ := accepts_bind.mp hrest.2
      obtain ⟨rfl, rfl⟩ := accepts_pure.mp hlast
      obtain ⟨hc, hx⟩ := hv.expr hf hx
      obtain ⟨hc', hcs⟩ := ih _ hc.framed hcs
      rw [hc.store] at hcs
      exact ⟨hc.trans hc', ((hx.captured hc').and hcs).imp fun n h => ⟨⟨True.intro, h.1, True.intro⟩, h.2⟩⟩
    · simp at h

theorem trusted_new (hv : v.Trusted) (span : Span) (type : Tree.TypeExpr) (is : List Tree.FieldInit) :
    TrustsExpr (new v span type is) := by
  intro pl st r st' hf h
  rw [new, accepts_bind] at h
  obtain ⟨t, st₁, ht, h⟩ := h
  obtain ⟨rfl, t, rfl, -⟩ := accepts_resolveType _ ht
  simp only at h
  split at h
  · simp_all
  · obtain ⟨cs, st₂, hcs, hrest⟩ := accepts_bind.mp h
    obtain ⟨rfl, rfl⟩ := accepts_pure.mp hrest
    obtain ⟨hc, hcs⟩ := trusted_initFields hv _ _ _ hf hcs
    exact ⟨hc, hcs.imp fun n h => ⟨rfl, h⟩⟩
  · simp only [accepts_guard, accepts_pure] at h
    obtain ⟨-, rfl, rfl⟩ := h
    exact ⟨.refl hf, .of fun _ => ⟨rfl, True.intro⟩⟩
  · simp only [accepts_guard, accepts_pure] at h
    obtain ⟨-, rfl, rfl⟩ := h
    exact ⟨.refl hf, .of fun _ => ⟨rfl, True.intro⟩⟩
  · simp at h

/-! ## Collections -/

theorem trusted_mapEntries (hv : v.Trusted) (key value : Ty) (xs : List Tree.Expr) :
    Trusts trustedAppends (mapEntries v key value xs) := by
  intro pl st r st' hf h
  induction xs generalizing st r with
  | nil =>
    obtain ⟨rfl, rfl⟩ : r = [] ∧ st' = st := by simpa [mapEntries] using h
    exact ⟨.refl hf, .of fun _ => True.intro⟩
  | cons x xs ih =>
    unfold mapEntries at h
    split at h
    · obtain ⟨⟨k, kt⟩, st₁, hk, h₁⟩ := accepts_bind.mp h
      simp only [accepts_checkAssignable_bind] at h₁
      obtain ⟨⟨e, vt⟩, st₂, he, h₂⟩ := accepts_bind.mp h₁.2
      simp only [accepts_checkAssignable_bind] at h₂
      obtain ⟨rest, st₃, hrest, h₃⟩ := accepts_bind.mp h₂.2
      obtain ⟨rfl, rfl⟩ := accepts_pure.mp h₃
      obtain ⟨hc₁, hk⟩ := hv.expr hf hk
      obtain ⟨hc₂, he⟩ := hv.expr hc₁.framed he
      obtain ⟨hc₃, hrest⟩ := ih hc₂.framed hrest
      rw [hc₂.store, hc₁.store] at hrest
      rw [hc₁.store] at he
      refine ⟨(hc₁.trans hc₂).trans hc₃, ?_⟩
      exact ((hk.captured (hc₂.trans hc₃)).and ((he.captured hc₃).and hrest)).imp fun n h => ⟨h.1, h.2⟩
    · simp at h

theorem trustedAppends_iff {iface : FuncId → Prop} {n : Nat} {xs : List Typed.Append} :
    trustedAppends iface n xs ↔ ∀ x ∈ xs, trustedAppends iface n [x] := by
  induction xs with
  | nil => simp [trustedAppends]
  | cons x xs ih => cases x <;> simp [trustedAppends, ih, and_assoc]

theorem trusted_elements {f : Tree.Expr → Analysis Typed.Append}
    (hone : ∀ x, Trusts (fun iface n a => trustedAppends iface n [a]) (f x)) (xs : List Tree.Expr) :
    Trusts trustedAppends (xs.mapM f) := by
  intro pl st r st' hf h
  obtain ⟨hc, hxs⟩ := trusts_mapM hone xs hf h
  exact ⟨hc, hxs.imp fun n h => trustedAppends_iff.mpr h⟩

theorem trusted_arrayElements (hv : v.Trusted) (elem : Ty) (xs : List Tree.Expr) :
    Trusts trustedAppends (arrayElements v elem xs) := by
  refine trusted_elements (fun x => ?_) xs
  intro pl st a st' hf h
  obtain ⟨⟨e, t⟩, st₁, he, hrest⟩ := accepts_bind.mp h
  simp only [accepts_checkAssignable_bind, accepts_pure] at hrest
  obtain ⟨-, rfl, rfl⟩ := hrest
  obtain ⟨hc, he⟩ := hv.expr hf he
  exact ⟨hc, he.imp fun n h => ⟨h, True.intro⟩⟩

theorem trusted_inferredElements (hv : v.Trusted) (xs : List Tree.Expr) :
    Trusts (fun iface n r => trustedAppends iface n r.1) (inferredElements v xs) := by
  intro pl st r st' hf h
  cases xs with
  | nil =>
    obtain ⟨rfl, rfl⟩ := accepts_pure.mp h
    exact ⟨.refl hf, .of fun _ => True.intro⟩
  | cons x xs =>
    rw [inferredElements, accepts_bind] at h
    obtain ⟨⟨e, t⟩, st₁, he, h⟩ := h
    obtain ⟨more, st₂, hmore, hlast⟩ := accepts_bind.mp h
    obtain ⟨rfl, rfl⟩ := accepts_pure.mp hlast
    obtain ⟨hc, he⟩ := hv.expr hf he
    have helements : st₁.Captured st' ∧ st'.Covers fun n => trustedAppends st₁.store.OfInterface n more := by
      refine trusted_elements (fun x => ?_) xs hc.framed hmore
      intro pl st a st' hf h
      obtain ⟨⟨e', t'⟩, st₁, he', hrest⟩ := accepts_bind.mp h
      obtain ⟨hc, he'⟩ := hv.expr hf he'
      simp only at hrest
      split at hrest
      · simp only [accepts_checkAssignable_bind, accepts_pure] at hrest
        obtain ⟨-, rfl, rfl⟩ := hrest
        exact ⟨hc, he'.imp fun n h => ⟨h, True.intro⟩⟩
      · obtain ⟨rfl, rfl⟩ := accepts_pure.mp hrest
        exact ⟨hc, he'.imp fun n h => ⟨h, True.intro⟩⟩
    obtain ⟨hc', hmore⟩ := helements
    rw [hc.store] at hmore
    exact ⟨hc.trans hc', ((he.captured hc').and hmore).imp fun n h => h⟩

theorem trusted_collection (hv : v.Trusted) (span : Span) (xs : List Tree.Expr) (expect : Option Ty) :
    TrustsExpr (collection v span xs expect) := by
  intro pl st r st' hf h
  unfold collection at h
  split at h
  · obtain ⟨items, st₁, hitems, h⟩ := accepts_bind.mp h
    simp only [pure_bind, accepts_pure] at h
    obtain ⟨rfl, rfl⟩ := h
    exact trusted_arrayElements hv _ _ hf hitems
  · obtain ⟨items, st₁, hitems, h⟩ := accepts_bind.mp h
    simp only [pure_bind, accepts_pure] at h
    obtain ⟨rfl, rfl⟩ := h
    exact trusted_mapEntries hv _ _ _ hf hitems
  · obtain ⟨⟨items, elem⟩, st₁, hitems, h⟩ := accepts_bind.mp h
    simp only [pure_bind, accepts_pure] at h
    obtain ⟨rfl, rfl⟩ := h
    exact trusted_inferredElements hv _ hf hitems

theorem trusted_exprStep (hv : v.Trusted) (x : Tree.Expr) (expect : Option Ty) : TrustsExpr (exprStep v x expect) := by
  intro pl st r st' hf h
  -- a literal is trusted as it is
  have hliteral : ∀ {line : Nat} {value : Typed.Literal} {t : Ty},
      Accepts (pure (Expr.literal line value t, some t)) pl st r st' →
        st.Captured st' ∧ st'.Covers (r.1.Trusted st.store.OfInterface) := by
    intro line value t h
    obtain ⟨rfl, rfl⟩ := accepts_pure.mp h
    exact ⟨.refl hf, .of fun n => by simp [Expr.Trusted]⟩
  cases x with
  | int | float | string | bool | null => exact hliteral h
  | paren span x => exact hv.expr hf h
  | lambda fn => exact trusted_lambda hv fn hf h
  | chain c =>
    obtain ⟨⟨c, t⟩, st₁, hc, h⟩ := accepts_bind.mp h
    obtain ⟨rfl, rfl⟩ := accepts_pure.mp h
    obtain ⟨hc, hlinks⟩ := trusted_chain (m := .read) hv (trusted_lambda hv) hf (.of fun _ => True.intro) hc
    exact ⟨hc, hlinks.imp fun n h => trusted_links.mpr h⟩
  | unary span op x => exact trusted_unary hv span op x hf h
  | binary span op x y => exact trusted_binary hv span op x y hf h
  | cast span type x => exact trusted_cast hv span .explicit x type hf h
  | asType span x type => exact trusted_cast hv span .asType x type hf h
  | isType span x type => exact trusted_cast hv span .isType x type hf h
  | new span type is => exact trusted_new hv span type is hf h
  | collection span xs => exact trusted_collection hv span xs expect hf h

end Expressions

end Weft.Analysis
