import Weft.Proofs.Analysis.Layers

/-!
# Analyses in scope

Where an analysis stands: which variables are declared around it, and which mentions are known to be consistent with
the scopes of the bodies around it. What one analysis makes known stays known during the next, because bodies only
capture more and only declare names that stood for nothing.
-/

namespace Weft.Analysis

open Typed (FrameScope Captured Extends Located Mention visible visible_name located stmtsDeclared stmtsLocals stmtsLocated)

/-- The variables that are declared in each block of the innermost body, all that it has declared, and mentions that are
consistent. -/
structure Standing where
  decls : List (List LocalVar)
  declared : List LocalVar
  known : List Located

namespace Standing

/-- A standing where more is known. -/
def also (p : Standing) (ms : List Located) : Standing := { p with known := p.known ++ ms }

/-- One standing says what another does. -/
structure Gives (p q : Standing) : Prop where
  decls : p.decls = q.decls
  declared : p.declared.Perm q.declared
  known : q.known ⊆ p.known

theorem Gives.refl (p : Standing) : p.Gives p := ⟨rfl, .refl _, List.Subset.refl _⟩

theorem also_gives (p : Standing) (ms : List Located) : (p.also ms).Gives p := ⟨rfl, .refl _, List.subset_append_left _ _⟩

end Standing

/-- Bodies are those of layers that stand in a place. -/
structure Stands (bs : List Body) (p : Standing) (l : Layer) (outer : List Layer) : Prop where
  bodies : bs = (l :: outer).map Layer.body
  layered : Layered (l :: outer)
  decls : l.decls = p.decls
  declared : l.declared.Perm p.declared
  known : ∀ m ∈ p.known, m.mention.Scoped (⟨m.vars, l.body.upvals⟩ :: scopesOf outer)

/-- An analysis that is accepted leads from a standing to one that depends on its result. Bodies capture what it
mentions; those further out do nothing else. -/
def Runs {α : Type} (p : Standing) (m : Analysis α) (q : α → Standing) : Prop :=
  ∀ pl st a st' l outer, Stands st.bodies p l outer → Accepts m pl st a st' → ∃ l' outer',
    Stands st'.bodies (q a) l' outer' ∧ l.body.upvals <+: l'.body.upvals ∧ List.Forall₂ Layer.Grows outer outer'

section Rules

variable {α β : Type} {p p' : Standing} {m : Analysis α} {f : α → Analysis β} {q q' : α → Standing} {r : β → Standing}
  {bs : List Body} {l : Layer} {outer : List Layer}

theorem Stands.imp (h : Stands bs p l outer) (hp : p.Gives p') : Stands bs p' l outer :=
  ⟨h.bodies, h.layered, h.decls.trans hp.decls, h.declared.trans hp.declared, fun m hm => h.known m (hp.known hm)⟩

theorem Runs.imp (h : Runs p m q) (hq : ∀ a, (q a).Gives (q' a)) : Runs p m q' := by
  intro pl st a st' l outer hst ha
  obtain ⟨l', outer', hst', hgrows⟩ := h _ _ _ _ _ _ hst ha
  exact ⟨l', outer', hst'.imp (hq a), hgrows⟩

theorem Runs.of (h : Runs p' m q) (hp : p.Gives p') : Runs p m q := fun _ _ _ _ _ _ hst ha => h _ _ _ _ _ _ (hst.imp hp) ha

theorem Runs.still (h : ∀ {pl st a st'}, Accepts m pl st a st' → st' = st) (hq : ∀ a, p.Gives (q a)) : Runs p m q := by
  intro pl st a st' l outer hst ha
  obtain rfl := h ha
  exact ⟨l, outer, hst.imp (hq a), List.prefix_refl _, grows_refl _⟩

theorem runs_pure {a : α} (h : p.Gives (q a)) : Runs p (pure a) q := by
  intro pl st a' st' l outer hst ha
  obtain ⟨rfl, rfl⟩ := accepts_pure.mp ha
  exact ⟨l, outer, hst.imp h, List.prefix_refl _, grows_refl _⟩

/-- What is known before an analysis is known after it. -/
theorem Runs.bind_of_accepts (hm : Runs p m q) (hf : ∀ a, (∃ pl st st', Accepts m pl st a st') →
    Runs ((q a).also p.known) (f a) r) : Runs p (m >>= f) r := by
  intro pl st b st' l outer hst hb
  obtain ⟨a, st₁, ha, hb⟩ := accepts_bind.mp hb
  obtain ⟨l₁, outer₁, hst₁, hupvals₁, hgrows₁⟩ := hm _ _ _ _ _ _ hst ha
  have hkept : ∀ m ∈ p.known, m.mention.Scoped (⟨m.vars, l₁.body.upvals⟩ :: scopesOf outer₁) := fun m hm =>
    (hst.known m hm).mono ((extends_scopes hgrows₁).capture hupvals₁)
  have hmore : Stands st₁.bodies ((q a).also p.known) l₁ outer₁ :=
    ⟨hst₁.bodies, hst₁.layered, hst₁.decls, hst₁.declared, List.forall_mem_append.mpr ⟨hst₁.known, hkept⟩⟩
  obtain ⟨l', outer', hst', hupvals, hgrows⟩ := hf a ⟨_, _, _, ha⟩ _ _ _ _ _ _ hmore hb
  exact ⟨l', outer', hst', hupvals₁.trans hupvals, grows_trans hgrows₁ hgrows⟩

theorem Runs.bind (hm : Runs p m q) (hf : ∀ a, Runs ((q a).also p.known) (f a) r) : Runs p (m >>= f) r :=
  hm.bind_of_accepts fun a _ => hf a

theorem Runs.then (hm : Runs p m fun _ => p) (hf : ∀ a, Runs p (f a) r) : Runs p (m >>= f) r :=
  hm.bind fun a => (hf a).of (p.also_gives _)

/-- Steps that leave the standing alone, one after the other. -/
theorem runs_mapM {ι : Type} {g : ι → Analysis β} (h : ∀ x, Runs p (g x) fun _ => p) (xs : List ι) :
    Runs p (xs.mapM g) fun _ => p := by
  induction xs with
  | nil => exact runs_pure (.refl p)
  | cons x xs ih =>
    rw [List.mapM_cons]
    exact (h x).then fun y => ih.then fun ys => runs_pure (.refl p)

theorem runs_report_bind {span : Span} {x : Problem} {g : Unit → Analysis β} : Runs p (report span x >>= g) r :=
  fun _ _ _ _ _ _ _ ha => absurd ha accepts_report_bind

theorem runs_guard {c : Prop} [Decidable c] {span : Span} {x : Problem} {g : Unit → Analysis β} {m : Analysis β}
    (h : ¬c → Runs p m r) : Runs p (if c then report span x >>= g else m) r := by
  split
  · exact runs_report_bind
  · exact h ‹_›

theorem runs_store_bind {g : Store → Analysis β} (h : ∀ s, Runs p (g s) r) : Runs p (store >>= g) r :=
  fun _ _ _ _ _ _ hst ha => h _ _ _ _ _ _ _ hst (accepts_store_bind.mp ha)

theorem runs_typeName_bind {t : Ty} {g : String → Analysis β} (h : ∀ s, Runs p (g s) r) : Runs p (typeName t >>= g) r :=
  fun _ _ _ _ _ _ hst ha => h _ _ _ _ _ _ _ hst (accepts_typeName_bind.mp ha)

theorem runs_thisClass_bind {g : Option ClassId → Analysis β} (h : ∀ c, Runs p (g c) r) : Runs p (thisClass >>= g) r :=
  fun _ _ _ _ _ _ hst ha => h _ _ _ _ _ _ _ hst (accepts_thisClass_bind.mp ha)

theorem runs_lookup_bind {name : String} {g : Option Found → Analysis β} (h : ∀ x, Runs p (g x) r) :
    Runs p (lookup name >>= g) r := fun _ _ _ _ _ _ hst ha => h _ _ _ _ _ _ _ hst (accepts_lookup_bind.mp ha)

theorem runs_body_bind {g : Body → Analysis β} (h : ∀ b, Runs p (g b) r) : Runs p (body >>= g) r :=
  fun _ _ _ _ _ _ hst ha => h _ _ _ _ _ _ _ hst (accepts_body_bind.mp ha)

theorem runs_checkAssignable_bind {span : Span} {src dst : Option Ty} {g : Unit → Analysis β} (h : Runs p (g ()) r) :
    Runs p (checkAssignable span src dst >>= g) r := fun _ _ _ _ _ _ hst ha => h _ _ _ _ _ _ hst (accepts_checkAssignable_bind.mp ha).2

theorem runs_lift_bind {x : Except Typed.ArgumentsError α} (h : ∀ a, Runs p (f a) r) : Runs p (liftM x >>= f) r :=
  (Runs.still (fun ha => (accepts_lift.mp ha).2) fun _ => .refl p).then h

end Rules

/-! ## Mentions of expressions -/

/-- An analysis of something without declarations. When some mentions at its place are known, those of its result are. -/
abbrev Tells {α : Type} (D : List (List LocalVar)) (L : List LocalVar) (K : List Mention) (m : Analysis α)
    (μ : α → List Mention) : Prop := Runs ⟨D, L, located D.flatten K⟩ m fun a => ⟨D, L, located D.flatten (μ a)⟩

section Expressions

variable {α β ι : Type} {D : List (List LocalVar)} {L : List LocalVar} {K K' : List Mention} {m : Analysis α}
  {f : α → Analysis β} {μ : α → List Mention} {ν : β → List Mention}

theorem located_subset {vars : List LocalVar} (h : K ⊆ K') : located vars K ⊆ located vars K' := List.map_subset _ h

theorem tells_pure {a : α} (h : μ a ⊆ K) : Tells D L K (pure a) μ := runs_pure ⟨rfl, .refl _, located_subset h⟩

theorem Tells.bind (hm : Tells D L K m μ) (hf : ∀ a, Tells D L (μ a ++ K) (f a) ν) : Tells D L K (m >>= f) ν := by
  refine Runs.bind hm fun a => (hf a).of ⟨rfl, .refl _, ?_⟩
  rw [Typed.located_append]
  exact List.Subset.refl _

theorem Tells.of (h : Tells D L K m μ) (hk : K ⊆ K') : Tells D L K' m μ := Runs.of h ⟨rfl, .refl _, located_subset hk⟩

theorem Tells.imp {μ' : α → List Mention} (h : Tells D L K m μ) (hμ : ∀ a, μ' a ⊆ μ a) : Tells D L K m μ' :=
  Runs.imp h fun a => ⟨rfl, .refl _, located_subset (hμ a)⟩

theorem Tells.runs {K : List Located} (h : Tells D L [] m μ) : Runs ⟨D, L, K⟩ m fun a => ⟨D, L, located D.flatten (μ a)⟩ :=
  Runs.of h ⟨rfl, .refl _, List.nil_subset _⟩

theorem tells_still (h : ∀ {pl st a st'}, Accepts m pl st a st' → st' = st) : Tells D L K m fun _ => K :=
  Runs.still h fun _ => .refl _

theorem tells_mapM {g : ι → Analysis β} {xs : List ι} (h : ∀ x ∈ xs, Tells D L K (g x) ν) :
    Tells D L K (xs.mapM g) fun ys => ys.flatMap ν := by
  induction xs generalizing K with
  | nil => exact tells_pure (List.nil_subset _)
  | cons x xs ih =>
    rw [List.mapM_cons]
    refine (h x (by simp)).bind fun y => ?_
    have hrest := ih fun z hz => (h z (by simp [hz])).of (List.subset_append_right (ν y) K)
    refine hrest.bind fun ys => tells_pure ?_
    rw [List.flatMap_cons]
    exact List.append_subset.mpr ⟨by simp, by simp⟩

theorem tells_localVar {name : String} : Tells D L K (localVar name) fun x => x.toList.map .var := by
  intro pl st x st' l outer hst hx
  rcases accepts_localVar.mp hx with ⟨-, rfl, rfl⟩ | ⟨v, bodies, hv, rfl, rfl⟩
  · exact ⟨l, outer, hst.imp ⟨rfl, .refl _, List.nil_subset _⟩, List.prefix_refl _, grows_refl _⟩
  · rw [hst.bodies] at hv
    obtain ⟨ls', rfl, hlayered, hgrows, hvisible⟩ := hst.layered.findVar hv
    cases hgrows with
    | @cons _ l' _ outer' hl houter =>
      refine ⟨l', outer', ⟨rfl, hlayered, hl.decls.trans hst.decls, ?_, ?_⟩, hl.upvals, houter⟩
      · rw [hl.declared]
        exact hst.declared
      · intro m hm
        obtain rfl : m = ⟨D.flatten, .var v⟩ := List.mem_singleton.mp hm
        have hscope : l'.scope = ⟨D.flatten, l'.body.upvals⟩ := by rw [Layer.scope, hl.decls, hst.decls]
        obtain rfl : v.name = name := visible_name hvisible
        rw [scopesOf, List.map_cons, hscope] at hvisible
        exact .var hvisible

end Expressions

/-! ## Statements -/

/-- Where statements lead from a block with some variables: their declarations are in scope after them, and their
mentions are consistent. -/
def Standing.after (d : List LocalVar) (R : List (List LocalVar)) (L : List LocalVar) (ss : List Typed.Stmt) : Standing :=
  ⟨(stmtsDeclared ss ++ d) :: R, stmtsLocals ss ++ L, stmtsLocated (d ++ R.flatten) ss⟩

/-- An analysis of statements. -/
abbrev RunsStmts (d : List LocalVar) (R : List (List LocalVar)) (L : List LocalVar) (K : List Located)
    (m : Analysis (List Typed.Stmt)) : Prop := Runs ⟨d :: R, L, K⟩ m (Standing.after d R L)

/-- What a visit accepts is consistent with the scopes around it. -/
structure Visit.Scopes (v : Visit) : Prop where
  expr : ∀ {D L K x expect}, Tells D L K (v.expr x expect) fun r => r.1.mentions
  stmt : ∀ {d R L K x}, RunsStmts d R L K (v.stmt x)

/-! ## Changes of the innermost body -/

section Bodies

variable {α : Type} {p : Standing} {m : Analysis α} {q : α → Standing} {st : State} {l : Layer} {outer : List Layer}

/-- A change of the innermost body that its layer shows. -/
theorem Stands.update {p' : Standing} (h : Stands st.bodies p l outer) {f : Body → Body} {l' : Layer}
    (hshows : l'.Shows (scopesOf outer)) (hbody : l'.body = f l.body) (hupvals : l'.body.upvals = l.body.upvals)
    (hdecls : l'.decls = p'.decls) (hdeclared : l'.declared.Perm p'.declared) (hknown : p'.known ⊆ p.known) :
    Stands (st.update f).bodies p' l' outer := by
  refine ⟨?_, ⟨hshows, h.layered.2⟩, hdecls, hdeclared, fun m hm => ?_⟩
  · rw [State.update, h.bodies, List.map_cons, List.modifyHead_cons, List.map_cons, hbody]
  · rw [hupvals]
    exact h.known m (hknown hm)

/-- A change that leaves the variables of a body alone. -/
theorem Stands.keep (h : Stands st.bodies p l outer) {f : Body → Body} (hblocks : ∀ b, (f b).blocks = b.blocks)
    (hslots : ∀ b, (f b).slots = b.slots) (hupvals : ∀ b, (f b).upvals = b.upvals) :
    Stands (st.update f).bodies p { l with body := f l.body } outer := by
  have hshows := h.layered.1
  refine h.update ⟨hshows.block, ?_, ?_, hshows.inScope, ?_, ?_⟩ rfl (hupvals _) h.decls h.declared (List.Subset.refl _)
  · rw [hblocks]
    exact hshows.blocks
  · intro k hk name
    rw [hblocks, hupvals]
    exact hshows.finds k hk name
  · rw [hupvals]
    exact hshows.captured
  · rw [Layer.varSlots, hupvals, hslots]
    exact hshows.slots

theorem Runs.inside {e : Enclosing} (hm : Runs p m q) : Runs p (inside e m) q := by
  intro pl st a st' l outer hst ha
  obtain ⟨st₁, h₁, rfl⟩ := accepts_inside ha
  have hinner : Stands (st.update fun b => { b with around := e :: b.around }).bodies p _ outer :=
    hst.keep (fun _ => rfl) (fun _ => rfl) (fun _ => rfl)
  obtain ⟨l', outer', hst', hupvals, hgrows⟩ := hm _ _ _ _ _ _ hinner h₁
  exact ⟨_, outer', hst'.keep (fun _ => rfl) (fun _ => rfl) (fun _ => rfl), hupvals, hgrows⟩

theorem runs_hasYield : Runs p (updateBody ({ · with hasYield := true })) fun _ => p := by
  intro pl st a st' l outer hst ha
  obtain rfl := accepts_updateBody.mp ha
  exact ⟨_, outer, hst.keep (fun _ => rfl) (fun _ => rfl) (fun _ => rfl), List.prefix_refl _, grows_refl _⟩

/-- What is declared inside a block is out of scope after it. -/
theorem Runs.inBlock {D : List (List LocalVar)} {L : List LocalVar} {K : List Located} (hm : Runs ⟨[] :: D, L, K⟩ m q)
    (hq : ∀ a, ∃ d, (q a).decls = d :: D) : Runs ⟨D, L, K⟩ (inBlock m) fun a => { q a with decls := D } := by
  intro pl st a st' l outer hst ha
  obtain ⟨st₁, h₁, rfl⟩ := accepts_inBlock ha
  have hshows := hst.layered.1
  have hne : D ≠ [] := fun hnil => hshows.block (hst.decls.trans hnil)
  have hinner : Stands (st.update fun b => { b with blocks := [] :: b.blocks }).bodies ⟨[] :: D, L, K⟩ _ outer :=
    hst.update hshows.push rfl rfl (congrArg _ hst.decls) hst.declared (List.Subset.refl _)
  obtain ⟨l', outer', hst', hupvals, hgrows⟩ := hm _ _ _ _ _ _ hinner h₁
  obtain ⟨d, hd⟩ := hq a
  have hpop := hst'.layered.1.pop (hst'.decls.trans hd) hne
  exact ⟨_, outer', hst'.update hpop rfl rfl rfl hst'.declared (List.Subset.refl _), hupvals, hgrows⟩

/-- A variable that is declared without a check hides what its name stood for. -/
theorem runs_declare {d : List LocalVar} {R : List (List LocalVar)} {L : List LocalVar} {K : List Located} {name : String}
    {t : Ty} {ref : Bool} : Runs ⟨d :: R, L, K⟩ (declare name t ref) fun x => ⟨(x :: d) :: R, x :: L, K⟩ := by
  intro pl st x st' l outer hst hx
  obtain ⟨hslot, rfl⟩ := accepts_declare.mp hx
  have hv : x.slot = l.body.slots := by
    rw [hslot, hst.bodies]
    rfl
  have hshows := hst.layered.1.add hst.decls hv
  refine ⟨_, outer, hst.update hshows rfl (Body.add_upvals _ _) rfl (hst.declared.cons x) (List.Subset.refl _), ?_, grows_refl _⟩
  dsimp only
  rw [Body.add_upvals]

/-- An analysis in a body of its own, which starts with some variables. -/
theorem Runs.inBody {this : List LocalVar} {b : Body} (hm : Runs ⟨[this], this, []⟩ m q)
    (hb : ∀ outer, Layer.Shows ⟨[this], this, b⟩ outer) {ls : List Layer} (hls : Layered ls)
    (hbodies : st.bodies = ls.map Layer.body) {pl : Place} {r : α × Body} {st' : State}
    (h : Accepts (inBody b m) pl st r st') : ∃ l' ls', Stands (r.2 :: st'.bodies) (q r.1) l' ls' ∧
      List.Forall₂ Layer.Grows ls ls' := by
  obtain ⟨st₁, h₁, hlast, rfl⟩ := accepts_inBody h
  have hstart : Stands (b :: st.bodies) ⟨[this], this, []⟩ ⟨[this], this, b⟩ ls :=
    ⟨congrArg _ hbodies, ⟨hb _, hls⟩, rfl, .refl _, by simp⟩
  obtain ⟨l', ls', hst', -, hgrows⟩ := hm _ _ _ _ _ _ hstart h₁
  refine ⟨l', ls', ?_, hgrows⟩
  have hbodies := hst'.bodies
  have hall : r.2 :: st₁.bodies.tail = st₁.bodies := by
    rw [hlast, hbodies]
    rfl
  rw [hall]
  exact hst'

end Bodies

/-! ## Frames -/

section Frames

variable {b : Body} {bs : List Body} {p : Standing} {l : Layer} {ls : List Layer}

theorem Stands.captured (h : Stands (b :: bs) p l ls) : Captured (scopesOf ls) b.upvals := by
  obtain ⟨rfl, -⟩ := List.cons.inj h.bodies
  exact h.layered.1.captured

theorem Stands.upvals_nil (h : Stands (b :: bs) p l []) : b.upvals = [] := by
  refine List.eq_nil_iff_forall_not_mem.mpr fun u hu => ?_
  obtain ⟨v, hv, -⟩ := h.captured.source u hu
  cases hv

theorem Stands.mentions (h : Stands (b :: bs) p l ls) :
    ∀ m ∈ p.known, m.mention.Scoped (⟨m.vars, b.upvals⟩ :: scopesOf ls) := by
  obtain ⟨rfl, -⟩ := List.cons.inj h.bodies
  exact h.known

/-- The variables of a body that has been analyzed have slots of their own. -/
theorem Stands.slotted (h : Stands (b :: bs) p l ls) {f : Typed.Frame} {this : List LocalVar}
    (hdeclared : p.declared.Perm (this ++ f.paramVars ++ stmtsLocals f.body)) (hslots : f.slots = b.slots)
    (hfew : b.slots ≤ Typed.maxFrame) : f.Slotted this b.upvals := by
  obtain ⟨rfl, -⟩ := List.cons.inj h.bodies
  have hslots' := h.layered.1.slots
  have hperm : l.varSlots.Perm (f.varSlots this l.body.upvals) :=
    ((h.declared.trans hdeclared).map _).append_right _
  refine ⟨hperm.nodup_iff.mp hslots'.distinct, fun i hi => ?_, hslots ▸ hfew⟩
  rw [hslots]
  exact hslots'.below i (hperm.mem_iff.mpr hi)

theorem shows_empty (sig : Signature) (outer : List FrameScope) : Layer.Shows ⟨[[]], [], .empty sig⟩ outer := by
  refine ⟨List.cons_ne_nil _ _, rfl, fun k hk name => ?_, by simp, ⟨by simp [Body.empty], by simp [Body.empty]⟩, ?_⟩
  · obtain rfl : k = 0 := by simpa using hk
    rfl
  · exact ⟨by simp [Layer.varSlots, Body.empty], by simp [Layer.varSlots, Body.empty]⟩

theorem shows_method (sig : Signature) (c : ClassId) (outer : List FrameScope) :
    Layer.Shows ⟨[[Typed.thisVar c]], [Typed.thisVar c], .method sig c⟩ outer := by
  have hadd := (shows_empty sig outer).add (v := Typed.thisVar c) rfl rfl
  exact ⟨hadd.block, hadd.blocks, hadd.finds, hadd.inScope, hadd.captured, hadd.slots⟩

end Frames

end Weft.Analysis
