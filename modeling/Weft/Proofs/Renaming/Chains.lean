import Weft.Proofs.Renaming.Programs

/-!
# Analyses and chains of renamed symbols

An analysis that is carried over to other identities gives the same result with these identities, leaves the same
bodies, and reports the same problems. It does so also when it breaks off.
-/

namespace Weft.Analysis

/-! ## Bodies -/

section Bodies

variable (σ : Renaming)

/-- The variables of blocks, with other identities. -/
def renameBlocks (blocks : List (List (String × LocalVar))) : List (List (String × LocalVar)) :=
  blocks.map (List.map fun e => (e.1, e.2.rename σ))

/-- A body with other identities. -/
def Body.rename (b : Body) : Body :=
  { b with blocks := renameBlocks σ b.blocks, sig := b.sig.rename σ, cls := b.cls.map σ.cls }

namespace Body

@[simp] theorem rename_empty (sig : Signature) : (empty sig).rename σ = empty (sig.rename σ) := rfl

@[simp] theorem rename_empty_default : (empty default).rename σ = empty default :=
  congrArg empty (Signature.rename_default σ)

@[simp] theorem rename_slots (b : Body) : (b.rename σ).slots = b.slots := rfl

@[simp] theorem rename_sig (b : Body) : (b.rename σ).sig = b.sig.rename σ := rfl

@[simp] theorem rename_around (b : Body) : (b.rename σ).around = b.around := rfl

@[simp] theorem rename_hasYield (b : Body) : (b.rename σ).hasYield = b.hasYield := rfl

@[simp] theorem rename_upvals (b : Body) : (b.rename σ).upvals = b.upvals := rfl

@[simp] theorem loopState_rename (b : Body) : (b.rename σ).loopState = b.loopState := rfl

theorem rename_add (b : Body) (v : LocalVar) : (b.add v).rename σ = (b.rename σ).add (v.rename σ) := by
  obtain ⟨blocks, slots, around, hasYield, sig, cls, upvals⟩ := b
  cases blocks <;> rfl

@[simp] theorem rename_method (sig : Signature) (c : ClassId) :
    (method sig c).rename σ = method (sig.rename σ) (σ.cls c) := rfl

theorem find?_rename (b : Body) (name : String) : (b.rename σ).find? name = (b.find? name).map (LocalVar.rename σ) := by
  obtain ⟨blocks, slots, around, hasYield, sig, cls, upvals⟩ := b
  have hblock : ∀ vs : List (String × LocalVar),
      (vs.map fun e => (e.1, e.2.rename σ)).lookup name = (vs.lookup name).map (LocalVar.rename σ) := by
    intro vs
    induction vs with
    | nil => rfl
    | cons e vs ih =>
      rw [List.map_cons, List.lookup_cons, List.lookup_cons, ih]
      cases name == e.1 <;> rfl
  change (renameBlocks σ blocks).findSome? (·.lookup name) = (blocks.findSome? (·.lookup name)).map _
  induction blocks with
  | nil => rfl
  | cons vs blocks ih =>
    rw [renameBlocks, List.map_cons, List.findSome?_cons, List.findSome?_cons, hblock]
    cases vs.lookup name with
    | none => exact ih
    | some v => rfl

theorem addOutermost_rename (v : LocalVar) (blocks : List (List (String × LocalVar))) :
    addOutermost (v.rename σ) (renameBlocks σ blocks) = renameBlocks σ (addOutermost v blocks) := by
  induction blocks with
  | nil => rfl
  | cons vs blocks ih =>
    cases blocks with
    | nil => rfl
    | cons ws blocks => exact congrArg _ ih

/-- A variable is captured under a renaming as it is captured without. -/
theorem capture_rename (b : Body) (src : LocalVar) :
    (b.rename σ).capture (src.rename σ) = Prod.map (LocalVar.rename σ) (Body.rename σ) (b.capture src) := by
  unfold capture
  have hblocks := addOutermost_rename σ { src with slot := b.slots } b.blocks
  simp only [LocalVar.rename] at hblocks
  simp only [Prod.map, Body.rename, LocalVar.rename, hblocks]
  rfl

end Body

theorem findVar_rename (name : String) (bs : List Body) :
    findVar name (bs.map (Body.rename σ)) =
      (findVar name bs).map (Prod.map (LocalVar.rename σ) (List.map (Body.rename σ))) := by
  induction bs with
  | nil => rfl
  | cons b outer ih =>
    rw [List.map_cons, findVar, findVar, Body.find?_rename, ih]
    cases b.find? name with
    | some v => rfl
    | none =>
      cases findVar name outer with
      | none => rfl
      | some found =>
        obtain ⟨src, outer'⟩ := found
        simp only [Option.map_none, Option.map_some, Prod.map, Body.capture_rename, List.map_cons]

end Bodies

/-! ## Carrying analyses over -/

/-- The second analysis does with renamed symbols what the first does with the symbols. Neither changes the symbols. -/
def Carries (σ : Renaming) (s s' : Store) {α β : Type} (f : α → β) (m : Analysis α) (m' : Analysis β) : Prop :=
  ∀ file sc bs, ∃ r bs' ds,
    @Eq (Reported (Except Typed.ArgumentsError α × State)) (m ⟨file, sc⟩ ⟨s, bs⟩) ⟨(r, ⟨s, bs'⟩), ds⟩ ∧
      @Eq (Reported (Except Typed.ArgumentsError β × State))
        (m' ⟨file, sc.rename σ⟩ ⟨s', bs.map (Body.rename σ)⟩) ⟨(r.map f, ⟨s', bs'.map (Body.rename σ)⟩), ds⟩

section Carries

variable {σ : Renaming} {s s' : Store} {α β γ δ ι : Type} {f : α → β} {g : γ → δ}

theorem carries_pure {a : α} {b : β} (h : b = f a) : Carries σ s s' f (pure a) (pure b) :=
  fun _ _ bs => ⟨.ok a, bs, [], rfl, by rw [h]; rfl⟩

/-- Analyses are carried over one after the other. -/
theorem Carries.bind {m : Analysis α} {m' : Analysis β} {k : α → Analysis γ} {k' : β → Analysis δ}
    (hm : Carries σ s s' f m m') (hk : ∀ a, Carries σ s s' g (k a) (k' (f a))) :
    Carries σ s s' g (m >>= k) (m' >>= k') := by
  intro file sc bs
  obtain ⟨r, bs₁, ds, h, h'⟩ := hm file sc bs
  rw [bind_run, bind_run, h, h']
  cases r with
  | error e => exact ⟨.error e, bs₁, ds, rfl, rfl⟩
  | ok a =>
    obtain ⟨r, bs₂, ds', h, h'⟩ := hk a file sc bs₁
    exact ⟨r, bs₂, ds ++ ds', by simp only [h], by simp only [Except.map, h']⟩

theorem Carries.map {m : Analysis α} {m' : Analysis β} {k : α → γ} {k' : β → δ} (hm : Carries σ s s' f m m')
    (hk : ∀ a, k' (f a) = g (k a)) : Carries σ s s' g (k <$> m) (k' <$> m') := by
  rw [← bind_pure_comp, ← bind_pure_comp]
  exact hm.bind fun a => carries_pure (hk a)

theorem carries_report {span : Span} {p p' : Problem} (h : p' = p) :
    Carries σ s s' id (report span p) (report span p') := by
  subst h
  exact fun _ _ bs => ⟨.ok (), bs, _, rfl, rfl⟩

theorem carries_report_bind {span : Span} {p p' : Problem} {k : Unit → Analysis γ} {k' : Unit → Analysis δ}
    (h : p' = p) (hk : Carries σ s s' g (k ()) (k' ())) :
    Carries σ s s' g (report span p >>= k) (report span p' >>= k') := (carries_report h).bind fun _ => hk

theorem carries_ite {c c' : Prop} [Decidable c] [Decidable c'] {m n : Analysis α} {m' n' : Analysis β} (hc : c' ↔ c)
    (hm : Carries σ s s' f m m') (hn : Carries σ s s' f n n') :
    Carries σ s s' f (if c then m else n) (if c' then m' else n') := by
  by_cases h : c
  · rwa [if_pos h, if_pos (hc.mpr h)]
  · rwa [if_neg h, if_neg (mt hc.mp h)]

theorem carries_guard {c c' : Prop} [Decidable c] [Decidable c'] {span : Span} {p p' : Problem}
    {k : Unit → Analysis γ} {k' : Unit → Analysis δ} (hc : c' ↔ c) (hp : p' = p)
    (hk : Carries σ s s' g (k ()) (k' ())) :
    Carries σ s s' g (if c then report span p >>= k else k ()) (if c' then report span p' >>= k' else k' ()) :=
  carries_ite hc (carries_report_bind hp hk) hk

theorem carries_store_bind {k : Store → Analysis γ} {k' : Store → Analysis δ} (hk : Carries σ s s' g (k s) (k' s')) :
    Carries σ s s' g (store >>= k) (store >>= k') := by
  intro file sc bs
  obtain ⟨r, bs', ds, h, h'⟩ := hk file sc bs
  exact ⟨r, bs', ds, h, h'⟩

theorem carries_lift {e : Except Typed.ArgumentsError α} : Carries σ s s' id (liftM e) (liftM e) := by
  intro file sc bs
  refine ⟨e, bs, [], ?_, ?_⟩
  · cases e <;> rfl
  · cases e <;> rfl

theorem carries_mapM {k : ι → Analysis α} {k' : ι → Analysis β} (hk : ∀ x, Carries σ s s' f (k x) (k' x)) (xs : List ι) :
    Carries σ s s' (List.map f) (xs.mapM k) (xs.mapM k') := by
  induction xs with
  | nil =>
    rw [List.mapM_nil, List.mapM_nil]
    exact carries_pure rfl
  | cons x xs ih =>
    rw [List.mapM_cons, List.mapM_cons]
    exact (hk x).bind fun _ => ih.bind fun _ => carries_pure rfl

theorem carries_optionMapM {k : ι → Analysis α} {k' : ι → Analysis β} (hk : ∀ x, Carries σ s s' f (k x) (k' x))
    (x : Option ι) : Carries σ s s' (Option.map f) (x.mapM k) (x.mapM k') := by
  cases x with
  | none => exact carries_pure rfl
  | some x => exact (hk x).map fun _ => rfl

/-! ### Steps -/

theorem carries_lookup (h : s.Named σ s') {name : String} :
    Carries σ s s' (Option.map (Found.rename σ)) (lookup name) (lookup name) := by
  intro file sc bs
  refine ⟨.ok (sc.lookup s name), bs, [], rfl, ?_⟩
  change Reported.mk (Except.ok ((sc.rename σ).lookup s' name), _) _ = _
  rw [h.lookup]
  rfl

theorem carries_typeName (h : s.Named σ s') {t : Ty} : Carries σ s s' id (typeName t) (typeName (t.rename σ)) := by
  intro file sc bs
  refine ⟨.ok (t.typeName s), bs, [], rfl, ?_⟩
  change Reported.mk (Except.ok ((t.rename σ).typeName s'), _) _ = _
  rw [Ty.typeName_rename h]
  rfl

theorem carries_localVar {name : String} :
    Carries σ s s' (Option.map (LocalVar.rename σ)) (localVar name) (localVar name) := by
  intro file sc bs
  have hfound := findVar_rename σ name bs
  cases hv : findVar name bs with
  | none =>
    rw [hv] at hfound
    exact ⟨.ok none, bs, [], accepts_localVar.mpr (.inl ⟨hv, rfl, rfl⟩), accepts_localVar.mpr (.inl ⟨hfound, rfl, rfl⟩)⟩
  | some found =>
    rw [hv] at hfound
    exact ⟨.ok (some found.1), found.2, [], accepts_localVar.mpr (.inr ⟨_, _, hv, rfl, rfl⟩),
      accepts_localVar.mpr (.inr ⟨_, _, hfound, rfl, rfl⟩)⟩

theorem carries_body : Carries σ s s' (Body.rename σ) body body := by
  intro file sc bs
  cases bs with
  | nil => exact ⟨.ok (.empty default), [], [], rfl, by rw [Except.map, Body.rename_empty_default]; rfl⟩
  | cons b bs => exact ⟨.ok b, b :: bs, [], rfl, rfl⟩

theorem carries_updateBody {k k' : Body → Body} (hk : ∀ b, k' (b.rename σ) = (k b).rename σ) :
    Carries σ s s' id (updateBody k) (updateBody k') := by
  intro file sc bs
  cases bs with
  | nil => exact ⟨.ok (), [], [], rfl, rfl⟩
  | cons b bs =>
    refine ⟨.ok (), k b :: bs, [], rfl, ?_⟩
    rw [List.map_cons, List.map_cons, ← hk]
    rfl

theorem carries_thisClass : Carries σ s s' (Option.map σ.cls) thisClass thisClass := by
  have hfind : ∀ bs : List Body, (bs.map (Body.rename σ)).findSome? (·.cls) = (bs.findSome? (·.cls)).map σ.cls := by
    intro bs
    induction bs with
    | nil => rfl
    | cons b bs ih =>
      rw [List.map_cons, List.findSome?_cons, List.findSome?_cons, ih, Body.rename]
      cases b.cls <;> rfl
  intro file sc bs
  refine ⟨.ok (bs.findSome? (·.cls)), bs, [], rfl, ?_⟩
  rw [Except.map, ← hfind]
  rfl

theorem carries_declare {name : String} {t : Ty} {ref : Bool} :
    Carries σ s s' (LocalVar.rename σ) (declare name t ref) (declare name (t.rename σ) ref) := by
  unfold declare
  refine carries_body.bind fun b => ?_
  refine (carries_updateBody fun b' => ?_).bind fun _ => carries_pure rfl
  exact (Body.rename_add σ b' { name, type := some t, slot := b.slots, ref }).symm

theorem carries_inBlock {m : Analysis α} {m' : Analysis β} (hm : Carries σ s s' f m m') :
    Carries σ s s' f (inBlock m) (inBlock m') := by
  unfold inBlock
  refine Carries.bind (carries_updateBody ?_) fun _ => ?_
  · exact fun b => rfl
  refine hm.bind fun a => ?_
  refine Carries.bind (carries_updateBody fun b => ?_) fun _ => carries_pure rfl
  obtain ⟨blocks, slots, around, hasYield, sig, cls, upvals⟩ := b
  cases blocks <;> rfl

theorem carries_inside {e : Enclosing} {m : Analysis α} {m' : Analysis β} (hm : Carries σ s s' f m m') :
    Carries σ s s' f (inside e m) (inside e m') := by
  unfold inside
  refine Carries.bind (carries_updateBody ?_) fun _ => ?_
  · exact fun b => rfl
  refine hm.bind fun a => ?_
  refine Carries.bind (carries_updateBody ?_) fun _ => carries_pure rfl
  exact fun b => rfl

theorem carries_inBody {b : Body} {m : Analysis α} {m' : Analysis β} (hm : Carries σ s s' f m m') :
    Carries σ s s' (Prod.map f (Body.rename σ)) (inBody b m) (inBody (b.rename σ) m') := by
  have hpush : Carries σ s s' id (modify fun st : State => { st with bodies := b :: st.bodies })
      (modify fun st : State => { st with bodies := b.rename σ :: st.bodies }) :=
    fun _ _ bs => ⟨.ok (), b :: bs, [], rfl, rfl⟩
  have hpop : Carries σ s s' id (modify fun st : State => { st with bodies := st.bodies.tail })
      (modify fun st : State => { st with bodies := st.bodies.tail }) := by
    intro _ _ bs
    refine ⟨.ok (), bs.tail, [], rfl, ?_⟩
    rw [List.map_tail]
    rfl
  unfold inBody
  refine hpush.bind fun _ => ?_
  refine hm.bind fun a => ?_
  refine carries_body.bind fun last => ?_
  exact hpop.bind fun _ => carries_pure rfl

theorem carries_checkAssignable (h : s.Mirrors σ s') {span : Span} {a b : Option Ty} :
    Carries σ s s' id (checkAssignable span a b)
      (checkAssignable span (a.map (Ty.rename σ)) (b.map (Ty.rename σ))) := by
  cases a with
  | none => exact carries_pure rfl
  | some src =>
    cases b with
    | none => exact carries_pure rfl
    | some dst =>
      refine carries_store_bind (carries_ite ?_ (carries_report ?_) (carries_ite ?_ (carries_report ?_) (carries_pure rfl)))
      · rw [h.unusable]
      · rw [Ty.typeName_rename h.named]
      · rw [h.assignable]
      · rw [Ty.typeName_rename h.named, Ty.typeName_rename h.named]

end Carries

/-! ## Written types -/

section Written

variable {σ : Renaming} {s s' : Store}

theorem carries_foundType (allowVoid : Bool) (span : Span) (r : Except ResolveError Ty) :
    Carries σ s s' (Option.map (Ty.rename σ))
      (match r with
        | .error e => do
          report span (.unresolvedType e)
          return none
        | .ok t =>
          if t.is .void && !allowVoid then do
            report span .voidType
            return none
          else return some t)
      (match r.map (Ty.rename σ) with
        | .error e => do
          report span (.unresolvedType e)
          return none
        | .ok t =>
          if t.is .void && !allowVoid then do
            report span .voidType
            return none
          else return some t) := by
  cases r with
  | error e => exact carries_report_bind rfl (carries_pure rfl)
  | ok t => exact carries_ite (by rw [Ty.is_rename]) (carries_report_bind rfl (carries_pure rfl)) (carries_pure rfl)

/-- A type is looked up in the scope of its place. -/
theorem carries_named (h : s.Named σ s') {allowVoid : Bool} {span : Span} {path : List String} :
    Carries σ s s' (Option.map (Ty.rename σ)) (resolveType allowVoid (.named span path))
      (resolveType allowVoid (.named span path)) := by
  intro file sc bs
  have hfound : _ = (s.resolveType (sc.lookup s) path).map _ := h.resolveType (h.lookup sc) path
  have hcase : Carries σ s s' _ _ _ := carries_foundType allowVoid span (s.resolveType (sc.lookup s) path)
  obtain ⟨r, bs', ds, hr, hr'⟩ := hcase file sc bs
  refine ⟨r, bs', ds, ?_, ?_⟩
  · rw [← hr]
    rfl
  · rw [← hr', ← hfound]
    rfl

mutual

/-- Written types are resolved under a renaming as they are without. -/
theorem carries_resolveType (h : s.Named σ s') (allowVoid : Bool) : (te : Tree.TypeExpr) →
    Carries σ s s' (Option.map (Ty.rename σ)) (resolveType allowVoid te) (resolveType allowVoid te)
  | .named .. => carries_named h
  | .array _ elem => by
    unfold resolveType
    refine (carries_resolveType h false elem).bind fun t => carries_pure ?_
    cases t <;> simp
  | .map _ key value => by
    unfold resolveType
    refine (carries_resolveType h false key).bind fun k => ?_
    refine (carries_resolveType h false value).bind fun v => ?_
    cases k with
    | none => exact carries_pure rfl
    | some k =>
      cases v with
      | none => exact carries_pure rfl
      | some v => exact carries_pure (by simp)
  | .func _ coro returns params => by
    unfold resolveType
    have hrest : ∀ ret : Option Ty, Carries σ s s' (Option.map (Ty.rename σ))
        (do
          match ret, ← resolveParamTypes params with
          | some returns, some params => return some (Ty.func { returns, params, defaults := 0, coro })
          | _, _ => return none)
        (do
          match ret.map (Ty.rename σ), ← resolveParamTypes params with
          | some returns, some params => return some (Ty.func { returns, params, defaults := 0, coro })
          | _, _ => return none) := by
      intro ret
      refine (carries_resolveParamTypes h params).bind fun ps => ?_
      cases ret with
      | none => exact carries_pure rfl
      | some ret =>
        cases ps with
        | none => exact carries_pure rfl
        | some ps => exact carries_pure (by simp [Signature.rename_eq])
    match returns with
    | [] => exact Carries.bind (f := Option.map (Ty.rename σ)) (carries_pure (by simp)) hrest
    | [t] => exact (carries_resolveType h true t).bind hrest
    | t :: u :: ts =>
      refine (carries_resolveTypes h (t :: u :: ts)).bind fun r => ?_
      refine Carries.bind (f := Option.map (Ty.rename σ)) (carries_pure ?_) hrest
      cases r <;> simp

theorem carries_resolveTypes (h : s.Named σ s') : (ts : List Tree.TypeExpr) →
    Carries σ s s' (Option.map (List.map (Ty.rename σ))) (resolveTypes ts) (resolveTypes ts)
  | [] => by
    unfold resolveTypes
    exact carries_pure rfl
  | t :: ts => by
    unfold resolveTypes
    refine (carries_resolveType h false t).bind fun r => ?_
    cases r with
    | none => exact carries_pure rfl
    | some t =>
      refine (carries_resolveTypes h ts).bind fun rs => carries_pure ?_
      cases rs <;> simp

theorem carries_resolveParamTypes (h : s.Named σ s') : (ps : List (Bool × Tree.TypeExpr)) →
    Carries σ s s' (Option.map (List.map fun p => (p.1, p.2.rename σ))) (resolveParamTypes ps) (resolveParamTypes ps)
  | [] => by
    unfold resolveParamTypes
    exact carries_pure rfl
  | (ref, t) :: ps => by
    unfold resolveParamTypes
    refine (carries_resolveType h false t).bind fun r => ?_
    cases r with
    | none => exact carries_pure rfl
    | some t =>
      refine (carries_resolveParamTypes h ps).bind fun rs => carries_pure ?_
      cases rs <;> simp

end

theorem carries_resolveReturns (h : s.Named σ s') (ts : List Tree.TypeExpr) :
    Carries σ s s' (Option.map (Ty.rename σ)) (resolveReturns ts) (resolveReturns ts) := by
  unfold resolveReturns
  match ts with
  | [] => exact carries_pure (by simp)
  | [t] => exact carries_resolveType h true t
  | t :: u :: ts =>
    refine (carries_resolveTypes h (t :: u :: ts)).bind fun r => carries_pure ?_
    cases r <;> simp

theorem getD_any_rename (t : Option Ty) : (t.map (Ty.rename σ)).getD .any = (t.getD .any).rename σ := by
  cases t <;> simp

theorem carries_resolveParams (h : s.Named σ s') (ps : List Tree.Param) {seen : List String} {defaults : Nat} :
    Carries σ s s' (Prod.map (List.map fun p => (p.1, p.2.rename σ)) id) (resolveParams seen defaults ps)
      (resolveParams seen defaults ps) := by
  induction ps generalizing seen defaults with
  | nil =>
    unfold resolveParams
    exact carries_pure rfl
  | cons p ps ih =>
    unfold resolveParams
    refine carries_guard Iff.rfl rfl ?_
    refine (carries_resolveType h false p.type).bind fun t => ?_
    refine carries_guard Iff.rfl rfl (carries_guard Iff.rfl rfl ?_)
    refine ih.bind fun rest => carries_pure ?_
    simp only [getD_any_rename]
    rfl

/-- Signatures are resolved under a renaming as they are without. -/
theorem carries_resolveSignature (h : s.Named σ s') (coro : Bool) (returns : List Tree.TypeExpr)
    (params : List Tree.Param) : Carries σ s s' (Signature.rename σ) (resolveSignature coro returns params)
      (resolveSignature coro returns params) := by
  unfold resolveSignature
  refine (carries_resolveReturns h returns).bind fun ret => ?_
  refine (carries_resolveParams h params).bind fun types => ?_
  have hdone : Carries σ s s' (Signature.rename σ)
      (pure ⟨ret.getD .any, types.1, types.2, coro⟩)
      (pure ⟨(ret.map (Ty.rename σ)).getD .any, types.1.map fun p => (p.1, p.2.rename σ), types.2, coro⟩) :=
    carries_pure (by rw [Signature.rename_eq, getD_any_rename])
  match params with
  | [] => exact hdone
  | p :: _ => exact carries_guard (by simp) rfl (carries_guard Iff.rfl rfl hdone)

end Written

end Weft.Analysis

/-!
## Chains of renamed symbols

Chains are resolved under a renaming as they are without, step by step.
-/

namespace Weft

/-! ## Members of builtin collections -/

/-- A member of a builtin collection with other identities in its type. -/
def NativeMember.rename (σ : Renaming) : NativeMember → NativeMember
  | .property f => .property (f.rename σ)
  | .method f => .method (f.rename σ)

section NativeMembers

variable {σ : Renaming}

theorem NativeMember.call_rename (name : String) (index : Int) (returns : Ty) (params : List Ty) (param : String) :
    (NativeMember.call name index (.plain returns params) param).rename σ =
      .call name index (.plain (returns.rename σ) (params.map (Ty.rename σ))) param := by
  simp [NativeMember.call, NativeMember.rename, Func.rename, Func.bare, Owner.rename, Signature.plain,
    Signature.rename_eq, Function.comp_def]

theorem NativeMember.count_rename : NativeMember.count.rename σ = .count := by
  simp [NativeMember.count, NativeMember.rename, Field.rename]

theorem arrayMember?_rename (elem : Ty) (name : String) :
    arrayMember? (elem.rename σ) name = (arrayMember? elem name).map (NativeMember.rename σ) := by
  unfold arrayMember?
  split <;> simp [NativeMember.call_rename, NativeMember.count_rename]

theorem mapMember?_rename (key : Ty) (name : String) :
    mapMember? (key.rename σ) name = (mapMember? key name).map (NativeMember.rename σ) := by
  unfold mapMember?
  split <;> simp [NativeMember.call_rename, NativeMember.count_rename]

end NativeMembers

namespace Analysis

open Typed (Arguments)

section Renamed

variable (σ : Renaming)

/-- Where a chain stands, with other identities. -/
def Stand.rename : Stand → Stand
  | value type viaBase => .value (type.map (Ty.rename σ)) viaBase
  | static f => .static (f.rename σ)
  | failed => .failed

/-- A chain with other identities. -/
def Walk.rename (w : Walk) : Walk := { links := w.links.map (Typed.Expr.rename σ), stand := w.stand.rename σ }

/-- An access mode with other identities in the written value. -/
def Mode.rename : Mode → Mode
  | read => .read
  | write value => .write (value.map (Typed.Expr.rename σ))

/-- A member with another identity. -/
def Member.rename : Member → Member
  | field f => .field (σ.field f)
  | method f => .method (σ.func f)
  | native m => .native (m.rename σ)
  | other => .other

@[simp] theorem Walk.rename_links (w : Walk) : (w.rename σ).links = w.links.map (Typed.Expr.rename σ) := rfl

@[simp] theorem Walk.rename_stand (w : Walk) : (w.rename σ).stand = w.stand.rename σ := rfl

@[simp] theorem Walk.rename_fail (w : Walk) : w.fail.rename σ = (w.rename σ).fail := rfl

@[simp] theorem Walk.rename_push (w : Walk) (x : Typed.Expr) (t : Option Ty) :
    (w.push x t).rename σ = (w.rename σ).push (x.rename σ) (t.map (Ty.rename σ)) := by
  simp [Walk.push, Walk.rename, Stand.rename]

@[simp] theorem Walk.isFailed_rename (w : Walk) : (w.rename σ).isFailed = w.isFailed := by
  obtain ⟨links, stand⟩ := w
  cases stand <;> rfl

@[simp] theorem Mode.isWrite_rename (m : Mode) : (m.rename σ).isWrite = m.isWrite := by cases m <;> rfl

@[simp] theorem Mode.values_rename (m : Mode) : (m.rename σ).values = m.values.map (Typed.Expr.rename σ) := by
  cases m with
  | read => rfl
  | write value => cases value <;> rfl

@[simp] theorem Mode.last_rename (m : Mode) (isLast : Bool) : (m.rename σ).last isLast = (m.last isLast).rename σ := by
  cases isLast <;> rfl

@[simp] theorem rename_access (line : Nat) (a : Typed.Access) (name : String) (type : Option Ty)
    (children : List Typed.Expr) :
    (access line a name type children).rename σ =
      access line (a.rename σ) name (type.map (Ty.rename σ)) (children.map (Typed.Expr.rename σ)) := by
  simp [access]

@[simp] theorem rename_nullLiteral (line : Nat) : (Typed.nullLiteral line).rename σ = Typed.nullLiteral line := by
  simp [Typed.nullLiteral]

theorem endsInWrite_rename (links : List Typed.Expr) :
    endsInWrite (links.map (Typed.Expr.rename σ)) = endsInWrite links := by
  unfold endsInWrite
  rw [List.getLast?_map]
  cases links.getLast? with
  | none => rfl
  | some x =>
    cases x with
    | call c =>
      obtain ⟨line, a, name, t, args, site, children⟩ := c
      simp
    | _ => simp

end Renamed

/-- The analyses of the phrases inside a phrase are carried over. -/
structure Visit.Carries (σ : Renaming) (s s' : Store) (v : Visit) : Prop where
  expr : ∀ x expect, Analysis.Carries σ s s' (Prod.map (Typed.Expr.rename σ) (Option.map (Ty.rename σ)))
    (v.expr x expect) (v.expr x (expect.map (Ty.rename σ)))
  stmt : ∀ x, Analysis.Carries σ s s' (List.map (Typed.Stmt.rename σ)) (v.stmt x) (v.stmt x)

section Chains

variable {σ : Renaming} {s s' : Store} {v : Visit}

theorem foundName_rename (h : s.Mirrors σ s') (f : Found) : foundName s' (f.rename σ) = foundName s f := by
  cases f with
  | sym a => exact h.named.nameOf a
  | view v => rfl

theorem carries_failWith {w : Walk} {span : Span} {p p' : Problem} (hp : p' = p) :
    Carries σ s s' (Walk.rename σ) (failWith w span p) (failWith (w.rename σ) span p') :=
  carries_report_bind hp (carries_pure rfl)

theorem carries_failStep {w : Walk} {span : Span} {p p' : Problem} (hp : p' = p) :
    Carries σ s s' (Prod.map (Walk.rename σ) id) (do return (← failWith w span p, false))
      (do return (← failWith (w.rename σ) span p', false)) := (carries_failWith hp).bind fun _ => carries_pure rfl

/-! ### Arguments -/

theorem carries_passArguments (names : List String) (as : List Tree.Arg) (p : Passing) :
    Carries σ s s' id (passArguments names as p) (passArguments names as p) := by
  induction as generalizing p with
  | nil =>
    rw [passArguments]
    exact carries_pure rfl
  | cons a rest ih =>
    have hgive : ∀ p i, Carries σ s s' id (passArguments.give names a rest p i) (passArguments.give names a rest p i) := by
      intro p i
      unfold passArguments.give
      rcases p.places[i]? with _ | _ | _
      · exact carries_report_bind rfl (carries_pure rfl)
      · exact ih _
      · exact carries_report_bind rfl (ih _)
    rw [passArguments]
    cases a.name with
    | some name =>
      simp only []
      cases paramPosition? names name with
      | none => exact carries_report_bind rfl (ih _)
      | some i => exact hgive _ _
    | none => exact carries_ite Iff.rfl (carries_report_bind rfl (ih _)) (hgive _ _)

variable (h : s.Mirrors σ s') (hv : v.Carries σ s s')
include h hv

omit hv in
theorem carries_passLocal (a : Tree.Arg) (ref : Bool) (type : Ty) (found : Option LocalVar) :
    Carries σ s s' (Typed.Expr.rename σ)
      (do
        let line := a.value.span.start.line
        match found with
        | none =>
          report a.span .refNotLocal
          return Typed.nullLiteral line
        | some x =>
          let s ← store
          if ref && !identicalTypes s x.type (some type) then
            report a.span (.incompatible (type.typeName s) (typeNameOr s x.type))
          return access line (.varRef x) x.name x.type [])
      (do
        let line := a.value.span.start.line
        match found.map (LocalVar.rename σ) with
        | none =>
          report a.span .refNotLocal
          return Typed.nullLiteral line
        | some x =>
          let s ← store
          if ref && !identicalTypes s x.type (some (type.rename σ)) then
            report a.span (.incompatible ((type.rename σ).typeName s) (typeNameOr s x.type))
          return access line (.varRef x) x.name x.type []) := by
  cases found with
  | none => exact carries_report_bind rfl (carries_pure (by simp))
  | some x =>
    refine carries_store_bind (carries_guard ?_ ?_ (carries_pure ?_))
    · rw [show (some (type.rename σ)) = (some type).map (Ty.rename σ) from rfl, LocalVar.rename, h.identicalTypes]
    · rw [Ty.typeName_rename h.named, LocalVar.rename, typeNameOr_rename h.named]
    · simp [LocalVar.rename, Typed.Access.rename]

theorem carries_passArgument (a : Tree.Arg) (ref : Bool) (type : Ty) :
    Carries σ s s' (Typed.Expr.rename σ) (passArgument v a ref type) (passArgument v a ref (type.rename σ)) := by
  unfold passArgument
  refine carries_guard Iff.rfl rfl (carries_guard Iff.rfl rfl (carries_ite Iff.rfl ?_ ?_))
  · refine (hv.expr a.value (some type)).bind fun r => ?_
    exact (carries_checkAssignable h (b := some type)).bind fun _ => carries_pure rfl
  · split
    · exact carries_localVar.bind (carries_passLocal h a ref type)
    · exact Carries.bind (f := Option.map (LocalVar.rename σ)) (carries_pure rfl) (carries_passLocal h a ref type)

theorem carries_fillParams (line : Nat) (span : Span) (names : List String) (required : Int) (count : Nat)
    (ps : List (Option Tree.Arg × Bool × Ty)) (i : Nat) (bits : Arguments) :
    Carries σ s s' (Prod.map (List.map (Typed.Expr.rename σ)) id) (fillParams v line span names required count i ps bits)
      (fillParams v line span names required count i (ps.map fun p => (p.1, p.2.1, p.2.2.rename σ)) bits) := by
  induction ps generalizing i bits with
  | nil =>
    unfold fillParams
    exact carries_pure rfl
  | cons p rest ih =>
    obtain ⟨place, ref, type⟩ := p
    cases place with
    | some a =>
      unfold fillParams
      refine (carries_passArgument h hv a ref type).bind fun x => ?_
      exact (ih (i + 1) bits).bind fun r => carries_pure rfl
    | none =>
      unfold fillParams
      refine carries_ite Iff.rfl (carries_report_bind rfl (ih _ _)) ?_
      refine carries_lift.bind fun bits => ?_
      refine (ih (i + 1) bits).bind fun r => carries_pure ?_
      simp only [Prod.map, id]
      split <;> simp

theorem carries_arguments (line : Nat) (sig : Signature) (names : List String) (c : Tree.Call) :
    Carries σ s s' (Prod.map (List.map (Typed.Expr.rename σ)) id) (arguments v line sig names c)
      (arguments v line (sig.rename σ) names c) := by
  have hzip : ∀ places : List (Option Tree.Arg), places.zip (sig.rename σ).params =
      (places.zip sig.params).map fun p => (p.1, p.2.1, p.2.2.rename σ) := by
    intro places
    rw [Signature.rename_params, List.zip_map_right]
    rfl
  unfold arguments
  simp only [Signature.rename_params, List.length_map, Signature.required_rename]
  refine (carries_passArguments names c.args _).bind fun places => ?_
  refine carries_ite Iff.rfl (carries_report_bind rfl (carries_pure rfl)) ?_
  rw [id, ← Signature.rename_params, hzip]
  refine (carries_fillParams h hv line c.span names sig.required _ _ 0 .empty).bind fun r => ?_
  exact carries_lift.bind fun args => carries_pure rfl

/-- A call is carried over with its arguments. -/
theorem carries_callFunction {line : Nat} {a : Typed.Access} {name name' callee callee' : String} {sig sig' : Signature}
    {names names' : List String} {c : Tree.Call} {w : Walk} (hname : name' = name) (hcallee : callee' = callee)
    (hsig : sig' = sig.rename σ) (hnames : names' = names) :
    Carries σ s s' (Walk.rename σ) (callFunction v line a name callee sig names c w)
      (callFunction v line (a.rename σ) name' callee' sig' names' c (w.rename σ)) := by
  subst hname hcallee hsig hnames
  unfold callFunction
  refine (carries_arguments h hv line sig names' c).bind fun r => carries_pure ?_
  simp

/-! ### Steps -/

theorem carries_symbolStep (m : Mode) (span : Span) (f : Found) (next : Option Tree.Call) (w : Walk) :
    Carries σ s s' (Prod.map (Walk.rename σ) id) (symbolStep v m span f next w)
      (symbolStep v (m.rename σ) span (f.rename σ) next (w.rename σ)) := by
  have hmisplaced : Carries σ s s' (Prod.map (Walk.rename σ) id)
      (do return (← failWith w span (.misplaced (foundName s f)), false))
      (do return (← failWith (w.rename σ) span (.misplaced (foundName s' (f.rename σ))), false)) :=
    carries_failStep (by rw [foundName_rename h])
  have hstatic : Carries σ s s' (Prod.map (Walk.rename σ) id) (pure ({ w with stand := .static f }, false))
      (pure ({ w.rename σ with stand := .static (f.rename σ) }, false)) := carries_pure rfl
  unfold symbolStep
  refine carries_store_bind ?_
  cases f with
  | view w => exact hstatic
  | sym a =>
    cases a with
    | global g =>
      refine carries_pure ?_
      simp only [h.global, Global.rename, Mode.isWrite_rename, Mode.values_rename, Prod.map, Walk.rename_push,
        rename_access]
      cases m.isWrite <;> rfl
    | func g =>
      cases next with
      | none =>
        refine carries_pure ?_
        simp only [h.func_signature, h.func_name, Prod.map, Walk.rename_push, rename_access, Option.map_some,
          Ty.rename_func]
        rfl
      | some c =>
        refine Carries.bind ?_ fun w' => carries_pure rfl
        exact carries_callFunction h hv (h.func_name g) (h.func_name g) (h.func_signature g) (h.func_params g)
    | field f => exact hmisplaced
    | item i => exact hmisplaced
    | localVar x => exact hmisplaced
    | _ => exact hstatic

omit hv in
theorem memberOf?_rename (type : Option Ty) (name : String) :
    memberOf? s' (type.map (Ty.rename σ)) name = (memberOf? s type name).map (Member.rename σ) := by
  cases type with
  | none => rfl
  | some t =>
    cases t with
    | cls c =>
      simp only [Option.map_some, Ty.rename_cls, memberOf?, h.classMember?, Option.map_map]
      congr 1
      funext a
      cases a <;> rfl
    | iface i =>
      simp only [Option.map_some, Ty.rename_iface, memberOf?, h.interfaceMember?, Option.map_map]
      congr 1
      funext a
      cases a <;> rfl
    | array elem =>
      simp only [Option.map_some, Ty.rename_array, memberOf?, arrayMember?_rename, Option.map_map]
      rfl
    | map key value =>
      simp only [Option.map_some, Ty.rename_map, memberOf?, mapMember?_rename, Option.map_map]
      rfl
    | _ => simp [memberOf?]

omit h hv in
theorem carries_pushThis {span : Span} {w : Walk} :
    Carries σ s s' (Walk.rename σ) (pushThis span w) (pushThis span (w.rename σ)) := by
  unfold pushThis
  refine carries_thisClass.bind fun c => ?_
  refine carries_localVar.bind fun x => ?_
  cases c with
  | none => exact carries_failWith rfl
  | some c =>
    cases x with
    | none => exact carries_failWith rfl
    | some x => exact carries_pure (by simp [Typed.Access.rename])

omit hv in
theorem methodAccess_rename (f : FuncId) (viaBase : Bool) :
    methodAccess (σ.func f) (s'.func (σ.func f)) viaBase = (methodAccess f (s.func f) viaBase).rename σ := by
  unfold methodAccess
  rw [h.func_owner, h.func_virtual, h.func_override]
  cases (s.func f).owner with
  | none => simp only [Option.map_none]; split <;> rfl
  | some o =>
    cases o with
    | iface i => rfl
    | _ => simp only [Option.map_some, Owner.rename]; split <;> rfl

theorem carries_valueMember (m : Mode) (span : Span) (name : String) (next : Option Tree.Call) (type : Option Ty)
    (viaBase : Bool) (w : Walk) :
    Carries σ s s' (Prod.map (Walk.rename σ) id) (valueMember v m span name next type viaBase w)
      (valueMember v (m.rename σ) span name next (type.map (Ty.rename σ)) viaBase (w.rename σ)) := by
  unfold valueMember
  refine carries_store_bind ?_
  rw [memberOf?_rename h]
  cases memberOf? s type name with
  | none => exact carries_failStep (by rw [typeNameOr_rename h.named])
  | some x =>
    cases x with
    | other => exact carries_failStep rfl
    | field f =>
      simp only [Option.map_some, Member.rename, Mode.isWrite_rename, h.field_native, h.field_type]
      refine carries_ite Iff.rfl (carries_failStep rfl) (carries_pure ?_)
      simp only [Prod.map, Walk.rename_push, rename_access, Mode.values_rename]
      cases m.isWrite <;> rfl
    | method f =>
      cases next with
      | none => exact carries_failStep rfl
      | some c =>
        simp only [Option.map_some, Member.rename, methodAccess_rename h]
        refine Carries.bind ?_ fun w' => carries_pure rfl
        exact carries_callFunction h hv rfl rfl (h.func_signature f) (h.func_params f)
    | native x =>
      cases x with
      | property x =>
        simp only [Option.map_some, Member.rename, NativeMember.rename, Mode.isWrite_rename]
        exact carries_ite Iff.rfl (carries_failStep rfl) (carries_pure (by simp [Typed.Access.rename, Field.rename]))
      | method x =>
        cases next with
        | none => exact carries_failStep rfl
        | some c =>
          refine Carries.bind ?_ fun w' => carries_pure rfl
          refine carries_callFunction (a := .methodNative x.index) h hv rfl rfl ?_ rfl
          cases hsig : x.sig <;> simp [Func.rename, hsig]

theorem carries_staticMember (m : Mode) (span : Span) (name : String) (next : Option Tree.Call) (f : Found) (w : Walk) :
    Carries σ s s' (Prod.map (Walk.rename σ) id) (staticMember v m span name next f w)
      (staticMember v (m.rename σ) span name next (f.rename σ) (w.rename σ)) := by
  unfold staticMember
  refine carries_store_bind ?_
  rw [h.named.viewOf?]
  cases hview : s.viewOf? f with
  | some view =>
    simp only [Option.map_some]
    rw [h.named.resolveIn]
    cases s.resolveIn view name with
    | none => exact carries_failStep rfl
    | some g => exact carries_symbolStep h hv m span g next w
  | none =>
    simp only [Option.map_none]
    cases f with
    | view view => cases hview
    | sym a =>
      have hother : Carries σ s s' (Prod.map (Walk.rename σ) id)
          (do return (← failWith w span (.noMember (foundName s (.sym a)) name), false))
          (do return (← failWith (w.rename σ) span (.noMember (foundName s' (.sym (a.rename σ))) name), false)) :=
        carries_failStep (by rw [← foundName_rename h]; rfl)
      cases a with
      | enumeration e =>
        simp only [Found.rename, Sym.rename, h.enumeration, Enum.rename, Table.get?_rename]
        cases (s.enumeration e).items.get? name with
        | none => exact carries_failStep rfl
        | some b =>
          cases b with
          | item i => exact carries_pure (by simp [EnumItem.rename])
          | _ => exact carries_failStep rfl
      | cls c =>
        refine carries_failStep ?_
        rw [h.classMember?, h.named.cls_typeName]
        cases s.classMember? c name with
        | none => rfl
        | some b => cases b <;> rfl
      | _ => exact hother

theorem carries_memberStep (m : Mode) (span : Span) (name : String) (next : Option Tree.Call) (w : Walk) :
    Carries σ s s' (Prod.map (Walk.rename σ) id) (memberStep v m span name next w)
      (memberStep v (m.rename σ) span name next (w.rename σ)) := by
  unfold memberStep
  rw [Walk.rename_stand]
  cases w.stand with
  | static f => exact carries_staticMember h hv m span name next f w
  | value t viaBase => exact carries_valueMember h hv m span name next t viaBase w
  | failed => exact carries_pure rfl

theorem carries_indexStep (m : Mode) (span : Span) (x : Tree.Expr) (w : Walk) :
    Carries σ s s' (Walk.rename σ) (indexStep v m span x w) (indexStep v (m.rename σ) span x (w.rename σ)) := by
  unfold indexStep
  rw [Walk.rename_stand]
  cases w.stand with
  | failed => exact carries_pure rfl
  | static f => exact carries_store_bind (carries_failWith (by rw [foundName_rename h]))
  | value t viaBase =>
    have hother : Carries σ s s' (Walk.rename σ)
        (do failWith w span (.notIndexable (typeNameOr (← store) t)))
        (do failWith (w.rename σ) span (.notIndexable (typeNameOr (← store) (t.map (Ty.rename σ))))) :=
      carries_store_bind (carries_failWith (by rw [typeNameOr_rename h.named]))
    cases t with
    | none => exact hother
    | some t =>
      cases t with
      | array elem =>
        refine (hv.expr x (some .int)).bind fun r => ?_
        have hdone : Carries σ s s' (Walk.rename σ)
            (pure (w.push (access span.start.line (if m.isWrite then .arraySet else .arrayGet) "" (some elem)
              (r.1 :: m.values)) (some elem)))
            (pure ((w.rename σ).push (access span.start.line
              (if (m.rename σ).isWrite then .arraySet else .arrayGet) "" (some (elem.rename σ))
              (r.1.rename σ :: (m.rename σ).values)) (some (elem.rename σ)))) := by
          refine carries_pure ?_
          simp only [Walk.rename_push, rename_access, Mode.values_rename, Mode.isWrite_rename, Option.map_some,
            List.map_cons]
          cases m.isWrite <;> rfl
        obtain ⟨i, t⟩ := r
        cases t with
        | none => exact hdone
        | some t =>
          refine carries_ite (by rw [Ty.is_rename]) ?_ hdone
          refine (carries_typeName h.named).bind fun n => ?_
          exact carries_report_bind rfl hdone
      | map key value =>
        refine (hv.expr x (some key)).bind fun r => ?_
        refine (carries_checkAssignable h (b := some key)).bind fun _ => carries_pure ?_
        simp only [Walk.rename_push, rename_access, Mode.values_rename, Mode.isWrite_rename, Option.map_some,
          List.map_cons]
        cases m.isWrite <;> rfl
      | _ => exact hother

theorem carries_callStep (c : Tree.Call) (w : Walk) :
    Carries σ s s' (Walk.rename σ) (callStep v c w) (callStep v c (w.rename σ)) := by
  unfold callStep
  rw [Walk.rename_stand]
  cases w.stand with
  | failed => exact carries_pure rfl
  | static f => exact carries_store_bind (carries_failWith (by rw [foundName_rename h]))
  | value t viaBase =>
    have hother : Carries σ s s' (Walk.rename σ)
        (do failWith w c.span (.notCallable (typeNameOr (← store) t)))
        (do failWith (w.rename σ) c.span (.notCallable (typeNameOr (← store) (t.map (Ty.rename σ))))) :=
      carries_store_bind (carries_failWith (by rw [typeNameOr_rename h.named]))
    cases t with
    | none => exact hother
    | some t =>
      cases t with
      | func sig => exact carries_callFunction (a := .funcPtr) h hv rfl rfl rfl rfl
      | _ => exact hother

/-- A name that is no variable, of a member of the own class or not. -/
theorem carries_foundStep (m : Mode) (span : Span) (name : String) (next : Option Tree.Call) (w : Walk)
    (isMember : Bool) :
    Carries σ s s' (Prod.map (Walk.rename σ) id)
      (if isMember then do
          let w ← pushThis span w
          memberStep v m span name next w
        else do
          match ← lookup name with
          | none => return (← failWith w span (.unresolved name), false)
          | some f => symbolStep v m span f next w)
      (if isMember then do
          let w ← pushThis span (w.rename σ)
          memberStep v (m.rename σ) span name next w
        else do
          match ← lookup name with
          | none => return (← failWith (w.rename σ) span (.unresolved name), false)
          | some f => symbolStep v (m.rename σ) span f next (w.rename σ)) := by
  refine carries_ite Iff.rfl ?_ ?_
  · exact carries_pushThis.bind fun w' => carries_memberStep h hv m span name next w'
  · refine (carries_lookup h.named).bind fun f => ?_
    cases f with
    | none => exact carries_failStep rfl
    | some f => exact carries_symbolStep h hv m span f next w

theorem carries_nameStep (m : Mode) (span : Span) (name : String) (next : Option Tree.Call) (w : Walk) :
    Carries σ s s' (Prod.map (Walk.rename σ) id) (nameStep v m span name next w)
      (nameStep v (m.rename σ) span name next (w.rename σ)) := by
  unfold nameStep
  refine carries_localVar.bind fun x => ?_
  cases x with
  | some x =>
    refine carries_pure ?_
    simp only [Prod.map, Walk.rename_push, rename_access, Mode.values_rename, Mode.isWrite_rename]
    cases m.isWrite <;> rfl
  | none =>
    refine carries_store_bind ?_
    refine carries_thisClass.bind fun c => ?_
    cases c with
    | none => exact carries_foundStep h hv m span name next w false
    | some c =>
      have hmember := carries_foundStep h hv m span name next w (s.classMember? c name).isSome
      simp only [Option.map_some, h.classMember?, Option.isSome_map]
      exact hmember

omit hv in
theorem carries_baseStep (span : Span) (items : List Tree.Item) (w : Walk) :
    Carries σ s s' (Walk.rename σ) (baseStep span items w) (baseStep span items (w.rename σ)) := by
  unfold baseStep
  refine carries_store_bind (carries_thisClass.bind fun c => ?_)
  cases c with
  | none => exact carries_failWith rfl
  | some c =>
    simp only [Option.map_some, h.cls_super]
    cases (s.cls c).super with
    | none => exact carries_failWith (by rw [h.named.cls_typeName])
    | some b =>
      obtain _ | ⟨_ | _ | _, _⟩ := items
      case cons.member =>
        refine carries_pushThis.bind fun w' => ?_
        obtain ⟨links, stand⟩ := w'
        simp only [Walk.rename, List.getLast?_map]
        cases stand with
        | value t viaBase =>
          cases links.getLast? with
          | none => exact carries_pure rfl
          | some this => exact carries_pure (by simp [Walk.rename, Stand.rename, List.map_dropLast])
        | static f => exact carries_pure rfl
        | failed => exact carries_pure rfl
      all_goals exact carries_failWith rfl

theorem carries_followItems (m : Mode) (used : Bool) (items : List Tree.Item) (w : Walk) :
    Carries σ s s' (Walk.rename σ) (followItems v m used items w)
      (followItems v (m.rename σ) used items (w.rename σ)) := by
  induction items generalizing used w with
  | nil =>
    cases used <;> (unfold followItems; exact carries_pure rfl)
  | cons item rest ih =>
    cases used with
    | true =>
      unfold followItems
      exact ih false w
    | false =>
      unfold followItems
      rw [Walk.isFailed_rename, Mode.last_rename]
      refine carries_ite Iff.rfl (carries_pure rfl) ?_
      cases item with
      | index span x => exact (carries_indexStep h hv _ span x w).bind fun w' => ih false w'
      | call c => exact (carries_callStep h hv c w).bind fun w' => ih false w'
      | member span name => exact (carries_memberStep h hv _ span name _ w).bind fun r => ih r.2 r.1

variable {lambda : Tree.Lambda → Analysis (Typed.Expr × Option Ty)}
  (hlambda : ∀ fn, Carries σ s s' (Prod.map (Typed.Expr.rename σ) (Option.map (Ty.rename σ))) (lambda fn) (lambda fn))
include hlambda

theorem carries_rootStep (m : Mode) (c : Tree.Chain) :
    Carries σ s s' (Prod.map (Walk.rename σ) id) (rootStep v lambda m c) (rootStep v lambda (m.rename σ) c) := by
  unfold rootStep
  rw [Mode.last_rename]
  cases c.root with
  | name span name => exact carries_nameStep h hv _ span name _ ⟨[], .failed⟩
  | this span => exact carries_pushThis.bind fun w => carries_pure rfl
  | base span => exact (carries_baseStep h span c.items ⟨[], .failed⟩).bind fun w => carries_pure rfl
  | paren span x =>
    refine (hv.expr x none).bind fun r => carries_pure ?_
    obtain ⟨x, t⟩ := r
    cases t <;> rfl
  | lambda fn => exact (hlambda fn).bind fun r => carries_pure rfl

/-- Chains are resolved under a renaming as they are without. -/
theorem carries_chain (m : Mode) (c : Tree.Chain) :
    Carries σ s s' (Prod.map (Typed.Chain.rename σ) (Option.map (Ty.rename σ))) (chain v lambda m c)
      (chain v lambda (m.rename σ) c) := by
  unfold chain
  refine (carries_rootStep h hv hlambda m c).bind fun r => ?_
  refine (carries_followItems h hv m r.2 c.items r.1).bind fun w => ?_
  have hdone : ∀ type : Option Ty, Carries σ s s' (Prod.map (Typed.Chain.rename σ) (Option.map (Ty.rename σ)))
      (pure (({ line := c.span.start.line, type, yielded := false, links := w.links } : Typed.Chain), type))
      (pure (({ line := c.span.start.line, type := type.map (Ty.rename σ), yielded := false,
                links := (w.rename σ).links } : Typed.Chain), type.map (Ty.rename σ))) :=
    fun type => carries_pure (by simp)
  rw [Walk.rename_stand]
  cases w.stand with
  | failed => exact hdone none
  | static f => exact carries_store_bind (carries_report_bind (by rw [foundName_rename h]) (hdone none))
  | value t viaBase =>
    refine carries_ite ?_ (carries_report_bind rfl (hdone none)) (hdone t)
    rw [Mode.isWrite_rename, Walk.rename_links, endsInWrite_rename]

end Chains

end Analysis

end Weft
