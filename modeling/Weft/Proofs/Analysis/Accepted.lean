import Mathlib
import Weft.Analysis.Stmt

/-!
# Analyses that report nothing

What an analysis does when it ends with a result and without a problem: one lemma for each step that analyses
are made of.
-/

namespace Weft.Analysis

instance : LawfulMonad Reported :=
  LawfulMonad.mk' Reported
    (fun x => by simp [Functor.map])
    (fun a f => by simp [bind, pure])
    (fun x f g => by simp [bind])

/-- The analysis ends with a result and a state, and reports no problem. -/
def Accepts {α : Type} (m : Analysis α) (pl : Place) (st : State) (a : α) (st' : State) : Prop :=
  @Eq (Reported (Except Typed.ArgumentsError α × State)) (m pl st) ⟨(.ok a, st'), []⟩

section Monad

variable {α β : Type} {pl : Place} {st st' : State}

/-- An analysis after another is given its result, unless that one breaks off. -/
theorem bind_run {m : Analysis α} {f : α → Analysis β} :
    (m >>= f) pl st = match m pl st with
      | ⟨(.ok a, st₁), ds⟩ => ⟨(f a pl st₁).value, ds ++ (f a pl st₁).problems⟩
      | ⟨(.error e, st₁), ds⟩ => ⟨(.error e, st₁), ds⟩ := by
  simp only [bind, ReaderT.bind, ExceptT.bind, ExceptT.mk, ExceptT.bindCont, StateT.bind]
  rcases hr : m pl st with ⟨⟨_ | a, st₁⟩, ds⟩
  · simp [pure, StateT.pure]
  · rfl

theorem accepts_bind {m : Analysis α} {f : α → Analysis β} {b : β} :
    Accepts (m >>= f) pl st b st' ↔ ∃ a st₁, Accepts m pl st a st₁ ∧ Accepts (f a) pl st₁ b st' := by
  simp only [Accepts, bind, ReaderT.bind, ExceptT.bind, ExceptT.mk, ExceptT.bindCont, StateT.bind]
  rcases h : m pl st with ⟨⟨_ | a, st₁⟩, ds⟩
  · simp [pure, StateT.pure]
  · simp only [Reported.mk.injEq, Prod.mk.injEq, Except.ok.injEq, List.append_eq_nil_iff]
    rcases h' : f a pl st₁ with ⟨⟨r, st₂⟩, ds'⟩
    constructor
    · rintro ⟨h1, h2, h3⟩
      exact ⟨a, st₁, ⟨⟨rfl, rfl⟩, h2⟩, by simp_all⟩
    · rintro ⟨a', st₁', ⟨⟨rfl, rfl⟩, rfl⟩, h2⟩
      simp_all

@[simp]
theorem accepts_pure {a b : α} : Accepts (pure a) pl st b st' ↔ b = a ∧ st' = st := by
  simp only [Accepts, pure, ReaderT.pure, ExceptT.pure, ExceptT.mk, StateT.pure, Reported.mk.injEq, Prod.mk.injEq,
    Except.ok.injEq, and_true]
  exact ⟨fun h => ⟨h.1.symm, h.2.symm⟩, fun h => ⟨h.1.symm, h.2.symm⟩⟩

@[simp]
theorem accepts_report {span : Span} {p : Problem} {u : Unit} : ¬Accepts (report span p) pl st u st' := by
  simp [Accepts, report]

@[simp]
theorem accepts_report_bind {span : Span} {p : Problem} {f : Unit → Analysis β} {b : β} :
    ¬Accepts (report span p >>= f) pl st b st' := by
  rw [accepts_bind]
  simp

/-- What comes after a check is reached only if the check finds nothing. -/
@[simp]
theorem accepts_guard {c : Prop} [Decidable c] {span : Span} {p : Problem} {f : Unit → Analysis β}
    {m : Analysis β} {b : β} :
    Accepts (if c then report span p >>= f else m) pl st b st' ↔ ¬c ∧ Accepts m pl st b st' := by
  split <;> simp [*]

@[simp]
theorem accepts_guard_last {c : Prop} [Decidable c] {span : Span} {p : Problem} {m : Analysis Unit} {u : Unit} :
    Accepts (if c then report span p else m) pl st u st' ↔ ¬c ∧ Accepts m pl st u st' := by
  split <;> simp [*]

@[simp]
theorem accepts_read {x : Place} : Accepts read pl st x st' ↔ x = pl ∧ st' = st := by
  simp only [Accepts, read, readThe, MonadReaderOf.read, ReaderT.read, pure, ExceptT.pure, ExceptT.mk, StateT.pure,
    Reported.mk.injEq, Prod.mk.injEq, Except.ok.injEq, and_true]
  exact ⟨fun h => ⟨h.1.symm, h.2.symm⟩, fun h => ⟨h.1.symm, h.2.symm⟩⟩

@[simp]
theorem accepts_get {x : State} : Accepts get pl st x st' ↔ x = st ∧ st' = st := by
  simp only [Accepts, get, getThe, MonadStateOf.get, liftM, monadLift, MonadLift.monadLift, ExceptT.lift, ExceptT.mk,
    StateT.get, Functor.map, StateT.map, pure, bind, Reported.mk.injEq, Prod.mk.injEq, Except.ok.injEq]
  grind

@[simp]
theorem accepts_modify {f : State → State} {x : PUnit} : Accepts (modify f) pl st x st' ↔ st' = f st := by
  simp only [Accepts, modify, modifyGet, MonadStateOf.modifyGet, monadLift, MonadLift.monadLift, ExceptT.lift,
    ExceptT.mk, StateT.modifyGet, Functor.map, StateT.map, pure, bind, Reported.mk.injEq, Prod.mk.injEq]
  grind

@[simp]
theorem accepts_lift {m : Except Typed.ArgumentsError α} {x : α} :
    Accepts (liftM m) pl st x st' ↔ m = .ok x ∧ st' = st := by
  cases m with
  | error e =>
    simp [Accepts, liftM, monadLift, MonadLift.monadLift, ExceptT.mk, pure, StateT.pure]
  | ok y =>
    simp only [Accepts, liftM, monadLift, MonadLift.monadLift, ExceptT.mk, pure, StateT.pure, Reported.mk.injEq,
      Prod.mk.injEq, Except.ok.injEq]
    grind

@[simp]
theorem accepts_map {m : Analysis α} {f : α → β} {b : β} :
    Accepts (f <$> m) pl st b st' ↔ ∃ a, Accepts m pl st a st' ∧ b = f a := by
  simp only [← bind_pure_comp, accepts_bind, accepts_pure]
  exact ⟨fun ⟨a, st₁, h, hb, hs⟩ => ⟨a, hs ▸ h, hb⟩, fun ⟨a, h, hb⟩ => ⟨a, st', h, hb, rfl⟩⟩

end Monad

/-! ## Lists -/

section Lists

variable {ι β : Type} {pl : Place} {st st' : State} {f : ι → Analysis β}

@[simp]
theorem accepts_mapM_nil {ys : List β} : Accepts (([] : List ι).mapM f) pl st ys st' ↔ ys = [] ∧ st' = st := by
  simp

theorem accepts_mapM_cons {x : ι} {xs : List ι} {ys : List β} :
    Accepts ((x :: xs).mapM f) pl st ys st' ↔ ∃ y st₁ rest, Accepts (f x) pl st y st₁ ∧
      Accepts (xs.mapM f) pl st₁ rest st' ∧ ys = y :: rest := by
  simp only [List.mapM_cons, accepts_bind, accepts_pure]
  constructor
  · rintro ⟨y, st₁, hy, rest, st₂, hrest, rfl, rfl⟩
    exact ⟨y, st₁, rest, hy, hrest, rfl⟩
  · rintro ⟨y, st₁, rest, hy, hrest, rfl⟩
    exact ⟨y, st₁, hy, rest, st', hrest, rfl, rfl⟩

/-- What holds of every step of a list of analyses holds of the results, and the steps lead from the first state
to the last. -/
theorem accepts_mapM {R : State → State → Prop} {P : ι → Prop} {Q : State → β → Prop} {xs : List ι} {ys : List β}
    (hrefl : ∀ st, R st st) (htrans : ∀ {st₁ st₂ st₃}, R st₁ st₂ → R st₂ st₃ → R st₁ st₃)
    (hkeep : ∀ {st₁ st₂ y}, R st₁ st₂ → Q st₁ y → Q st₂ y)
    (hf : ∀ x, P x → ∀ {st y st'}, Accepts (f x) pl st y st' → R st st' ∧ Q st' y)
    (hxs : ∀ x ∈ xs, P x) (h : Accepts (xs.mapM f) pl st ys st') : R st st' ∧ ∀ y ∈ ys, Q st' y := by
  induction xs generalizing st ys with
  | nil =>
    obtain ⟨rfl, rfl⟩ := accepts_mapM_nil.mp h
    exact ⟨hrefl st', by simp⟩
  | cons x xs ih =>
    obtain ⟨y, st₁, rest, hy, hrest, rfl⟩ := accepts_mapM_cons.mp h
    obtain ⟨h1, hq⟩ := hf x (hxs x (by simp)) hy
    obtain ⟨h2, hqs⟩ := ih (fun z hz => hxs z (by simp [hz])) hrest
    refine ⟨htrans h1 h2, ?_⟩
    intro z hz
    rcases List.mem_cons.mp hz with rfl | hz
    · exact hkeep h2 hq
    · exact hqs z hz

theorem accepts_forM_nil {g : ι → Analysis PUnit} {u : PUnit} :
    Accepts (([] : List ι).forM g) pl st u st' ↔ st' = st := by
  change Accepts (pure ()) pl st u st' ↔ _
  simp

theorem accepts_forM_cons {g : ι → Analysis PUnit} {x : ι} {xs : List ι} {u : PUnit} :
    Accepts ((x :: xs).forM g) pl st u st' ↔
      ∃ st₁, Accepts (g x) pl st () st₁ ∧ Accepts (xs.forM g) pl st₁ u st' := by
  change Accepts (g x >>= fun _ => xs.forM g) pl st u st' ↔ _
  rw [accepts_bind]
  exact ⟨fun ⟨_, st₁, h⟩ => ⟨st₁, h⟩, fun ⟨st₁, h⟩ => ⟨(), st₁, h⟩⟩

/-- What every step of a list of analyses leads to from the state before it, all of them do. -/
theorem accepts_forM {g : ι → Analysis PUnit} {R : State → State → Prop} {xs : List ι} {u : PUnit}
    (hrefl : ∀ st, R st st) (htrans : ∀ {st₁ st₂ st₃}, R st₁ st₂ → R st₂ st₃ → R st₁ st₃)
    (hg : ∀ x, ∀ {st st'}, Accepts (g x) pl st () st' → R st st') (h : Accepts (xs.forM g) pl st u st') : R st st' := by
  induction xs generalizing st with
  | nil =>
    obtain rfl := accepts_forM_nil.mp h
    exact hrefl st'
  | cons x xs ih =>
    obtain ⟨st₁, h₁, h₂⟩ := accepts_forM_cons.mp h
    exact htrans (hg x h₁) (ih h₂)

end Lists

/-! ## Steps -/

/-- A state whose innermost body is changed. -/
def State.update (st : State) (f : Body → Body) : State := { st with bodies := st.bodies.modifyHead f }

section Steps

variable {α : Type} {pl : Place} {st st' : State}

@[simp]
theorem accepts_store {s : Store} : Accepts store pl st s st' ↔ s = st.store ∧ st' = st := by
  simp [store, and_comm]

@[simp]
theorem accepts_typeName {t : Ty} {name : String} :
    Accepts (typeName t) pl st name st' ↔ name = t.typeName st.store ∧ st' = st := by
  simp [typeName, and_assoc, and_comm]

@[simp]
theorem accepts_lookup {name : String} {f : Option Found} :
    Accepts (lookup name) pl st f st' ↔ f = pl.scope.lookup st.store name ∧ st' = st := by
  simp [lookup, accepts_bind, and_comm]

@[simp]
theorem accepts_body {b : Body} :
    Accepts body pl st b st' ↔ b = st.bodies.head?.getD (.empty default) ∧ st' = st := by
  simp only [body, accepts_bind, accepts_get]
  rcases h : st.bodies with _ | ⟨b', rest⟩ <;> simp [h]

@[simp]
theorem accepts_updateBody {f : Body → Body} {x : Unit} :
    Accepts (updateBody f) pl st x st' ↔ st' = st.update f := by
  simp [updateBody, State.update]

@[simp]
theorem accepts_thisClass {c : Option ClassId} :
    Accepts thisClass pl st c st' ↔ c = st.bodies.findSome? (·.cls) ∧ st' = st := by
  simp [thisClass, and_comm]

theorem accepts_localVar {name : String} {v : Option LocalVar} :
    Accepts (localVar name) pl st v st' ↔
      (findVar name st.bodies = none ∧ v = none ∧ st' = st) ∨
        ∃ x bodies, findVar name st.bodies = some (x, bodies) ∧ v = some x ∧ st' = { st with bodies } := by
  simp only [localVar, accepts_bind, accepts_get]
  rcases h : findVar name st.bodies with _ | ⟨x, bodies⟩ <;> simp [h, and_comm]

theorem accepts_declare {name : String} {t : Ty} {ref : Bool} {v : LocalVar} :
    Accepts (declare name t ref) pl st v st' ↔
      v = { name, type := some t, slot := (st.bodies.head?.getD (.empty default)).slots, ref } ∧
        st' = st.update (·.add v) := by
  simp only [declare, accepts_bind, accepts_body, accepts_updateBody, accepts_pure]
  constructor
  · rintro ⟨b, _, ⟨rfl, rfl⟩, _, _, rfl, rfl, rfl⟩
    exact ⟨rfl, rfl⟩
  · rintro ⟨rfl, rfl⟩
    exact ⟨_, st, ⟨rfl, rfl⟩, (), _, rfl, rfl, rfl⟩

section Bind

variable {β : Type} {b : β}

@[simp]
theorem accepts_store_bind {f : Store → Analysis β} :
    Accepts (store >>= f) pl st b st' ↔ Accepts (f st.store) pl st b st' := by
  simp [accepts_bind, and_assoc]

@[simp]
theorem accepts_body_bind {f : Body → Analysis β} :
    Accepts (body >>= f) pl st b st' ↔ Accepts (f (st.bodies.head?.getD (.empty default))) pl st b st' := by
  simp [accepts_bind, and_assoc]

@[simp]
theorem accepts_thisClass_bind {f : Option ClassId → Analysis β} :
    Accepts (thisClass >>= f) pl st b st' ↔ Accepts (f (st.bodies.findSome? (·.cls))) pl st b st' := by
  simp [accepts_bind, and_assoc]

@[simp]
theorem accepts_lookup_bind {name : String} {f : Option Found → Analysis β} :
    Accepts (lookup name >>= f) pl st b st' ↔ Accepts (f (pl.scope.lookup st.store name)) pl st b st' := by
  simp [accepts_bind, and_assoc]

@[simp]
theorem accepts_typeName_bind {t : Ty} {f : String → Analysis β} :
    Accepts (typeName t >>= f) pl st b st' ↔ Accepts (f (t.typeName st.store)) pl st b st' := by
  simp [accepts_bind, and_assoc]

@[simp]
theorem accepts_updateBody_bind {g : Body → Body} {f : Unit → Analysis β} :
    Accepts (updateBody g >>= f) pl st b st' ↔ Accepts (f ()) pl (st.update g) b st' := by
  simp only [accepts_bind, accepts_updateBody, exists_eq_left]
  exact ⟨fun ⟨_, h⟩ => h, fun h => ⟨(), h⟩⟩

end Bind

theorem accepts_inBlock {m : Analysis α} {a : α} (h : Accepts (inBlock m) pl st a st') :
    ∃ st₁, Accepts m pl (st.update fun b => { b with blocks := [] :: b.blocks }) a st₁ ∧
      st' = st₁.update fun b => { b with blocks := b.blocks.tail } := by
  simp only [inBlock, accepts_bind, accepts_updateBody, accepts_pure] at h
  obtain ⟨_, _, rfl, a, st₁, hm, _, _, rfl, rfl, rfl⟩ := h
  exact ⟨st₁, hm, rfl⟩

theorem accepts_inside {e : Enclosing} {m : Analysis α} {a : α} (h : Accepts (inside e m) pl st a st') :
    ∃ st₁, Accepts m pl (st.update fun b => { b with around := e :: b.around }) a st₁ ∧
      st' = st₁.update fun b => { b with around := b.around.tail } := by
  simp only [inside, accepts_bind, accepts_updateBody, accepts_pure] at h
  obtain ⟨_, _, rfl, a, st₁, hm, _, _, rfl, rfl, rfl⟩ := h
  exact ⟨st₁, hm, rfl⟩

theorem accepts_inBody {b : Body} {m : Analysis α} {r : α × Body} (h : Accepts (inBody b m) pl st r st') :
    ∃ st₁, Accepts m pl { st with bodies := b :: st.bodies } r.1 st₁ ∧
      r.2 = st₁.bodies.head?.getD (.empty default) ∧ st' = { st₁ with bodies := st₁.bodies.tail } := by
  simp only [inBody, accepts_bind, accepts_modify, accepts_body, accepts_pure] at h
  obtain ⟨_, _, rfl, a, st₁, hm, last, _, ⟨rfl, rfl⟩, _, _, rfl, rfl, rfl⟩ := h
  exact ⟨_, hm, rfl, rfl⟩

/-- A value can be stored as it is: it is one value, or as many as asked for, of a type that fits. -/
def Stores (s : Store) (src dst : Ty) : Prop :=
  unusable s src dst = false ∧ src.assignable s dst = true

@[simp]
theorem accepts_checkAssignable {span : Span} {src dst : Option Ty} {u : Unit} :
    Accepts (checkAssignable span src dst) pl st u st' ↔
      st' = st ∧ ∀ a b, src = some a → dst = some b → Stores st.store a b := by
  unfold checkAssignable
  cases src with
  | none => simp
  | some a =>
    cases dst with
    | none => simp
    | some b =>
      simp only [accepts_bind, accepts_store, Option.some.injEq, Stores]
      constructor
      · rintro ⟨s, _, ⟨rfl, rfl⟩, h⟩
        split at h
        · simp at h
        · next hone =>
          split at h
          · simp at h
          · next hfits =>
            obtain ⟨-, rfl⟩ := accepts_pure.mp h
            refine ⟨rfl, ?_⟩
            rintro _ _ rfl rfl
            exact ⟨by simpa using hone, by simpa using hfits⟩
      · rintro ⟨rfl, h⟩
        obtain ⟨hone, hfits⟩ := h a b rfl rfl
        refine ⟨st'.store, st', ⟨rfl, rfl⟩, ?_⟩
        rw [if_neg (by simp [hone]), if_neg (by simp [hfits])]
        exact accepts_pure.mpr ⟨rfl, rfl⟩

@[simp]
theorem accepts_checkAssignable_bind {β : Type} {b : β} {span : Span} {src dst : Option Ty}
    {f : Unit → Analysis β} :
    Accepts (checkAssignable span src dst >>= f) pl st b st' ↔
      (∀ x y, src = some x → dst = some y → Stores st.store x y) ∧ Accepts (f ()) pl st b st' := by
  simp only [accepts_bind, accepts_checkAssignable]
  exact ⟨fun ⟨_, _, ⟨rfl, h⟩, hf⟩ => ⟨h, hf⟩, fun ⟨h, hf⟩ => ⟨(), st, ⟨rfl, h⟩, hf⟩⟩

/-- Finding the type of an update changes nothing. -/
theorem accepts_updateType {span : Span} {op : BinaryOp} {l r t : Option Ty}
    (h : Accepts (updateType span op l r) pl st t st') : st' = st := by
  unfold updateType at h
  split at h
  · simp only [accepts_store_bind] at h
    split at h
    · simp only [accepts_checkAssignable_bind, accepts_pure] at h
      exact h.2.2
    · simp at h
  · exact (accepts_pure.mp h).2

end Steps

end Weft.Analysis
