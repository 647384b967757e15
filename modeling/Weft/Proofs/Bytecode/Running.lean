import Weft.Bytecode.Compile
import Weft.Proofs.Bytecode.Codec

/-!
# Runs of the compiler

What a computation on instructions does when it ends without a violation: one lemma for each step that
the compiler is made of.
-/

namespace Weft.Bytecode

/-- The computation ends with a result and a state. -/
def Runs {σ α : Type} (m : ExceptT Violation (StateM σ) α) (a : σ) (x : α) (b : σ) : Prop :=
  @Eq (Except Violation α × σ) (m a) (.ok x, b)

section Monad

variable {σ α β : Type} {a b : σ}

theorem runs_bind {m : ExceptT Violation (StateM σ) α} {f : α → ExceptT Violation (StateM σ) β} {y : β} :
    Runs (m >>= f) a y b ↔ ∃ x a', Runs m a x a' ∧ Runs (f x) a' y b := by
  simp only [Runs, bind, ExceptT.bind, ExceptT.mk, ExceptT.bindCont, StateT.bind]
  rcases h : m a with ⟨_ | x, a'⟩
  · simp [pure, StateT.pure]
  · simp only [Prod.mk.injEq, Except.ok.injEq]
    grind

@[simp]
theorem runs_pure {x y : α} :
    Runs (pure x : ExceptT Violation (StateM σ) α) a y b ↔ y = x ∧ b = a := by
  simp only [Runs, pure, ExceptT.pure, ExceptT.mk, StateT.pure, Prod.mk.injEq, Except.ok.injEq]
  exact ⟨fun h => ⟨h.1.symm, h.2.symm⟩, fun h => ⟨h.1.symm, h.2.symm⟩⟩

@[simp]
theorem runs_throw {e : Violation} {y : α} :
    ¬Runs (throw e : ExceptT Violation (StateM σ) α) a y b := by
  simp [Runs, throw, throwThe, MonadExceptOf.throw, ExceptT.mk, pure, StateT.pure]

@[simp]
theorem runs_get {x : σ} : Runs (get : ExceptT Violation (StateM σ) σ) a x b ↔ x = a ∧ b = a := by
  simp only [Runs, get, getThe, MonadStateOf.get, liftM, monadLift, MonadLift.monadLift, ExceptT.lift,
    ExceptT.mk, StateT.get, Functor.map, StateT.map, pure, bind]
  grind

@[simp]
theorem runs_modify {f : σ → σ} {x : PUnit} :
    Runs (modify f : ExceptT Violation (StateM σ) PUnit) a x b ↔ b = f a := by
  simp only [Runs, modify, modifyGet, MonadStateOf.modifyGet, monadLift, MonadLift.monadLift,
    ExceptT.lift, ExceptT.mk, StateT.modifyGet, Functor.map, StateT.map, pure, bind]
  grind

@[simp]
theorem runs_lift {m : Except Violation α} {x : α} :
    Runs (liftM m : ExceptT Violation (StateM σ) α) a x b ↔ m = .ok x ∧ b = a := by
  cases m with
  | error e => simp [Runs, liftM, monadLift, MonadLift.monadLift, ExceptT.mk, pure, StateT.pure]
  | ok y =>
    simp only [Runs, liftM, monadLift, MonadLift.monadLift, ExceptT.mk, pure, StateT.pure]
    grind

section Bind

variable {f : α → ExceptT Violation (StateM σ) β} {y : β}

@[simp]
theorem runs_pure_bind {x : α} : Runs (pure x >>= f) a y b ↔ Runs (f x) a y b := by
  rw [pure_bind]

@[simp]
theorem runs_get_bind {f : σ → ExceptT Violation (StateM σ) β} :
    Runs (get >>= f) a y b ↔ Runs (f a) a y b := by
  simp only [runs_bind, runs_get, and_assoc, exists_and_left, exists_eq_left]

@[simp]
theorem runs_modify_bind {g : σ → σ} {f : PUnit → ExceptT Violation (StateM σ) β} :
    Runs (modify g >>= f) a y b ↔ Runs (f ()) (g a) y b := by
  simp only [runs_bind, runs_modify, exists_eq_left]
  exact ⟨fun ⟨_, h⟩ => h, fun h => ⟨_, h⟩⟩

@[simp]
theorem runs_lift_bind {m : Except Violation α} :
    Runs (liftM m >>= f) a y b ↔ ∃ x, m = .ok x ∧ Runs (f x) a y b := by
  simp only [runs_bind, runs_lift, and_assoc, exists_and_left, exists_eq_left]

end Bind

@[simp]
theorem runs_forM_nil {ι : Type} {f : ι → ExceptT Violation (StateM σ) PUnit} {x : PUnit} :
    Runs (([] : List ι).forM f) a x b ↔ b = a := by
  simp [List.forM]

theorem runs_forM_cons {ι : Type} {f : ι → ExceptT Violation (StateM σ) PUnit} {i : ι} {is : List ι}
    {x : PUnit} :
    Runs ((i :: is).forM f) a x b ↔ ∃ a', Runs (f i) a () a' ∧ Runs (is.forM f) a' () b := by
  simp only [List.forM_eq_forM, List.forM_cons, runs_bind]
  exact ⟨fun ⟨_, a', h⟩ => ⟨a', h⟩, fun ⟨a', h⟩ => ⟨_, a', h⟩⟩

theorem forM_toList {m : Type → Type} [Monad m] [LawfulMonad m] {ι : Type} {f : ι → m PUnit}
    {is : Array ι} : is.forM f = is.toList.forM f := by
  change is.foldlM (fun _ => f) ⟨⟩ = _
  rw [← Array.foldlM_toList]
  induction is.toList with
  | nil => rfl
  | cons i is ih =>
    rw [List.foldlM_cons]
    exact congrArg (f i >>= ·) (funext fun _ => ih)

end Monad

namespace Assembly

@[simp]
theorem stream_update_self (s : Section) (f : Stream → Stream) (a : Assembly) :
    (update s f a).stream s = f (a.stream s) := by
  cases s <;> rfl

theorem stream_update_ne {s t : Section} (h : t ≠ s) (f : Stream → Stream) (a : Assembly) :
    (update s f a).stream t = a.stream t := by
  cases s <;> cases t <;> first | rfl | exact absurd rfl h

@[simp]
theorem instrs_update (s : Section) (f : Stream → Stream) (a : Assembly) :
    (update s f a).instrs = a.instrs := by
  cases s <;> rfl

@[simp]
theorem stream_instrs (s : Section) (a : Assembly) (xs : Array Instruction) :
    Assembly.stream { a with instrs := xs } s = a.stream s := by
  cases s <;> rfl

end Assembly

namespace Assemble

open Assembly

variable {a b : Assembly}

@[simp]
theorem runs_make {i : Instruction} {n : Nat} :
    Runs (make i) a n b ↔ n = a.instrs.size ∧ b = { a with instrs := a.instrs.push i } := by
  simp only [Runs, make, modifyGet, MonadStateOf.modifyGet, monadLift, MonadLift.monadLift,
    ExceptT.lift, ExceptT.mk, StateT.modifyGet, Functor.map, StateT.map, pure, bind]
  grind

/-! ### Operands -/

theorem setOperand_ok {x y : Instruction} {i : Nat} {v : Int} (h : x.setOperand i v = .ok y) :
    ∃ w, x.op.widths[i]? = some w ∧ fits v w ∧ y = { x with operands := x.operands.set i v } := by
  have hi : ¬((i : Int) < 0) := by omega
  simp only [Instruction.setOperand, hi, if_false, Int.toNat_natCast] at h
  split at h
  · simp at h
  · next w hw =>
    split at h
    · next hf => exact ⟨w, hw, hf, (Except.ok.inj h).symm⟩
    · simp at h

/-- Setting an operand keeps an instruction sound. -/
theorem sound_setOperand {x y : Instruction} {i : Nat} {v : Int} (hx : x.Sound)
    (h : x.setOperand i v = .ok y) : y.Sound := by
  obtain ⟨w, hw, hf, rfl⟩ := setOperand_ok h
  refine ⟨by simpa using hx.count, ?_⟩
  intro p hp
  obtain ⟨k, hk⟩ := List.mem_iff_getElem?.mp hp
  obtain ⟨hk1, hk2⟩ := List.getElem?_zip_eq_some.mp hk
  by_cases hik : i = k
  · subst hik
    have hlen : i < x.operands.length := by
      have := List.getElem?_eq_some_iff.mp hw
      rw [hx.count]
      exact this.1
    simp only [List.getElem?_set_self hlen, Option.some.injEq] at hk2
    simp only [hw, Option.some.injEq] at hk1
    rwa [← hk1, ← hk2]
  · rw [List.getElem?_set_ne hik] at hk2
    exact hx.fit p (List.mem_iff_getElem?.mpr ⟨k, List.getElem?_zip_eq_some.mpr ⟨hk1, hk2⟩⟩)

private theorem foldlM_setOperand {x y : Instruction} {vs : List Int} {k : Nat} (hx : x.Sound)
    (hk : x.operands.length = k + vs.length)
    (h : (vs.zipIdx k).foldlM (fun x p => x.setOperand p.2 p.1) x = .ok y) :
    y.Sound ∧ y = { x with operands := x.operands.take k ++ vs } := by
  induction vs generalizing x k with
  | nil =>
    have htake : x.operands.take k = x.operands := List.take_of_length_le (by simp at hk; omega)
    have hxy : y = x := by simpa [pure, Except.pure, eq_comm] using h
    subst hxy
    exact ⟨hx, by simp [htake]⟩
  | cons v vs ih =>
    simp only [List.zipIdx_cons, List.foldlM_cons, bind, Except.bind] at h
    split at h
    · simp at h
    · next z hz =>
      obtain ⟨_, _, _, rfl⟩ := setOperand_ok hz
      have hlt : k < x.operands.length := by simp at hk; omega
      obtain ⟨hy, rfl⟩ := ih (sound_setOperand hx hz) (by simp at hk ⊢; omega) h
      refine ⟨hy, ?_⟩
      have htake : (x.operands.set k v).take (k + 1) = x.operands.take k ++ [v] := by
        rw [List.take_add_one, List.getElem?_set_self hlt, List.take_set_of_le (Nat.le_refl k)]
        rfl
      simp [htake]

theorem sound_blank (op : Opcode) (line pos : Int) :
    Instruction.Sound { op, operands := op.widths.map fun _ => 0, line, pos } := by
  refine ⟨by simp, ?_⟩
  intro p hp
  have hw := (List.of_mem_zip hp).1
  have hz : p.2 = 0 := by
    obtain ⟨_, _, h⟩ := List.mem_map.mp (List.of_mem_zip hp).2
    exact h.symm
  rw [hz]
  exact fits_zero (op.widths_bounds p.1 hw)

/-! ### Steps -/

/-- A new instruction is sound, has the next number, and stands at the end of its stream. -/
theorem runs_emit {s : Section} {op : Opcode} {line : Int} {vs : List Int} {n : Nat}
    (h : Runs (emit s op line vs) a n b) :
    (a.stream s).resolved = false ∧ n = a.instrs.size ∧
      Instruction.Sound { op, operands := vs, line, pos := -1 } ∧
      b = update s (fun st => { st with order := st.order.push n })
        { a with instrs := a.instrs.push { op, operands := vs, line, pos := -1 } } := by
  unfold emit at h
  rw [runs_get_bind] at h
  by_cases hr : (a.stream s).resolved = true
  · rw [if_pos hr] at h
    simp at h
  · by_cases hl : vs.length ≠ op.widths.length
    · rw [if_neg hr, if_pos hl] at h
      simp at h
    · rw [if_neg hr, if_neg hl] at h
      rw [runs_lift_bind] at h
      obtain ⟨x, hx, h⟩ := h
      simp only [runs_bind, runs_make, runs_modify, runs_pure] at h
      obtain ⟨_, _, ⟨rfl, rfl⟩, _, _, rfl, rfl, rfl⟩ := h
      have hlen : vs.length = op.widths.length := by omega
      obtain ⟨hs, rfl⟩ := foldlM_setOperand (sound_blank op line (-1)) (by simp [hlen]) hx
      exact ⟨by simpa using hr, rfl, by simpa using hs, by simp⟩

theorem runs_owned {s : Section} {n : Option Nat} {r : Except String Nat} (h : Runs (owned s n) a r b) :
    b = a ∧ ∀ k, r = .ok k → n = some k ∧ k ∈ (a.stream s).order := by
  unfold owned at h
  rw [runs_get_bind] at h
  cases n with
  | none =>
    obtain ⟨rfl, hb⟩ := runs_pure.mp h
    exact ⟨hb, by simp⟩
  | some n =>
    obtain ⟨rfl, hb⟩ := runs_pure.mp h
    refine ⟨hb, ?_⟩
    intro k hk
    split at hk
    · next hc =>
      cases hk
      exact ⟨rfl, by simpa [contains] using hc⟩
    · simp at hk

/-- A request is for two instructions of the stream. -/
theorem runs_offset {s : Section} {src dst : Nat} {i : Int} {x : PUnit}
    (h : Runs (offset s src dst i) a x b) :
    src ∈ (a.stream s).order ∧ dst ∈ (a.stream s).order ∧
      b = update s (fun st => { st with requests := st.requests.push ⟨src, dst, i⟩ }) a := by
  unfold offset requestOffset at h
  rw [runs_bind] at h
  obtain ⟨r, _, h1, h⟩ := h
  obtain ⟨rfl, hsrc⟩ := runs_owned h1
  cases r with
  | error e => simp at h
  | ok k =>
    obtain ⟨hk, hmem⟩ := hsrc k rfl
    cases hk
    simp only [runs_bind (m := owned _ _)] at h
    obtain ⟨r, _, h2, h⟩ := h
    obtain ⟨rfl, hdst⟩ := runs_owned h2
    cases r with
    | error e => simp at h
    | ok k =>
      obtain ⟨hk, hmem'⟩ := hdst k rfl
      cases hk
      simp only [runs_get_bind, runs_lift_bind, runs_modify] at h
      obtain ⟨_, -, hb⟩ := h
      exact ⟨hmem, hmem', hb⟩

theorem runs_setOperand {n i : Nat} {v : Int} {x : PUnit} (h : Runs (setOperand n i v) a x b) :
    ∃ y, (a.instr n).setOperand i v = .ok y ∧ b = { a with instrs := a.instrs.setIfInBounds n y } := by
  unfold setOperand at h
  simpa only [runs_get_bind, runs_lift_bind, runs_modify] using h

theorem runs_operand {n : Nat} {i v : Int} (h : Runs (operand n i) a v b) :
    (a.instr n).operand i = .ok v ∧ b = a := by
  unfold operand at h
  simpa only [runs_get_bind, runs_lift] using h

theorem runs_replace_mark {n : Nat} {x : PUnit} (h : Runs (replace n .mark []) a x b) :
    b = { a with instrs := a.instrs.modify n fun x => { x with op := .mark, operands := [] } } := by
  unfold replace at h
  rw [if_neg (by decide)] at h
  simp only [runs_modify_bind, List.zipIdx_nil, runs_forM_nil] at h
  exact h

end Assemble

namespace Lower

variable {α β : Type} {c : Store × Module} {l l' : Lowering}

theorem runs_bind {m : Lower α} {f : α → Lower β} {y : β} :
    Runs ((m >>= f) c) l y l' ↔ ∃ x l₁, Runs (m c) l x l₁ ∧ Runs (f x c) l₁ y l' :=
  Bytecode.runs_bind

@[simp]
theorem runs_pure {x y : α} : Runs ((pure x : Lower α) c) l y l' ↔ y = x ∧ l' = l :=
  Bytecode.runs_pure

@[simp]
theorem runs_throw {e : Violation} {y : α} : ¬Runs ((throw e : Lower α) c) l y l' :=
  Bytecode.runs_throw

@[simp]
theorem runs_read_bind {f : Store × Module → Lower β} {y : β} :
    Runs (((read : Lower (Store × Module)) >>= f) c) l y l' ↔ Runs (f c c) l y l' :=
  Bytecode.runs_pure_bind

@[simp]
theorem runs_store_bind {f : Store → Lower β} {y : β} :
    Runs ((store >>= f) c) l y l' ↔ Runs (f c.1 c) l y l' :=
  Bytecode.runs_pure_bind

@[simp]
theorem runs_moduleName_bind {f : String → Lower β} {y : β} :
    Runs ((moduleName >>= f) c) l y l' ↔ Runs (f c.2.name c) l y l' :=
  Bytecode.runs_pure_bind

@[simp]
theorem runs_get_bind {f : Lowering → Lower β} {y : β} :
    Runs ((getThe Lowering >>= f) c) l y l' ↔ Runs (f l c) l y l' :=
  Bytecode.runs_get_bind

@[simp]
theorem runs_modify {g : Lowering → Lowering} {y : PUnit} :
    Runs ((modifyThe Lowering g : Lower PUnit) c) l y l' ↔ l' = g l :=
  Bytecode.runs_modify

@[simp]
theorem runs_modify_bind {g : Lowering → Lowering} {f : PUnit → Lower β} {y : β} :
    Runs (((modifyThe Lowering g : Lower PUnit) >>= f) c) l y l' ↔ Runs (f () c) (g l) y l' :=
  Bytecode.runs_modify_bind (f := fun x => f x c)

@[simp]
theorem runs_lift_bind {m : Except Violation α} {f : α → Lower β} {y : β} :
    Runs (((liftM m : Lower α) >>= f) c) l y l' ↔ ∃ x, m = .ok x ∧ Runs (f x c) l y l' :=
  Bytecode.runs_lift_bind (f := fun x => f x c)

theorem runs_assemble {m : Assemble α} {x : α} :
    Runs (assemble m c) l x l' ↔ ∃ a, Runs m l.asm x a ∧ l' = { l with asm := a } := by
  unfold assemble
  rw [runs_get_bind]
  rcases h : m l.asm with ⟨_ | y, a⟩
  · simp only [runs_modify_bind, runs_throw, false_iff]
    rintro ⟨b, hb, -⟩
    simp [Runs, h] at hb
  · simp only [runs_modify_bind, runs_pure]
    constructor
    · rintro ⟨rfl, rfl⟩
      exact ⟨a, h, rfl⟩
    · rintro ⟨b, hb, rfl⟩
      simp only [Runs, h, Prod.mk.injEq, Except.ok.injEq] at hb
      exact ⟨hb.1.symm, by rw [hb.2]⟩

theorem forM_apply {ι : Type} {f : ι → Lower PUnit} {is : List ι} :
    is.forM f c = is.forM fun i => f i c := by
  induction is with
  | nil => rfl
  | cons i is ih =>
    simp only [List.forM_eq_forM, List.forM_cons] at ih ⊢
    change (f i c >>= fun _ => forM is f c) = _
    rw [ih]

end Lower

end Weft.Bytecode
