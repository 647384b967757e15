import Weft.Proofs.Bytecode.Emission

/-!
# The violations that are left

Most violations show a mistake of the compiler. An operand that does not fit its width shows only that a
program is too large, except for the slots of a frame and the numbers of default values, which the frame
limits. `Bounded` says that a computation has no other violation.
-/

namespace Weft.Bytecode

/-- The operands that fit their widths in the code of every program. -/
def Opcode.guarded : Opcode → List Nat
  | initFrame | getVar | setVar | declVar | argVar | argRef | refVar | defArg => [0]
  | useUpval => [0, 1, 2]
  | _ => []

/-- A violation of a width: an operand that may be large is too large. -/
def Violation.IsWidth (e : Violation) : Prop :=
  ∃ (op : Opcode) (i : Nat) (v : Int) (w : Nat), op.widths[i]? = some w ∧ i ∉ op.guarded ∧ fits v w = false ∧
    e = .operandRange op.name i v (Bytecode.operandRange w).1 (Bytecode.operandRange w).2

/-- The computation has no violation from a state on but those of widths. -/
def Bounded {σ α : Type} (m : ExceptT Violation (StateM σ) α) (a : σ) : Prop :=
  ∀ e b, @Eq (Except Violation α × σ) (m a) (.error e, b) → e.IsWidth

section Monad

variable {σ α β : Type} {a : σ}

theorem bounded_bind {m : ExceptT Violation (StateM σ) α} {f : α → ExceptT Violation (StateM σ) β}
    (hm : Bounded m a) (hf : ∀ x b, Runs m a x b → Bounded (f x) b) : Bounded (m >>= f) a := by
  intro e b h
  simp only [bind, ExceptT.bind, ExceptT.mk, ExceptT.bindCont, StateT.bind] at h
  rcases hr : m a with ⟨e' | x, a'⟩
  · simp only [hr, pure, StateT.pure, Prod.mk.injEq, Except.error.injEq] at h
    obtain ⟨rfl, rfl⟩ := h
    exact hm _ _ hr
  · simp only [hr] at h
    exact hf x a' hr e b h

@[simp]
theorem bounded_pure {x : α} : Bounded (pure x : ExceptT Violation (StateM σ) α) a := by
  intro e b h
  simp [pure, ExceptT.pure, ExceptT.mk, StateT.pure] at h

@[simp]
theorem bounded_get : Bounded (get : ExceptT Violation (StateM σ) σ) a := by
  intro e b h
  simp [get, getThe, MonadStateOf.get, liftM, monadLift, MonadLift.monadLift, ExceptT.lift, ExceptT.mk, StateT.get,
    Functor.map, StateT.map, pure, bind] at h

@[simp]
theorem bounded_modify {f : σ → σ} : Bounded (modify f : ExceptT Violation (StateM σ) PUnit) a := by
  intro e b h
  simp [modify, modifyGet, MonadStateOf.modifyGet, monadLift, MonadLift.monadLift, ExceptT.lift, ExceptT.mk,
    StateT.modifyGet, Functor.map, StateT.map, pure, bind] at h

theorem bounded_lift {m : Except Violation α} (h : ∀ e, m = .error e → e.IsWidth) :
    Bounded (liftM m : ExceptT Violation (StateM σ) α) a := by
  intro e b hr
  cases m with
  | error e' =>
    simp only [liftM, monadLift, MonadLift.monadLift, ExceptT.mk, pure, StateT.pure, Prod.mk.injEq,
      Except.error.injEq] at hr
    exact h e (congrArg Except.error hr.1)
  | ok y => simp [liftM, monadLift, MonadLift.monadLift, ExceptT.mk, pure, StateT.pure] at hr

@[simp]
theorem bounded_get_bind {f : σ → ExceptT Violation (StateM σ) β} : Bounded (get >>= f) a ↔ Bounded (f a) a := Iff.rfl

@[simp]
theorem bounded_modify_bind {g : σ → σ} {f : PUnit → ExceptT Violation (StateM σ) β} :
    Bounded (modify g >>= f) a ↔ Bounded (f ()) (g a) := Iff.rfl

/-- A computation for every member of a list, each in a state that an invariant is about. -/
theorem bounded_forM {ι : Type} {f : ι → ExceptT Violation (StateM σ) PUnit} (I : σ → Prop) {is : List ι}
    (hb : ∀ i ∈ is, ∀ a, I a → Bounded (f i) a) (hI : ∀ i ∈ is, ∀ {a u b}, I a → Runs (f i) a u b → I b) (ha : I a) :
    Bounded (is.forM f) a := by
  induction is generalizing a with
  | nil => exact bounded_pure
  | cons i is ih =>
    rw [List.forM_eq_forM, List.forM_cons]
    refine bounded_bind (hb i (by simp) a ha) ?_
    intro _ b hr
    exact ih (fun j hj => hb j (by simp [hj])) (fun j hj => hI j (by simp [hj])) (hI i (by simp) ha hr)

end Monad

/-! ### Instructions -/

namespace Assemble

variable {a : Assembly}

theorem setOperand_error {x : Instruction} {i : Nat} {v : Int} {e : Violation} {w : Nat} (hw : x.op.widths[i]? = some w)
    (hfit : i ∈ x.op.guarded → fits v w) (h : x.setOperand i v = .error e) : e.IsWidth := by
  have hi : ¬(i : Int) < 0 := by omega
  simp only [Instruction.setOperand, hi, if_false, Int.toNat_natCast, hw] at h
  by_cases hf : fits v w = true
  · simp [hf] at h
  · have hno : fits v w = false := by simpa using hf
    simp only [hno, Bool.false_eq_true, if_false, Except.error.injEq] at h
    exact ⟨x.op, i, v, w, hw, fun hg => hf (hfit hg), hno, h.symm⟩

theorem withOperands_error {x : Instruction} {vs : List Int} {k : Nat} {e : Violation}
    (hlen : k + vs.length = x.op.widths.length)
    (hfit : ∀ i ∈ x.op.guarded, ∀ j v w, i = k + j → vs[j]? = some v → x.op.widths[i]? = some w → fits v w)
    (h : (vs.zipIdx k).foldlM (fun x p => x.setOperand p.2 p.1) x = .error e) : e.IsWidth := by
  induction vs generalizing x k with
  | nil => simp [pure, Except.pure] at h
  | cons v vs ih =>
    simp only [List.length_cons] at hlen
    have hlt : k < x.op.widths.length := by omega
    simp only [List.zipIdx_cons, List.foldlM_cons, bind, Except.bind] at h
    split at h
    · next e' he =>
      obtain rfl := Except.error.inj h
      refine setOperand_error (List.getElem?_eq_getElem hlt) ?_ he
      intro hg
      exact hfit k hg 0 v _ rfl rfl (List.getElem?_eq_getElem hlt)
    · next y hy =>
      obtain ⟨_, _, _, rfl⟩ := setOperand_ok hy
      refine ih (by simp only; omega) ?_ h
      intro i hg j v' w' hi hv hw
      exact hfit i hg (j + 1) v' w' (by omega) (by simpa using hv) hw

/-- An instruction with the right number of operands, of which those that have to fit do. -/
def Ready (op : Opcode) (vs : List Int) : Prop :=
  vs.length = op.widths.length ∧
    ∀ i ∈ op.guarded, ∀ v w, vs[i]? = some v → op.widths[i]? = some w → fits v w

theorem bounded_emit {s : Section} {op : Opcode} {line : Int} {vs : List Int} (hr : (a.stream s).resolved = false)
    (hv : Ready op vs) : Bounded (emit s op line vs) a := by
  unfold emit
  rw [bounded_get_bind, hr, hv.1]
  simp only [Bool.false_eq_true, if_false, ne_eq, not_true_eq_false, if_false]
  refine bounded_bind (bounded_lift fun e he => ?_) fun x b _ => ?_
  · refine withOperands_error (k := 0) (by simp [hv.1]) ?_ he
    rintro i hg j v w rfl hvj hw
    exact hv.2 _ hg v w (by simpa using hvj) hw
  · exact bounded_bind (by intro e b h; cases h) fun _ _ _ => bounded_bind bounded_modify fun _ _ _ => bounded_pure

theorem bounded_setOperand {n i : Nat} {v : Int} {w : Nat} (hw : (a.instr n).op.widths[i]? = some w)
    (hfit : i ∈ (a.instr n).op.guarded → fits v w) : Bounded (setOperand n i v) a := by
  unfold setOperand
  rw [bounded_get_bind]
  exact bounded_bind (bounded_lift fun e he => setOperand_error hw hfit he) fun _ _ _ => bounded_modify

theorem bounded_operand {n i : Nat} (h : i < (a.instr n).operands.length) : Bounded (operand n i) a := by
  unfold operand
  rw [bounded_get_bind]
  refine bounded_lift fun e he => ?_
  have hi : ¬(i : Int) < 0 := by omega
  simp [Instruction.operand, hi, List.getElem?_eq_getElem h] at he

theorem bounded_owned {s : Section} {n : Option Nat} : Bounded (owned s n) a := by
  cases n <;> exact bounded_pure

theorem bounded_offset {s : Section} {src dst i : Nat} (hsrc : src ∈ (a.stream s).order)
    (hdst : dst ∈ (a.stream s).order) (hi : i < (a.instr src).operands.length) : Bounded (offset s src dst i) a := by
  have hown : ∀ {n : Nat}, n ∈ (a.stream s).order → a.contains s n = true := by
    intro n hn
    simpa [Assembly.contains] using hn
  unfold offset requestOffset
  refine bounded_bind bounded_owned fun r b hr => ?_
  obtain ⟨hsame, rfl⟩ : r = .ok src ∧ a = b := by
    simpa only [owned, runs_get_bind, runs_pure, hown hsrc, if_true, eq_comm (a := b)] using hr
  subst hsame
  refine bounded_bind bounded_owned fun r b hr => ?_
  obtain ⟨hsame, rfl⟩ : r = .ok dst ∧ a = b := by
    simpa only [owned, runs_get_bind, runs_pure, hown hdst, if_true, eq_comm (a := b)] using hr
  subst hsame
  simp only [bounded_get_bind]
  refine bounded_bind (bounded_lift fun e he => ?_) fun _ _ _ => bounded_modify
  have hnot : ¬(i : Int) < 0 := by omega
  simp [Instruction.operand, hnot, List.getElem?_eq_getElem hi] at he

theorem bounded_replace_mark {n : Nat} : Bounded (replace n .mark []) a := by
  unfold replace
  rw [if_neg (by decide)]
  exact bounded_bind bounded_modify fun _ _ _ => bounded_pure

end Assemble

/-! ### Steps of the compiler -/

namespace Lower

variable {α β : Type} {c : Store × Module} {l l' : Lowering}

theorem bounded_bind {m : Lower α} {f : α → Lower β} (hm : Bounded (m c) l)
    (hf : ∀ x l', Runs (m c) l x l' → Bounded (f x c) l') : Bounded ((m >>= f) c) l :=
  Bytecode.bounded_bind hm hf

@[simp]
theorem bounded_pure {x : α} : Bounded ((pure x : Lower α) c) l := Bytecode.bounded_pure

@[simp]
theorem bounded_store_bind {f : Store → Lower β} : Bounded ((store >>= f) c) l ↔ Bounded (f c.1 c) l := Iff.rfl

@[simp]
theorem bounded_moduleName_bind {f : String → Lower β} :
    Bounded ((moduleName >>= f) c) l ↔ Bounded (f c.2.name c) l := Iff.rfl

@[simp]
theorem bounded_read_bind {f : Store × Module → Lower β} :
    Bounded (((read : Lower (Store × Module)) >>= f) c) l ↔ Bounded (f c c) l := Iff.rfl

@[simp]
theorem bounded_get_bind {f : Lowering → Lower β} :
    Bounded ((getThe Lowering >>= f) c) l ↔ Bounded (f l c) l := Iff.rfl

@[simp]
theorem bounded_modify {g : Lowering → Lowering} : Bounded ((modifyThe Lowering g : Lower PUnit) c) l :=
  Bytecode.bounded_modify

@[simp]
theorem bounded_modify_bind {g : Lowering → Lowering} {f : PUnit → Lower β} :
    Bounded (((modifyThe Lowering g : Lower PUnit) >>= f) c) l ↔ Bounded (f () c) (g l) := Iff.rfl

theorem bounded_assemble {m : Assemble α} (h : Bounded m l.asm) : Bounded (assemble m c) l := by
  unfold assemble
  rw [bounded_get_bind]
  rcases hr : m l.asm with ⟨e | x, asm⟩
  · intro e' b he
    simp only [bind, ReaderT.bind, ExceptT.bind, ExceptT.mk, ExceptT.bindCont, StateT.bind] at he
    obtain ⟨rfl, -⟩ : e = e' ∧ _ := by simpa using Prod.mk.inj he
    exact h _ _ hr
  · exact bounded_bind bounded_modify fun _ _ _ => bounded_pure

theorem bounded_emit {s : Section} {op : Opcode} {line : Nat} {vs : List Int}
    (hr : (l.asm.stream s).resolved = false) (hv : Assemble.Ready op vs) : Bounded (emit s op line vs c) l :=
  bounded_assemble (Assemble.bounded_emit hr hv)

theorem bounded_put {s : Section} {op : Opcode} {line : Nat} {vs : List Int}
    (hr : (l.asm.stream s).resolved = false) (hv : Assemble.Ready op vs) : Bounded (put s op line vs c) l :=
  bounded_bind (bounded_emit hr hv) fun _ _ _ => bounded_pure

theorem bounded_mark {s : Section} {line : Nat} (hr : (l.asm.stream s).resolved = false) :
    Bounded (mark s line c) l := bounded_emit hr ⟨rfl, by simp [Opcode.guarded]⟩

theorem bounded_constant {v : Constant} : Bounded (constant v c) l := by
  unfold constant
  rw [bounded_get_bind]
  rcases l.pool.add v with ⟨k, pool⟩
  exact bounded_modify_bind.mpr bounded_pure

theorem bounded_typeConstant {t : Option Ty} (h : t.isSome) : Bounded (typeConstant t c) l := by
  obtain ⟨t, rfl⟩ := Option.isSome_iff_exists.mp h
  exact bounded_store_bind.mpr bounded_constant

end Lower

end Weft.Bytecode
