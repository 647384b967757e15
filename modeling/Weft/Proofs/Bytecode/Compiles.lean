import Weft.Proofs.Bytecode.Layout
import Weft.Proofs.Bytecode.Trusted
import Weft.Proofs.Bytecode.Violations

/-!
# Trusted programs are put into the streams

By induction over typed trees: where the compiler can rely on a tree, nothing but the width of an operand keeps
it from emitting the code of the tree. From there it is a step to functions, declarations and programs.
-/

namespace Weft.Bytecode

open Typed (Expr Chain Call Append Lambda Frame VarDecl Stmt Block Arm)

/-! ### States -/

/-- A state in which code can be put into a stream, within a loop if that is needed. -/
structure Lowering.Open (s : Section) (loop : Bool) (l : Lowering) : Prop where
  unresolved : (l.asm.stream s).resolved = false
  looped : loop = true → l.loops ≠ []

section States

variable {s : Section} {loop : Bool} {l l' : Lowering} {code : List Piece} {c : Store × Module} {u : PUnit}

theorem Lowering.Open.outside (h : l.Open s loop) : l.Open s false := ⟨h.unresolved, nofun⟩

theorem Lowering.Open.emits (h : l.Open s loop) (he : Emits s l l' code) : l'.Open s loop := by
  refine ⟨he.resolved.trans h.unresolved, fun hloop => ?_⟩
  have hne := h.looped hloop
  have hw := he.loops
  generalize l.loops = u at hne hw
  generalize l'.loops = v at hw ⊢
  cases hw with
  | outside => exact absurd rfl hne
  | inside => nofun

theorem Lowering.Open.offset {src dst : Nat} {i : Int} (h : l.Open s loop)
    (ho : Runs (Lower.offset s src dst i c) l u l') : l'.Open s loop := by
  rw [runs_lowerOffset ho]
  refine ⟨?_, h.looped⟩
  simpa using h.unresolved

/-- A stream holds an instruction with a number of operands. -/
structure Lowering.Holds (s : Section) (l : Lowering) (n k : Nat) : Prop where
  made : n < l.next
  placed : n ∈ (l.asm.stream s).order
  operands : (l.asm.instr n).operands.length = k

/-- A new instruction is in its stream, with its operands. -/
theorem Puts.holds {i : Nat} {q : Piece} (h : Puts s l l' code) (hq : code[i]? = some q) :
    l'.Holds s (l.next + i) q.op.widths.length := by
  obtain ⟨x, hx, hm⟩ := h.new i q hq
  have hlt := (List.getElem?_eq_some_iff.mp hq).1
  refine ⟨by rw [h.size]; omega, ?_, ?_⟩
  · rw [← Array.mem_toList_iff, h.order, List.mem_append, List.mem_range'_1]
    omega
  · rw [Assembly.instr, hx, Option.getD_some, hm.sound.count, hm.op]

theorem Lowering.Holds.puts {n k : Nat} (h : l.Holds s n k) (hp : Puts s l l' code) : l'.Holds s n k := by
  refine ⟨by rw [hp.size]; exact Nat.lt_add_right _ h.made, ?_, ?_⟩
  · rw [← Array.mem_toList_iff, hp.order]
    exact List.mem_append_left _ (Array.mem_toList_iff.mpr h.placed)
  · rw [Assembly.instr, hp.old n h.made]
    exact h.operands

theorem Lowering.Holds.offset {src dst n k : Nat} {i : Int} (h : l.Holds s n k)
    (ho : Runs (Lower.offset s src dst i c) l u l') : l'.Holds s n k := by
  rw [runs_lowerOffset ho]
  exact ⟨by simpa [Lowering.next] using h.made, by simpa using h.placed, by simpa [Assembly.instr] using h.operands⟩

theorem bounded_offset {src dst i k m : Nat} (hsrc : l.Holds s src k) (hdst : l.Holds s dst m) (hi : i < k) :
    Bounded (Lower.offset s src dst i c) l :=
  Lower.bounded_assemble (Assemble.bounded_offset hsrc.placed hdst.placed (by rw [hsrc.operands]; exact hi))

/-- Distances to one instruction. -/
theorem bounded_offsets {bs : List Nat} {dst i m : Nat} (hsrc : ∀ b ∈ bs, ∃ k, l.Holds s b k ∧ i < k)
    (hdst : l.Holds s dst m) : Bounded ((bs.forM fun b => Lower.offset s b dst i : Lower PUnit) c) l := by
  rw [Lower.forM_apply]
  refine bounded_forM (fun l => (∀ b ∈ bs, ∃ k, l.Holds s b k ∧ i < k) ∧ l.Holds s dst m) ?_ ?_ ⟨hsrc, hdst⟩
  · rintro b hb l ⟨hsrc, hdst⟩
    obtain ⟨k, hk, hi⟩ := hsrc b hb
    exact bounded_offset hk hdst hi
  · rintro b - l u l' ⟨hsrc, hdst⟩ hr
    refine ⟨?_, hdst.offset hr⟩
    intro b hb
    obtain ⟨k, hk, hi⟩ := hsrc b hb
    exact ⟨k, hk.offset hr, hi⟩

theorem Lowering.Holds.offsets {bs : List Nat} {dst n k : Nat} {i : Int} (h : l.Holds s n k)
    (ho : Runs (bs.forM (fun b => Lower.offset s b dst i) c) l u l') : l'.Holds s n k := by
  rw [Lower.forM_apply] at ho
  induction bs generalizing l with
  | nil =>
    rw [runs_forM_nil.mp ho]
    exact h
  | cons b bs ih =>
    obtain ⟨l₁, h1, h2⟩ := runs_forM_cons.mp ho
    exact ih (h.offset h1) h2

/-- Code in which what waits has an offset. -/
def Awaits (code : List Piece) : Prop := ∀ q ∈ code, q.Waits → q.op.offsetOperand?.isSome

theorem Directed.awaits (h : Directed code) : Awaits code := by
  intro q hq hw
  rw [h q hq]
  rcases hw with hw | hw <;> rw [hw] <;> rfl

theorem Idle.awaits (h : Idle code) : Awaits code := fun q hq hw => absurd hw (h q hq)

theorem Awaits.append {a b : List Piece} (ha : Awaits a) (hb : Awaits b) : Awaits (a ++ b) := by
  intro q hq
  rcases List.mem_append.mp hq with hq | hq
  · exact ha q hq
  · exact hb q hq

/-- The jumps that wait for the ends of a loop are in its code. -/
theorem bounded_leaveLoop {n exit next k m : Nat} {w : List Loop} (hw : Waiting n code (⟨[], []⟩ :: w) l.loops)
    (hp : ∀ {i : Nat} {q}, code[i]? = some q → l.Holds s (n + i) q.op.widths.length) (hd : Awaits code)
    (hexit : l.Holds s exit k) (hnext : l.Holds s next m) : Bounded (Lower.leaveLoop s exit next c) l := by
  unfold Lower.leaveLoop
  rw [Lower.bounded_get_bind]
  have hpending : ∀ {g b}, g = .exit ∨ g = .next → Pending g n code b → ∃ k, l.Holds s b k ∧ 0 < k := by
    rintro g b hg ⟨i, q, hi, hq, rfl⟩
    have hwaits : q.Waits := by rcases hg with rfl | rfl <;> simp [Piece.Waits, hq]
    obtain ⟨k, hk⟩ := Option.isSome_iff_exists.mp (hd q (List.mem_of_getElem? hi) hwaits)
    exact ⟨_, hp hi, Nat.zero_lt_of_lt (Opcode.offsetOperand_lt hk)⟩
  generalize hv : l.loops = loops at hw
  cases hw with
  | @inside _ v _ hbreaks hcontinues =>
    rw [Lower.bounded_modify_bind]
    refine Lower.bounded_bind (bounded_offsets ?_ ⟨hexit.made, hexit.placed, hexit.operands⟩) ?_
    · intro b hb
      obtain ⟨k, hk, hpos⟩ := hpending (.inl rfl) (by simpa using (hbreaks b).mp hb)
      exact ⟨k, ⟨hk.made, hk.placed, hk.operands⟩, hpos⟩
    · intro _ l₁ h1
      have keeps : ∀ {n k : Nat}, l.Holds s n k → l₁.Holds s n k := fun h =>
        Lowering.Holds.offsets (l := { l with loops := w }) ⟨h.made, h.placed, h.operands⟩ h1
      refine bounded_offsets ?_ (keeps hnext)
      intro b hb
      obtain ⟨k, hk, hpos⟩ := hpending (.inr rfl) (by simpa using (hcontinues b).mp hb)
      exact ⟨k, keeps hk, hpos⟩

end States

/-! ### Operands -/

theorem ready_free {op : Opcode} {vs : List Int} (hg : op.guarded = []) (hl : vs.length = op.widths.length) :
    Assemble.Ready op vs := ⟨hl, by simp [hg]⟩

theorem fits_byte {v : Int} (h : -128 ≤ v ∧ v ≤ 127) : fits v 1 = true := by
  have hrange : operandRange 1 = (-128, 127) := by decide
  simp [fits, hrange, h]

theorem ready_byte {op : Opcode} {v : Int} {vs : List Int} {ws : List Nat} (hw : op.widths = 1 :: ws)
    (hg : op.guarded = [0]) (hl : vs.length = ws.length) (hv : -128 ≤ v ∧ v ≤ 127) : Assemble.Ready op (v :: vs) := by
  refine ⟨by simp [hw, hl], ?_⟩
  simp only [hg, List.mem_singleton, forall_eq, List.getElem?_cons_zero, Option.some.injEq, hw]
  rintro _ _ rfl rfl
  exact fits_byte hv

section Trees

variable {c : Store × Module} {slots : Nat} {s : Section} {l l' : Lowering} {line : Nat} {kids : List Piece}

/-- The slot of a variable fits. -/
theorem ready_slot {op : Opcode} {v : LocalVar} {vs : List Int} {ws : List Nat} (hv : v.InFrame slots)
    (hs : slots ≤ Typed.maxFrame) (hw : op.widths = 1 :: ws) (hg : op.guarded = [0]) (hl : vs.length = ws.length) :
    Assemble.Ready op (v.slot :: vs) := by
  have hlo := hv.1
  have hhi := hv.2
  have hmax : Typed.maxFrame = 127 := rfl
  exact ready_byte hw hg hl (by omega)

/-! ### Accesses -/

theorem bounded_global {g : GlobalId} {own imported : Opcode} (ho : l.Open s false)
    (hown : own.guarded = [] ∧ own.widths.length = 1) (himp : imported.guarded = [] ∧ imported.widths.length = 2) :
    Bounded (Lower.global s line g own imported c) l := by
  unfold Lower.global
  rw [Lower.bounded_store_bind, Lower.bounded_moduleName_bind]
  split
  · exact Lower.bounded_put ho.unresolved (ready_free hown.1 hown.2.symm)
  · refine Lower.bounded_bind Lower.bounded_constant fun k l₁ h1 => ?_
    obtain ⟨_, -, hu⟩ := used_constant h1
    rw [hu.state]
    exact Lower.bounded_put ho.unresolved (ready_free himp.1 himp.2.symm)

theorem Used.open {v : Constant} {k : Nat} {loop : Bool} (h : Used v k l l') (ho : l.Open s loop) : l'.Open s loop := by
  rw [h.state]
  exact ⟨ho.unresolved, ho.looped⟩

/-- An instruction with a constant. -/
theorem bounded_put_const {v : Constant} {op : Opcode} (vs : Int → List Int) (ho : l.Open s false)
    (hg : op.guarded = []) (hl : ∀ k, (vs k).length = op.widths.length) :
    Bounded ((do Lower.put s op line (vs (← Lower.constant v)) : Lower PUnit) c) l := by
  refine Lower.bounded_bind Lower.bounded_constant fun k l₁ h1 => ?_
  obtain ⟨_, -, hu⟩ := used_constant h1
  exact Lower.bounded_put (hu.open ho).unresolved (ready_free hg (hl k))

/-- An instruction with the constant of a type. -/
theorem bounded_put_type {t : Option Ty} {op : Opcode} (vs : Int → List Int) (ho : l.Open s false) (ht : t.isSome)
    (hr : ∀ k, Assemble.Ready op (vs k)) :
    Bounded ((do Lower.put s op line (vs (← Lower.typeConstant t)) : Lower PUnit) c) l := by
  refine Lower.bounded_bind (Lower.bounded_typeConstant ht) fun k l₁ h1 => ?_
  obtain ⟨_, _, -, -, hu⟩ := used_typeConstant h1
  exact Lower.bounded_put (hu.open ho).unresolved (hr k)

section Children

variable {children : Lower PUnit} {bits : Int}
  (hb : ∀ {l}, l.Open s false → Bounded (children c) l)
  (he : ∀ {l l'}, Runs (children c) l () l' → Emits s l l' kids)

include hb he

theorem bounded_callFunc {f : FuncId} (ho : l.Open s false) : Bounded (Lower.callFunc s line f bits children c) l := by
  unfold Lower.callFunc
  rw [Lower.bounded_store_bind]
  split
  · refine Lower.bounded_bind (hb ho) fun _ l₁ h1 => ?_
    exact Lower.bounded_put (ho.emits (he h1)).unresolved (ready_free rfl rfl)
  · refine Lower.bounded_bind Lower.bounded_constant fun k l₁ h1 => ?_
    obtain ⟨_, rfl, hu⟩ := used_constant h1
    refine Lower.bounded_bind (Lower.bounded_emit (hu.open ho).unresolved (ready_free rfl rfl)) fun get l₂ h2 => ?_
    have ho₂ := ho.emits (emits_emit_const [0] hu h2 rfl rfl).2
    refine Lower.bounded_bind (hb ho₂) fun _ l₃ h3 => ?_
    have ho₃ := ho₂.emits (he h3)
    refine Lower.bounded_bind (Lower.bounded_emit ho₃.unresolved (ready_free rfl rfl)) fun call l₄ h4 => ?_
    rw [Lower.bounded_moduleName_bind]
    split
    · exact Lower.bounded_modify
    · exact Lower.bounded_pure

theorem bounded_access {a : Typed.Access} (ho : l.Open s false) (hs : slots ≤ Typed.maxFrame)
    (ha : a.Trusted c.1.OfInterface slots) : Bounded (Lower.access s line a bits children c) l := by
  unfold Lower.access
  rw [Lower.bounded_store_bind]
  -- the children are followed by more instructions
  have after : ∀ {m : Lower PUnit}, (∀ {l}, l.Open s false → Bounded (m c) l) →
      Bounded ((children >>= fun _ => m) c) l := by
    intro m hm
    exact Lower.bounded_bind (hb ho) fun _ l₁ h1 => hm (ho.emits (he h1))
  have put : ∀ {op : Opcode} {vs : List Int}, op.guarded = [] → vs.length = op.widths.length →
      ∀ {l : Lowering}, l.Open s false → Bounded (Lower.put s op line vs c) l := by
    intro op vs hg hl l ho
    exact Lower.bounded_put ho.unresolved (ready_free hg hl)
  have slot : ∀ {op : Opcode} {v : LocalVar}, v.InFrame slots → op.widths = [1] → op.guarded = [0] →
      ∀ {l : Lowering}, l.Open s false → Bounded (Lower.put s op line [v.slot] c) l := by
    intro op v hv hw hg l ho
    exact Lower.bounded_put ho.unresolved (ready_slot hv hs hw hg rfl)
  cases a with
  | readVar v => exact slot ha rfl rfl ho
  | writeVar v => exact after (slot ha rfl rfl)
  | varRef v => exact slot ha rfl rfl ho
  | readGlobal g => exact bounded_global ho ⟨rfl, rfl⟩ ⟨rfl, rfl⟩
  | writeGlobal g => exact after fun ho => bounded_global ho ⟨rfl, rfl⟩ ⟨rfl, rfl⟩
  | readField f =>
    dsimp only
    split
    · exact put rfl rfl ho
    · exact put rfl rfl ho
  | readNative slot => exact put rfl rfl ho
  | writeField f => exact after (put rfl rfl)
  | initField f => exact after (put rfl rfl)
  | func f => exact bounded_callFunc hb he ho
  | funcRef f =>
    dsimp only
    split
    · exact put rfl rfl ho
    · exact bounded_put_const (fun k => [k]) ho rfl fun _ => rfl
  | method f =>
    refine after fun ho => ?_
    by_cases hn : (c.1.func f).native = true
    · simp only [hn, if_true]
      exact put rfl rfl ho
    · simp only [hn, if_false, Bool.false_eq_true]
      exact bounded_put_const (fun k => [k, bits]) ho rfl fun _ => rfl
  | methodNative slot => exact after (put rfl rfl)
  | methodVirtual f => exact after (put rfl rfl)
  | methodIface f =>
    obtain ⟨i, hi⟩ := ha
    refine after fun ho => ?_
    simp only [hi]
    exact bounded_put_type (fun k => [(c.1.func f).index, k, bits]) ho rfl fun _ => ready_free rfl rfl
  | funcPtr => exact after (put rfl rfl)
  | arrayGet => exact after (put rfl rfl)
  | arraySet => exact after (put rfl rfl)
  | mapGet => exact after (put rfl rfl)
  | mapSet => exact after (put rfl rfl)

end Children

/-! ### Expressions -/

/-- A mark to which an instruction before it leads. -/
private theorem bounded_skip {op : Opcode} {line' n k : Nat} {vs : List Int} {code : List Piece} {loop : Bool}
    (ho : l.Open s loop) (h : Emits s l l' (.plain op line vs :: code)) (hn : n = l.next) (hk : k < op.widths.length) :
    Bounded ((do Lower.offset s n (← Lower.mark s line') k : Lower PUnit) c) l' := by
  refine Lower.bounded_bind (Lower.bounded_mark (ho.emits h).unresolved) fun m l₁ h1 => ?_
  obtain ⟨rfl, hm⟩ := emits_mark h1
  subst hn
  have hsrc : l₁.Holds s l.next op.widths.length := (h.toPuts.holds (i := 0) rfl).puts hm.toPuts
  exact bounded_offset hsrc (hm.toPuts.holds (i := 0) rfl) hk

/-- More is compiled after that. -/
private theorem bounded_skip_bind {op : Opcode} {line' n k : Nat} {vs : List Int} {code : List Piece} {loop : Bool}
    {α : Type} {f : Lower α} (ho : l.Open s loop) (h : Emits s l l' (.plain op line vs :: code)) (hn : n = l.next)
    (hk : k < op.widths.length) (hf : ∀ {l}, l.Open s loop → Bounded (f c) l) :
    Bounded ((do
      Lower.offset s n (← Lower.mark s line') k
      f : Lower α) c) l' := by
  have hsame : (do
      Lower.offset s n (← Lower.mark s line') k
      f : Lower α) = ((do Lower.offset s n (← Lower.mark s line') k : Lower PUnit) >>= fun _ => f) := by
    simp
  rw [hsame]
  refine Lower.bounded_bind (bounded_skip ho h hn hk) fun _ l₁ h1 => ?_
  obtain ⟨m, l₂, h2, h3⟩ := Lower.runs_bind.mp h1
  exact hf (((ho.emits h).emits (emits_mark h2).2).offset h3)

/-- The body of a frame. -/
theorem bounded_closed {m : Lower PUnit} {code : List Piece} (hm : Bounded (m c) { l with loops := [] })
    (he : ∀ {l l'}, Runs (m c) l () l' → Emits s l l' code) (ho : l.Open s false) :
    Bounded (Lower.closed s line m c) l := by
  unfold Lower.closed
  rw [Lower.bounded_get_bind, Lower.bounded_modify_bind]
  refine Lower.bounded_bind hm fun _ l₁ h1 => ?_
  rw [Lower.bounded_modify_bind, Lower.bounded_get_bind]
  have hput : Bounded (Lower.put s .ret line [] c) { l₁ with loops := l.loops } :=
    Lower.bounded_put ((he h1).resolved.trans ho.unresolved) (ready_free rfl rfl)
  cases hn : (l₁.asm.stream s).order.back? with
  | none => simpa only [hn] using hput
  | some n =>
    by_cases hret : (l₁.asm.instr n).op.isReturn = true
    · simp only [hret, if_true]
      exact Lower.bounded_pure
    · simpa only [hn, hret, if_false, Bool.false_eq_true] using hput

/-! ### Loops -/

/-- The end of a loop, from the distance of the jump back on. -/
private theorem bounded_round {l₀ : Lowering} {inner : List Piece} {top jz back next k m : Nat} (ho : l.Open s true)
    (h : Emits s { l₀ with loops := ⟨[], []⟩ :: l₀.loops } l (inner ++ [Piece.plain .jump line [0]])) (hd : Awaits inner)
    (hback : back = l₀.next + inner.length) (htop : l.Holds s top k) (hjz : l.Holds s jz 1) (hnext : l.Holds s next m) :
    Bounded ((do
      Lower.offset s back top 0
      let exit ← Lower.mark s line
      Lower.offset s jz exit 0
      Lower.leaveLoop s exit next : Lower PUnit) c) l := by
  have hsrc : l.Holds s back 1 := hback ▸ h.toPuts.holds (q := .plain .jump line [0]) (by simp)
  refine Lower.bounded_bind (bounded_offset hsrc htop Nat.one_pos) fun _ l₁ h1 => ?_
  have ho₁ := ho.offset h1
  refine Lower.bounded_bind (Lower.bounded_mark ho₁.unresolved) fun exit l₂ h2 => ?_
  obtain ⟨rfl, hm⟩ := emits_mark h2
  have hexit : l₂.Holds s l₁.next 0 := hm.toPuts.holds (i := 0) rfl
  refine Lower.bounded_bind (bounded_offset ((hjz.offset h1).puts hm.toPuts) hexit Nat.one_pos) fun _ l₃ h3 => ?_
  -- the loop around the place still is the one in which the code was emitted
  have hloops₁ : l₁.loops = l.loops := by rw [runs_lowerOffset h1]
  have hloops₃ : l₃.loops = l₂.loops := by rw [runs_lowerOffset h3]
  have hsize : l₁.next = l₀.next + (inner ++ [Piece.plain .jump line [0]]).length := by
    have : l₁.next = l.next := by
      rw [runs_lowerOffset h1]
      simp [Lowering.next]
    exact this.trans h.size
  have hwait : Waiting l₀.next (inner ++ [Piece.plain .jump line [0]] ++ [Piece.mark line]) (⟨[], []⟩ :: l₀.loops) l₃.loops := by
    rw [hloops₃]
    have hw : Waiting l₀.next _ (⟨[], []⟩ :: l₀.loops) l.loops := h.loops
    refine Waiting.append (hloops₁ ▸ hw) ?_
    rw [← hsize]
    exact hm.loops
  refine bounded_leaveLoop hwait ?_ ?_ (hexit.offset h3) (((hnext.offset h1).puts hm.toPuts).offset h3)
  · intro i q hi
    rcases getElem?_append_cases.mp hi with hi | ⟨j, rfl, hj⟩
    · exact (((h.toPuts.holds hi).offset h1).puts hm.toPuts).offset h3
    · rw [← Nat.add_assoc, ← hsize]
      exact (hm.toPuts.holds hj).offset h3
  · refine (hd.append (Idle.awaits ?_)).append (Idle.awaits ?_)
    · exact .cons not_waits_plain .nil
    · exact .cons not_waits_mark .nil

/-! ### Conditions -/

/-- The jumps to the end of a condition are in its code. -/
private theorem armsExits_mem {under more : Bool} {n j : Nat} (as : List Arm)
    (h : j ∈ armsExits c under line more n as) :
    ∃ (i : Nat) (q : Piece), (armsOpen c under line more as)[i]? = some q ∧ j = n + i ∧ q.op = .jump := by
  induction as generalizing n with
  | nil => simp [armsExits] at h
  | cons arm as ih =>
    obtain ⟨test, body⟩ := arm
    rw [armsExits, List.mem_append] at h
    rw [armsOpen]
    rcases h with h | h
    · have hleave : (more || !as.isEmpty) = true := by
        by_contra hno
        simp [leaveCode, hno] at h
      simp only [leaveCode, hleave, if_true, List.map_cons, List.map_nil, List.mem_singleton] at h ⊢
      subst h
      refine ⟨(exprCode c test).length + 1 + (blockCode c under body).length,
        ⟨.jump, [0], body.line, none, none, none⟩, getElem?_append_cases.mpr (.inl ?_), rfl, rfl⟩
      simp [armCode, Nat.add_assoc, Nat.add_comm 1]
    · obtain ⟨i, q, hi, rfl, hop⟩ := ih h
      refine ⟨_, q, getElem?_append_cases.mpr (.inr ⟨i, rfl, hi⟩), ?_, hop⟩
      simp [armCode]
      omega

/-- The jumps to the end of a condition find it. -/
private theorem bounded_meet {under more : Bool} {exits : List Nat} {l₀ : Lowering} {code : List Piece} (as : List Arm)
    (h : Emits s l₀ l (armsOpen c under line more as ++ code)) (ho : l.Open s loop)
    (he : exits = armsExits c under line more l₀.next as) :
    Bounded ((do
      let stop ← Lower.mark s line
      exits.forM fun j => Lower.offset s j stop 0 : Lower PUnit) c) l := by
  refine Lower.bounded_bind (Lower.bounded_mark ho.unresolved) fun stop l₁ h1 => ?_
  obtain ⟨rfl, hm⟩ := emits_mark h1
  refine bounded_offsets (i := 0) ?_ (hm.toPuts.holds (i := 0) rfl)
  intro j hj
  obtain ⟨i, q, hi, rfl, hop⟩ := armsExits_mem as (he ▸ hj)
  have hq : (armsOpen c under line more as ++ code)[i]? = some q := getElem?_append_cases.mpr (.inl hi)
  exact ⟨_, (h.toPuts.holds hq).puts hm.toPuts, by rw [hop]; exact Nat.one_pos⟩

/-! ### Trees -/

theorem bounded_waitLoop {f : Loop → Loop} (h : l.loops ≠ []) : Bounded (Lower.waitLoop f c) l := by
  unfold Lower.waitLoop
  rw [Lower.bounded_get_bind]
  cases hl : l.loops with
  | nil => exact absurd hl h
  | cons v rest => exact Lower.bounded_modify

/-- A jump to an end of the loop around it. -/
private theorem bounded_wait {op : Opcode} {f : Nat → Loop → Loop} (ho : l.Open s true) (hop : op.widths = [2])
    (hg : op.guarded = []) :
    Bounded ((do
      Lower.waitLoop id
      let j ← Lower.emit s op line [0]
      Lower.waitLoop (f j) : Lower PUnit) c) l := by
  refine Lower.bounded_bind (bounded_waitLoop (ho.looped rfl)) fun _ l₁ h1 => ?_
  obtain ⟨v, rest, -, rfl⟩ := runs_waitLoop h1
  refine Lower.bounded_bind (Lower.bounded_emit ho.unresolved (ready_free hg (by rw [hop]; rfl))) fun j l₂ h2 => ?_
  obtain ⟨asm, -, rfl⟩ := Lower.runs_assemble.mp h2
  exact bounded_waitLoop (List.cons_ne_nil _ _)

theorem fits_number {n : Nat} (h : n ≤ Typed.maxFrame) : -128 ≤ (n : Int) ∧ (n : Int) ≤ 127 := by
  have hmax : Typed.maxFrame = 127 := rfl
  omega

/-- What a lambda captures. -/
private theorem bounded_upvals {n : Nat} {ups : List Typed.Upval} (hu : ∀ u ∈ ups, u.src < slots ∧ u.dst < n)
    (hs : slots ≤ Typed.maxFrame) (hn : n ≤ Typed.maxFrame) (ho : l.Open s false) :
    Bounded (ups.forM (fun u => Lower.put s .useUpval line [(u.src : Int), u.dst, if u.copied then 0 else 1]) c) l := by
  rw [Lower.forM_apply]
  refine bounded_forM (fun l => l.Open s false) ?_ ?_ ho
  · intro u hmem l ho
    obtain ⟨hsrc, hdst⟩ := hu u hmem
    refine Lower.bounded_put ho.unresolved ⟨rfl, ?_⟩
    have hmode : fits (if u.copied then 0 else 1) 1 = true := by cases u.copied <;> decide
    have hguard : Opcode.guarded .useUpval = [0, 1, 2] := rfl
    have hwidths : Opcode.widths .useUpval = [1, 1, 1] := rfl
    rw [hguard, hwidths]
    intro i hi v w hv hw
    simp only [List.mem_cons, List.not_mem_nil, or_false] at hi
    obtain rfl | rfl | rfl := hi <;> simp only [List.getElem?_cons_zero, List.getElem?_cons_succ,
      Option.some.injEq] at hv hw <;> subst hv hw
    · exact fits_byte (fits_number (Nat.le_trans (Nat.le_of_lt hsrc) hs))
    · exact fits_byte (fits_number (Nat.le_trans (Nat.le_of_lt hdst) hn))
    · exact hmode
  · intro u _ l _ l' ho hr
    exact ho.emits (emits_put hr rfl)

private theorem bounded_pops {n : Nat} (ho : l.Open s false) :
    Bounded ((List.replicate n ()).forM (fun _ => Lower.put s .pop line []) c) l := by
  rw [Lower.forM_apply]
  refine bounded_forM (fun l => l.Open s false) ?_ ?_ ho
  · intro _ _ l ho
    exact Lower.bounded_put ho.unresolved (ready_free rfl rfl)
  · intro _ _ l _ l' ho hr
    exact ho.emits (emits_put hr rfl)

theorem firstDefault_le (ps : List VarDecl) : Lower.firstDefault ps ≤ ps.length := by
  unfold Lower.firstDefault
  cases h : ps.findIdx? (·.init.isSome) with
  | none => exact Nat.le_refl _
  | some i => exact Nat.le_of_lt (List.findIdx?_eq_some_iff_getElem.mp h).1

/-- A loop that tests before its body, from the jump back on. -/
private theorem bounded_while {top jz next : Nat} {test body post : List Piece} {l₀ l₁ l₂ : Lowering}
    (ht : Emits s l₀ l₁ (Piece.mark line :: test)) (hj : Emits s l₁ l₂ [Piece.plain .jumpZ line [0]])
    (hb : Emits s { l₂ with loops := ⟨[], []⟩ :: l₂.loops } l (body ++ Piece.mark line :: post))
    (hd : Awaits (body ++ Piece.mark line :: post)) (htop : top = l₀.next) (hjz : jz = l₁.next)
    (hnext : next = l₂.next + body.length) (ho : l.Open s true) :
    Bounded ((do
      let back ← Lower.emit s .jump line [0]
      Lower.offset s back top 0
      let exit ← Lower.mark s line
      Lower.offset s jz exit 0
      Lower.leaveLoop s exit next : Lower PUnit) c) l := by
  refine Lower.bounded_bind (Lower.bounded_emit ho.unresolved (ready_free rfl rfl)) fun back l₃ h1 => ?_
  obtain ⟨rfl, he⟩ := emits_emit h1 rfl
  subst htop hjz hnext
  have hfirst : l₁.Holds s l₀.next 0 := ht.toPuts.holds (i := 0) rfl
  have hjump : l₂.Holds s l₁.next 1 := hj.toPuts.holds (i := 0) rfl
  have hbody : Puts s l₂ l (body ++ Piece.mark line :: post) := hb.toPuts.reloop l₂.loops l.loops
  have hmark : l.Holds s (l₂.next + body.length) 0 := hbody.holds (q := .mark line) (by simp)
  refine bounded_round (k := 0) (ho.emits he) (hb.trans he) hd hb.size ?_ ?_ (hmark.puts he.toPuts)
  · exact ((hfirst.puts hj.toPuts).puts hbody).puts he.toPuts
  · exact (hjump.puts hbody).puts he.toPuts

/-- A loop that tests after its body, from the jump out of it on. -/
private theorem bounded_do {top next : Nat} {test body : List Piece} {l₀ l₁ : Lowering}
    (hm : Emits s l₀ l₁ [Piece.mark line])
    (hb : Emits s { l₁ with loops := ⟨[], []⟩ :: l₁.loops } l (body ++ Piece.mark line :: test))
    (hd : Awaits (body ++ Piece.mark line :: test)) (htop : top = l₀.next) (hnext : next = l₁.next + body.length)
    (ho : l.Open s true) :
    Bounded ((do
      let jz ← Lower.emit s .jumpZ line [0]
      let back ← Lower.emit s .jump line [0]
      Lower.offset s back top 0
      let exit ← Lower.mark s line
      Lower.offset s jz exit 0
      Lower.leaveLoop s exit next : Lower PUnit) c) l := by
  refine Lower.bounded_bind (Lower.bounded_emit ho.unresolved (ready_free rfl rfl)) fun jz l₂ h1 => ?_
  obtain ⟨rfl, hj⟩ := emits_emit h1 rfl
  have ho₂ := ho.emits hj
  refine Lower.bounded_bind (Lower.bounded_emit ho₂.unresolved (ready_free rfl rfl)) fun back l₃ h2 => ?_
  obtain ⟨rfl, he⟩ := emits_emit h2 rfl
  subst htop hnext
  have hfirst : l₁.Holds s l₀.next 0 := hm.toPuts.holds (i := 0) rfl
  have hbody : Puts s l₁ l (body ++ Piece.mark line :: test) := hb.toPuts.reloop l₁.loops l.loops
  have hmark : l.Holds s (l₁.next + body.length) 0 := hbody.holds (q := .mark line) (by simp)
  have hjump : l₂.Holds s l.next 1 := hj.toPuts.holds (i := 0) rfl
  have hall := hb.trans hj
  refine bounded_round (k := 0) (m := 0) (ho₂.emits he) (hall.trans he) ?_ hall.size ?_ (hjump.puts he.toPuts) ?_
  · exact hd.append (Idle.awaits (.cons not_waits_plain .nil))
  · exact ((hfirst.puts hbody).puts hj.toPuts).puts he.toPuts
  · exact (hmark.puts hj.toPuts).puts he.toPuts

mutual

/-- An expression that can be trusted is put into a stream. -/
theorem bounded_expr {slots : Nat} {s : Section} {l : Lowering} (hs : slots ≤ Typed.maxFrame) : (x : Expr) →
    x.Trusted c.1.OfInterface slots → l.Open s false → Bounded (Lower.expr s x c) l
  | .literal line v _, _, ho => by
    simp only [Lower.expr]
    exact bounded_put_const (fun k => [k]) ho rfl fun _ => rfl
  | .unary line op _ x, hx, ho => by
    simp only [Lower.expr]
    refine Lower.bounded_bind (bounded_expr hs x hx ho) fun _ l₁ h1 => ?_
    exact Lower.bounded_put (ho.emits (emits_expr x h1)).unresolved (by cases op <;> exact ready_free rfl rfl)
  | .binary line op _ x y, ⟨hx, hy⟩, ho => by
    simp only [Lower.expr]
    refine Lower.bounded_bind (bounded_expr hs x hx ho) fun _ l₁ h1 => ?_
    have ho₁ := ho.emits (emits_expr x h1)
    have both : ∀ {op : Opcode}, op.guarded = [] → op.widths = [] →
        Bounded ((Lower.expr s y >>= fun _ => Lower.put s op line []) c) l₁ := by
      intro op hg hw
      refine Lower.bounded_bind (bounded_expr hs y hy ho₁) fun _ l₂ h2 => ?_
      exact Lower.bounded_put (ho₁.emits (emits_expr y h2)).unresolved (ready_free hg (by rw [hw]; rfl))
    have skip : ∀ {op : Opcode}, op.guarded = [] → op.widths = [2] → op.pool = none →
        Bounded ((do
          let j ← Lower.emit s op line [0]
          Lower.expr s y
          Lower.offset s j (← Lower.mark s line) 0 : Lower PUnit) c) l₁ := by
      intro op hg hw hp
      refine Lower.bounded_bind (Lower.bounded_emit ho₁.unresolved (ready_free hg (by rw [hw]; rfl))) fun j l₂ h2 => ?_
      obtain ⟨rfl, he⟩ := emits_emit h2 hp
      refine Lower.bounded_bind (bounded_expr hs y hy (ho₁.emits he)) fun _ l₃ h3 => ?_
      exact bounded_skip ho₁ (he.trans (emits_expr y h3)) rfl (by rw [hw]; exact Nat.one_pos)
    cases op
    case and => exact skip rfl rfl rfl
    case or => exact skip rfl rfl rfl
    all_goals exact both rfl rfl
  | .chain ⟨_, _, _, links⟩, hx, ho => by
    simp only [Lower.expr]
    exact bounded_exprs hs links hx ho
  | .call x, hx, ho => by
    simp only [Lower.expr]
    exact bounded_call hs x hx ho
  | .cast line kind t x, ⟨ht, hx⟩, ho => by
    simp only [Lower.expr]
    refine Lower.bounded_bind (bounded_expr hs x hx ho) fun _ l₁ h1 => ?_
    refine bounded_put_type (fun k => [k]) (ho.emits (emits_expr x h1)) ht fun k => ?_
    cases kind <;> exact ready_free rfl rfl
  | .new line t inits, ⟨ht, hi⟩, ho => by
    simp only [Lower.expr]
    refine Lower.bounded_bind (Lower.bounded_typeConstant ht) fun k l₁ h1 => ?_
    obtain ⟨m, _, rfl, -, hu⟩ := used_typeConstant h1
    refine Lower.bounded_bind (Lower.bounded_put (hu.open ho).unresolved (ready_free rfl rfl)) fun _ l₂ h2 => ?_
    exact bounded_calls hs inits hi (ho.emits (emits_put_const hu h2 rfl (show [(m : Int)] = List.set [0] 0 (m : Int) from rfl)))
  | .collection line t items, hi, ho => by
    simp only [Lower.expr]
    refine Lower.bounded_bind (Lower.bounded_typeConstant rfl) fun k l₁ h1 => ?_
    obtain ⟨m, _, rfl, -, hu⟩ := used_typeConstant h1
    refine Lower.bounded_bind (Lower.bounded_put (hu.open ho).unresolved (ready_free rfl rfl)) fun _ l₂ h2 => ?_
    exact bounded_appends hs items hi (ho.emits (emits_put_const hu h2 rfl (show [(m : Int)] = List.set [0] 0 (m : Int) from rfl)))
  | .lambda fn, hx, ho => by
    simp only [Lower.expr]
    exact bounded_lambda hs fn hx ho

theorem bounded_exprs {slots : Nat} {s : Section} {l : Lowering} (hs : slots ≤ Typed.maxFrame) : (xs : List Expr) →
    Typed.trustedExprs c.1.OfInterface slots xs → l.Open s false → Bounded (Lower.exprs s xs c) l
  | [], _, _ => Lower.bounded_pure
  | x :: xs, ⟨hx, hxs⟩, ho => by
    simp only [Lower.exprs]
    refine Lower.bounded_bind (bounded_expr hs x hx ho) fun _ l₁ h1 => ?_
    exact bounded_exprs hs xs hxs (ho.emits (emits_expr x h1))

theorem bounded_call {slots : Nat} {s : Section} {l : Lowering} (hs : slots ≤ Typed.maxFrame) : (x : Call) →
    x.Trusted c.1.OfInterface slots → l.Open s false → Bounded (Lower.call s x c) l
  | ⟨line, a, _, _, args, _, children⟩, ⟨ha, hc⟩, ho => by
    simp only [Lower.call]
    exact bounded_access (fun ho => bounded_exprs hs children hc ho) (emits_exprs children) ho hs ha

theorem bounded_calls {slots : Nat} {s : Section} {l : Lowering} (hs : slots ≤ Typed.maxFrame) : (xs : List Call) →
    Typed.trustedCalls c.1.OfInterface slots xs → l.Open s false → Bounded (Lower.calls s xs c) l
  | [], _, _ => Lower.bounded_pure
  | x :: xs, ⟨hx, hxs⟩, ho => by
    simp only [Lower.calls]
    refine Lower.bounded_bind (bounded_call hs x hx ho) fun _ l₁ h1 => ?_
    exact bounded_calls hs xs hxs (ho.emits (emits_call x h1))

theorem bounded_appends {slots : Nat} {s : Section} {l : Lowering} (hs : slots ≤ Typed.maxFrame) :
    (xs : List Append) → Typed.trustedAppends c.1.OfInterface slots xs → l.Open s false →
    Bounded (Lower.appends s xs c) l
  | [], _, _ => Lower.bounded_pure
  | .element line x :: rest, ⟨hx, hrest⟩, ho => by
    simp only [Lower.appends]
    refine Lower.bounded_bind (bounded_expr hs x hx ho) fun _ l₁ h1 => ?_
    have ho₁ := ho.emits (emits_expr x h1)
    refine Lower.bounded_bind (Lower.bounded_put ho₁.unresolved (ready_free rfl rfl)) fun _ l₂ h2 => ?_
    exact bounded_appends hs rest hrest (ho₁.emits (emits_put h2 rfl))
  | .entry line k v :: rest, ⟨hk, hv, hrest⟩, ho => by
    simp only [Lower.appends]
    refine Lower.bounded_bind (bounded_expr hs k hk ho) fun _ l₁ h1 => ?_
    have ho₁ := ho.emits (emits_expr k h1)
    refine Lower.bounded_bind (bounded_expr hs v hv ho₁) fun _ l₂ h2 => ?_
    have ho₂ := ho₁.emits (emits_expr v h2)
    refine Lower.bounded_bind (Lower.bounded_put ho₂.unresolved (ready_free rfl rfl)) fun _ l₃ h3 => ?_
    exact bounded_appends hs rest hrest (ho₂.emits (emits_put h3 rfl))

theorem bounded_lambda {slots : Nat} {s : Section} {l : Lowering} (hs : slots ≤ Typed.maxFrame) : (x : Lambda) →
    x.Trusted c.1.OfInterface slots → l.Open s false → Bounded (Lower.lambda s x c) l
  | ⟨line, _, upvals, ⟨inner, ps, bodyLine, body⟩⟩, ⟨hu, hmax, hlen, hps, hbody⟩, ho => by
    simp only [Lower.lambda]
    refine Lower.bounded_bind (Lower.bounded_emit ho.unresolved (ready_free rfl rfl)) fun head l₁ h1 => ?_
    obtain ⟨rfl, he1⟩ := emits_emit h1 rfl
    have ho₁ := ho.emits he1
    refine Lower.bounded_bind (Lower.bounded_put ho₁.unresolved (ready_byte rfl rfl rfl (fits_number hmax)))
      fun _ l₂ h2 => ?_
    have he2 := emits_put h2 rfl
    have ho₂ := ho₁.emits he2
    have hfirst := firstDefault_le ps
    refine Lower.bounded_bind (bounded_params hmax ps hps (by omega) (by omega) ho₂) fun _ l₃ h3 => ?_
    have he3 := emits_params ps h3
    have ho₃ := ho₂.emits he3
    refine Lower.bounded_bind (bounded_closed ?_ (emits_stmts body) ho₃) fun _ l₄ h4 => ?_
    · exact bounded_stmts hmax body hbody (show Lowering.Open _ false _ from ⟨ho₃.unresolved, nofun⟩)
    have hbefore := (he2.trans he3).toPuts
    rw [List.singleton_append, ← List.append_nil (paramsCode _ _ _ _)] at hbefore
    have he4 := (emits_closed (fun h => emits_stmts body h) (not_return_before ps (by simp) hbefore) h4).1
    exact bounded_skip_bind ho (he1.trans (he2.trans (he3.trans he4))) rfl Nat.one_pos
      fun ho => bounded_upvals hu hs hmax ho

theorem bounded_params {slots first i : Nat} {s : Section} {l : Lowering} (hs : slots ≤ Typed.maxFrame) :
    (ps : List VarDecl) → Typed.trustedParams c.1.OfInterface slots ps → i + ps.length ≤ slots → first ≤ slots →
    l.Open s false → Bounded (Lower.params s first i ps c) l
  | [], _, _, _, _ => Lower.bounded_pure
  | ⟨line, v, none⟩ :: rest, ⟨hv, hrest⟩, hi, hf, ho => by
    simp only [Lower.params]
    simp only [List.length_cons] at hi
    refine Lower.bounded_bind (bounded_params hs rest hrest (by omega) hf ho) fun _ l₁ h1 => ?_
    have ho₁ := ho.emits (emits_params rest h1)
    exact Lower.bounded_put ho₁.unresolved (by cases v.ref <;> exact ready_slot hv hs rfl rfl rfl)
  | ⟨line, v, some x⟩ :: rest, ⟨hv, hx, hrest⟩, hi, hf, ho => by
    simp only [Lower.params]
    simp only [List.length_cons] at hi
    have hmax : Typed.maxFrame = 127 := rfl
    refine Lower.bounded_bind (bounded_params hs rest hrest (by omega) hf ho) fun _ l₁ h1 => ?_
    have ho₁ := ho.emits (emits_params rest h1)
    refine Lower.bounded_bind (Lower.bounded_emit ho₁.unresolved (ready_byte rfl rfl rfl (by omega))) fun d l₂ h2 => ?_
    obtain ⟨rfl, he⟩ := emits_emit h2 rfl
    refine Lower.bounded_bind (bounded_expr hs x hx (ho₁.emits he)) fun _ l₃ h3 => ?_
    refine bounded_skip_bind ho₁ (he.trans (emits_expr x h3)) rfl Nat.one_lt_two fun ho => ?_
    exact Lower.bounded_put ho.unresolved (by cases v.ref <;> exact ready_slot hv hs rfl rfl rfl)

theorem bounded_stmt {slots : Nat} {s : Section} {under loop : Bool} {l : Lowering} (hs : slots ≤ Typed.maxFrame) :
    (x : Stmt) → x.Trusted c.1.OfInterface slots loop → l.Open s loop → Bounded (Lower.stmt s under x c) l
  | .expr x, hx, ho => by
    simp only [Lower.stmt]
    exact bounded_expr hs x hx ho.outside
  | .discard line n x, hx, ho => by
    simp only [Lower.stmt]
    refine Lower.bounded_bind (bounded_expr hs x hx ho.outside) fun _ l₁ h1 => ?_
    exact bounded_pops (ho.outside.emits (emits_expr x h1))
  | .var ⟨line, v, none⟩, ⟨hv, ht⟩, ho => by
    simp only [Lower.stmt]
    exact bounded_put_type (fun k => [v.slot, k]) ho.outside ht fun k => ready_slot hv hs rfl rfl rfl
  | .var ⟨line, v, some x⟩, ⟨hv, hx⟩, ho => by
    simp only [Lower.stmt]
    refine Lower.bounded_bind (bounded_expr hs x hx ho.outside) fun _ l₁ h1 => ?_
    exact Lower.bounded_put (ho.emits (emits_expr x h1)).unresolved (ready_slot hv hs rfl rfl rfl)
  | .ret line n values, hx, ho => by
    simp only [Lower.stmt]
    refine Lower.bounded_bind (bounded_exprs hs values hx ho.outside) fun _ l₁ h1 => ?_
    have ho₁ := ho.emits (emits_exprs values h1)
    split
    · exact Lower.bounded_put ho₁.unresolved (ready_free rfl rfl)
    · exact Lower.bounded_put ho₁.unresolved (ready_free rfl rfl)
  | .brk line, hx, ho => by
    simp only [Lower.stmt]
    obtain rfl : loop = true := hx
    exact bounded_wait ho rfl rfl
  | .cont line, hx, ho => by
    simp only [Lower.stmt]
    obtain rfl : loop = true := hx
    exact bounded_wait ho rfl rfl
  | .yield line, _, ho => by
    simp only [Lower.stmt]
    exact Lower.bounded_put ho.unresolved (ready_free rfl rfl)
  | .block b, hb, ho => by
    simp only [Lower.stmt]
    exact bounded_block hs b hb ho

theorem bounded_stmts {slots : Nat} {s : Section} {under loop : Bool} {l : Lowering} (hs : slots ≤ Typed.maxFrame) :
    (xs : List Stmt) → Typed.trustedStmts c.1.OfInterface slots loop xs → l.Open s loop →
    Bounded (Lower.stmts s under xs c) l
  | [], _, _ => Lower.bounded_pure
  | x :: xs, ⟨hx, hxs⟩, ho => by
    simp only [Lower.stmts]
    refine Lower.bounded_bind (bounded_stmt hs x hx ho) fun _ l₁ h1 => ?_
    exact bounded_stmts hs xs hxs (ho.emits (emits_stmt x h1))

theorem bounded_branches {slots : Nat} {s : Section} {loop : Bool} {l : Lowering} (hs : slots ≤ Typed.maxFrame) :
    (xs : List Stmt) → Typed.trustedStmts c.1.OfInterface slots loop xs → l.Open s loop →
    Bounded (Lower.branches s xs c) l
  | [], _, _ => Lower.bounded_pure
  | x :: xs, ⟨hx, hxs⟩, ho => by
    simp only [Lower.branches]
    by_cases hk : isSeqOrDefer x = true
    · simp only [hk, if_true]
      refine Lower.bounded_bind (bounded_stmt hs x hx ho) fun _ l₁ h1 => ?_
      exact bounded_branches hs xs hxs (ho.emits (emits_stmt x h1))
    · simp only [hk, if_false, Bool.false_eq_true]
      refine Lower.bounded_bind (Lower.bounded_emit ho.unresolved (ready_free rfl rfl)) fun head l₁ h1 => ?_
      obtain ⟨rfl, he⟩ := emits_emit h1 rfl
      refine Lower.bounded_bind (bounded_stmt hs x hx (ho.emits he)) fun _ l₂ h2 => ?_
      exact bounded_skip_bind ho (he.trans (emits_stmt x h2)) rfl Nat.one_lt_two fun ho =>
        bounded_branches hs xs hxs ho

theorem bounded_block {slots : Nat} {s : Section} {under loop : Bool} {l : Lowering} (hs : slots ≤ Typed.maxFrame) :
    (b : Block) → b.Trusted c.1.OfInterface slots loop → l.Open s loop → Bounded (Lower.block s under b c) l
  | .group line kind ss, hss, ho => by
    simp only [Lower.block]
    refine Lower.bounded_bind (Lower.bounded_emit ho.unresolved (ready_free rfl rfl)) fun head l₁ h1 => ?_
    obtain ⟨rfl, he⟩ := emits_emit h1 rfl
    have ho₁ := ho.emits he
    have finish : ∀ {body : List Piece} {l₂ : Lowering},
        Emits s l l₂ (.plain .block line [Lower.kindNumber kind, 0] :: body) →
        Bounded ((do
          let stop ← Lower.mark s line
          if keepsHeader under kind ss then Lower.offset s l.next stop 1
          else Lower.assemble (Assemble.replace l.next .mark []) : Lower PUnit) c) l₂ := by
      intro body l₂ hbody
      by_cases hk : keepsHeader under kind ss = true
      · simp only [hk, if_true]
        exact bounded_skip ho hbody rfl Nat.one_lt_two
      · simp only [hk, if_false, Bool.false_eq_true]
        refine Lower.bounded_bind (Lower.bounded_mark (ho.emits hbody).unresolved) fun _ l₃ _ => ?_
        exact Lower.bounded_assemble Assemble.bounded_replace_mark
    by_cases hp : kind.isParallel = true
    · simp only [hp, if_true]
      refine Lower.bounded_bind (bounded_branches hs ss hss ho₁) fun _ l₂ h2 => ?_
      exact finish (he.trans (emits_branches ss h2))
    · simp only [hp, if_false, Bool.false_eq_true]
      refine Lower.bounded_bind (bounded_stmts hs ss hss ho₁) fun _ l₂ h2 => ?_
      exact finish (he.trans (emits_stmts ss h2))
  | .cond line as none, has, ho => by
    simp only [Lower.block]
    refine Lower.bounded_bind (bounded_arms hs as has ho) fun exits l₁ h1 => ?_
    obtain ⟨ha, hex⟩ := emits_arms as h1
    have hopen : Emits s l l₁ (armsOpen c under line false as ++ []) := by simpa using ha
    exact bounded_meet as hopen (ho.emits ha) hex
  | .cond line as (some b), ⟨has, hb⟩, ho => by
    simp only [Lower.block]
    refine Lower.bounded_bind (bounded_arms hs as has ho) fun exits l₁ h1 => ?_
    obtain ⟨ha, hex⟩ := emits_arms as h1
    refine Lower.bounded_bind (bounded_block hs b hb (ho.emits ha)) fun _ l₂ h2 => ?_
    have hall := ha.trans (emits_block b h2)
    exact bounded_meet as hall (ho.emits hall) hex
  | .whileLoop line test body none, ⟨ht, hb⟩, ho => by
    simp only [Lower.block]
    refine Lower.bounded_bind (Lower.bounded_mark ho.unresolved) fun top l₁ h1 => ?_
    obtain ⟨rfl, he1⟩ := emits_mark h1
    have ho₁ := ho.emits he1
    refine Lower.bounded_bind (bounded_expr hs test ht ho₁.outside) fun _ l₂ h2 => ?_
    have he2 := emits_expr test h2
    have ho₂ := ho₁.emits he2
    refine Lower.bounded_bind (Lower.bounded_emit ho₂.unresolved (ready_free rfl rfl)) fun jz l₃ h3 => ?_
    obtain ⟨rfl, he3⟩ := emits_emit h3 rfl
    have ho₃ := ho₂.emits he3
    have hin : Lowering.Open s true { l₃ with loops := ⟨[], []⟩ :: l₃.loops } :=
      ⟨ho₃.unresolved, fun _ => List.cons_ne_nil _ _⟩
    refine Lower.bounded_bind (Lower.bounded_modify_bind.mpr (bounded_block hs body hb hin)) fun _ l₄ h4 => ?_
    have he4 := emits_block body (Lower.runs_modify_bind.mp h4)
    have ho₄ := hin.emits he4
    refine Lower.bounded_bind (Lower.bounded_mark ho₄.unresolved) fun next l₅ h5 => ?_
    obtain ⟨rfl, he5⟩ := emits_mark h5
    exact bounded_while (he1.trans he2) he3 (he4.trans he5)
      ((directed_block body).append (.one (aimed_plain rfl))).awaits rfl rfl he4.size (ho₄.emits he5)
  | .whileLoop line test body (some post), ⟨ht, hb, hp⟩, ho => by
    simp only [Lower.block]
    refine Lower.bounded_bind (Lower.bounded_mark ho.unresolved) fun top l₁ h1 => ?_
    obtain ⟨rfl, he1⟩ := emits_mark h1
    have ho₁ := ho.emits he1
    refine Lower.bounded_bind (bounded_expr hs test ht ho₁.outside) fun _ l₂ h2 => ?_
    have he2 := emits_expr test h2
    have ho₂ := ho₁.emits he2
    refine Lower.bounded_bind (Lower.bounded_emit ho₂.unresolved (ready_free rfl rfl)) fun jz l₃ h3 => ?_
    obtain ⟨rfl, he3⟩ := emits_emit h3 rfl
    have ho₃ := ho₂.emits he3
    have hin : Lowering.Open s true { l₃ with loops := ⟨[], []⟩ :: l₃.loops } :=
      ⟨ho₃.unresolved, fun _ => List.cons_ne_nil _ _⟩
    refine Lower.bounded_bind (Lower.bounded_modify_bind.mpr (bounded_block hs body hb hin)) fun _ l₄ h4 => ?_
    have he4 := emits_block body (Lower.runs_modify_bind.mp h4)
    have ho₄ := hin.emits he4
    refine Lower.bounded_bind (Lower.bounded_mark ho₄.unresolved) fun next l₅ h5 => ?_
    obtain ⟨rfl, he5⟩ := emits_mark h5
    have ho₅ := ho₄.emits he5
    refine Lower.bounded_bind (bounded_block hs post hp ho₅) fun _ l₆ h6 => ?_
    have he6 := emits_block post h6
    exact bounded_while (he1.trans he2) he3 (he4.trans (he5.trans he6))
      ((directed_block body).append (.cons (aimed_plain rfl) (directed_block post))).awaits rfl rfl he4.size
      (ho₅.emits he6)
  | .doLoop line body test, ⟨hb, ht⟩, ho => by
    simp only [Lower.block]
    refine Lower.bounded_bind (Lower.bounded_mark ho.unresolved) fun top l₁ h1 => ?_
    obtain ⟨rfl, he1⟩ := emits_mark h1
    have ho₁ := ho.emits he1
    have hin : Lowering.Open s true { l₁ with loops := ⟨[], []⟩ :: l₁.loops } :=
      ⟨ho₁.unresolved, fun _ => List.cons_ne_nil _ _⟩
    refine Lower.bounded_bind (Lower.bounded_modify_bind.mpr (bounded_block hs body hb hin)) fun _ l₂ h2 => ?_
    have he2 := emits_block body (Lower.runs_modify_bind.mp h2)
    have ho₂ := hin.emits he2
    refine Lower.bounded_bind (Lower.bounded_mark ho₂.unresolved) fun next l₃ h3 => ?_
    obtain ⟨rfl, he3⟩ := emits_mark h3
    have ho₃ := ho₂.emits he3
    refine Lower.bounded_bind (bounded_expr hs test ht ho₃.outside) fun _ l₄ h4 => ?_
    have he4 := emits_expr test h4
    exact bounded_do he1 (he2.trans (he3.trans he4))
      ((directed_block body).append (.cons (aimed_plain rfl) (directed_expr test))).awaits rfl he2.size (ho₃.emits he4)

theorem bounded_arms {slots : Nat} {s : Section} {under loop : Bool} {line : Nat} {more : Bool} {l : Lowering}
    (hs : slots ≤ Typed.maxFrame) : (as : List Arm) → Typed.trustedArms c.1.OfInterface slots loop as →
    l.Open s loop → Bounded (Lower.arms s under line more as c) l
  | [], _, _ => Lower.bounded_pure
  | ⟨test, body⟩ :: rest, ⟨ht, hb, hrest⟩, ho => by
    simp only [Lower.arms]
    refine Lower.bounded_bind (bounded_expr hs test ht ho.outside) fun _ l₁ h1 => ?_
    have ho₁ := ho.emits (emits_expr test h1)
    refine Lower.bounded_bind (Lower.bounded_emit ho₁.unresolved (ready_free rfl rfl)) fun jz l₂ h2 => ?_
    obtain ⟨rfl, he2⟩ := emits_emit h2 rfl
    have ho₂ := ho₁.emits he2
    refine Lower.bounded_bind (bounded_block hs body hb ho₂) fun _ l₃ h3 => ?_
    have hfront := he2.trans (emits_block body h3)
    have ho₃ := ho₁.emits hfront
    have tail : ∀ (leave : List Piece) {first : List Nat} {l₄ : Lowering},
        Emits s l₁ l₄ (Piece.plain .jumpZ test.line [0] :: (blockCode c under body ++ leave)) →
        Bounded ((do
          let exits ← pure first
          Lower.offset s l₁.next (← Lower.mark s line) 0
          return exits ++ (← Lower.arms s under line more rest) : Lower (List Nat)) c) l₄ := by
      intro leave first l₄ hleave
      simp only [pure_bind]
      refine bounded_skip_bind ho₁ hleave rfl Nat.one_pos fun ho => ?_
      exact Lower.bounded_bind (bounded_arms hs rest hrest ho) fun _ _ _ => Lower.bounded_pure
    by_cases hl : (more || !rest.isEmpty) = true
    · simp only [hl, if_true]
      refine Lower.bounded_bind (Lower.bounded_emit ho₃.unresolved (ready_free rfl rfl)) fun j l₄ h4 => ?_
      obtain ⟨rfl, he4⟩ := emits_emit h4 rfl
      exact tail _ (by simpa using hfront.trans he4)
    · simp only [hl, if_false, Bool.false_eq_true]
      exact tail [] (by simpa using hfront)

end

/-! ### Declarations -/

/-- A function with a body that can be trusted. -/
theorem bounded_func {d : Typed.FuncDecl} (hd : ∃ f, d.frame = some f ∧ f.Trusted c.1.OfInterface)
    (ho : l.Open .code false) : Bounded (Lower.func d c) l := by
  obtain ⟨⟨slots, ps, bodyLine, body⟩, hf, hmax, hlen, hps, hbody⟩ := hd
  unfold Lower.func
  rw [Lower.bounded_store_bind]
  simp only [hf]
  refine Lower.bounded_bind (Lower.bounded_emit ho.unresolved (ready_byte rfl rfl rfl (fits_number hmax)))
    fun entry l₁ h1 => ?_
  obtain ⟨rfl, he1⟩ := emits_emit h1 rfl
  rw [Lower.bounded_modify_bind]
  have ho₁ : Lowering.Open .code false { l₁ with entries := l₁.entries ++ [(d.symbol, l.next)] } :=
    ⟨(ho.emits he1).unresolved, nofun⟩
  have hfirst := firstDefault_le ps
  refine Lower.bounded_bind (bounded_params hmax ps hps (by omega) (by omega) ho₁) fun _ l₂ h2 => ?_
  have ho₂ := ho₁.emits (emits_params ps h2)
  have hclosed : ∀ {l : Lowering}, l.Open .code false →
      Bounded (Lower.closed .code (Lower.lastLine ⟨slots, ps, bodyLine, body⟩) (Lower.stmts .code false body) c) l := by
    intro l ho
    exact bounded_closed (bounded_stmts hmax body hbody (show Lowering.Open _ false _ from ⟨ho.unresolved, nofun⟩))
      (emits_stmts body) ho
  split
  · refine Lower.bounded_bind (Lower.bounded_put ho₂.unresolved (ready_byte rfl rfl rfl (by decide))) fun _ l₃ h3 => ?_
    exact hclosed (ho₂.emits (emits_put h3 rfl))
  · exact hclosed ho₂

theorem Progress.isOpen {fs : List Typed.FuncDecl} {ds : List Typed.Decl} (h : Progress c l fs ds) (s : Section) :
    l.Open s false := ⟨h.laid.unresolved s, nofun⟩

theorem bounded_decl {d : Typed.Decl} {fs : List Typed.FuncDecl} {ds : List Typed.Decl}
    (hd : d.Trusted c.1.OfInterface) (h : Progress c l fs ds) : Bounded (Lower.decl d c) l := by
  match d, hd with
  | .importing line name, _ =>
    simp only [Lower.decl]
    exact bounded_put_const (fun k => [k]) (h.isOpen .init) rfl fun _ => rfl
  | .func d, hd =>
    simp only [Lower.decl]
    exact bounded_func hd (h.isOpen .code)
  | .cls line k methods, hd =>
    simp only [Lower.decl, Lower.forM_apply]
    refine bounded_forM (fun l => ∃ fs, Progress c l fs ds) ?_ ?_ ⟨fs, h⟩
    · rintro d hmem l ⟨fs, h⟩
      exact bounded_func (hd d hmem) (h.isOpen .code)
    · rintro d - l _ l' ⟨fs, h⟩ hr
      exact ⟨_, h.func hr⟩
  | .global line g none, _ => exact Lower.bounded_pure
  | .global line g (some x), hx =>
    simp only [Lower.decl]
    refine Lower.bounded_bind (bounded_expr (Nat.le_refl _) x hx (h.isOpen .init)) fun _ l₁ h1 => ?_
    rw [Lower.bounded_store_bind]
    exact Lower.bounded_put ((h.isOpen .init).emits (emits_expr x h1)).unresolved (ready_free rfl rfl)

/-- The declarations of a program that can be trusted are put into the streams. -/
theorem bounded_program {p : Typed.Program} (hp : p.Trusted c.1.OfInterface) : Bounded (Lower.program p c) .start := by
  unfold Lower.program
  have hstart : ∃ fs ds, Progress c .start fs ds := ⟨[], [], progress_start⟩
  refine Lower.bounded_bind ?_ fun _ l h => ?_
  · rw [Lower.forM_apply]
    refine bounded_forM (fun l => ∃ fs ds, Progress c l fs ds) ?_ ?_ hstart
    · rintro d hmem l ⟨fs, ds, h⟩
      exact bounded_decl (hp d hmem) h
    · rintro d - l _ l' ⟨fs, ds, h⟩ hr
      exact ⟨_, _, h.decl hr⟩
  · rw [Lower.forM_apply] at h
    exact Lower.bounded_put ((progress_start.decls h).isOpen .init).unresolved (ready_free rfl rfl)

end Trees

end Weft.Bytecode
