import Weft.Proofs.Bytecode.Layout

/-!
# The finished module

Calls within the module are made direct, constants move to their final positions, and the instructions get
theirs. What is left of the code of a program is a list of instructions for each section: `Final` says how
it comes from the pieces.
-/

namespace Weft.Bytecode

/-! ### Changing one instruction -/

/-- Only the instruction with a number changes, and it does so as a relation says. -/
structure Alters (n : Nat) (f : Instruction → Instruction → Prop) (a b : Assembly) : Prop where
  others : ∀ m, m ≠ n → b.instrs[m]? = a.instrs[m]?
  this : ∀ x, a.instrs[n]? = some x → ∃ y, b.instrs[n]? = some y ∧ f x y
  size : b.instrs.size = a.instrs.size

namespace Alters

variable {n : Nat} {f g : Instruction → Instruction → Prop} {a b b' : Assembly}

theorem trans (h : Alters n f a b) (h' : Alters n g b b') :
    Alters n (fun x z => ∃ y, f x y ∧ g y z) a b' where
  others := fun m hm => by rw [h'.others m hm, h.others m hm]
  this := by
    intro x hx
    obtain ⟨y, hy, hxy⟩ := h.this x hx
    obtain ⟨z, hz, hyz⟩ := h'.this y hy
    exact ⟨z, hz, y, hxy, hyz⟩
  size := h'.size.trans h.size

theorem mono (h : Alters n f a b) (hfg : ∀ x y, f x y → g x y) : Alters n g a b where
  others := h.others
  this := by
    intro x hx
    obtain ⟨y, hy, hxy⟩ := h.this x hx
    exact ⟨y, hy, hfg x y hxy⟩
  size := h.size

theorem ofModify {h : Instruction → Instruction} (hb : b.instrs = a.instrs.modify n h) :
    Alters n (fun x y => y = h x) a b where
  others := by
    intro m hm
    have hne : ¬n = m := fun h => hm h.symm
    rw [hb, Array.getElem?_modify, if_neg hne]
  this := by
    intro x hx
    exact ⟨h x, by rw [hb, Array.getElem?_modify, if_pos rfl, hx]; rfl, rfl⟩
  size := by simp [hb]

end Alters

section Steps

variable {n : Nat} {a b : Assembly} {u : PUnit}

theorem alters_setOperand {i : Nat} {v : Int} (h : Runs (Assemble.setOperand n i v) a u b) :
    (∀ s, b.stream s = a.stream s) ∧ Alters n (fun x y => x.setOperand i v = .ok y) a b := by
  obtain ⟨y, hy, rfl⟩ := Assemble.runs_setOperand h
  refine ⟨by simp, ?_, ?_, by simp⟩
  · intro m hm
    rw [Array.getElem?_setIfInBounds_ne (fun h => hm h.symm)]
  · intro x hx
    have hlt : n < a.instrs.size := (Array.getElem?_eq_some_iff.mp hx).1
    refine ⟨y, by simp [hlt], ?_⟩
    rw [← hy, Assembly.instr, hx]
    rfl

theorem alters_replace_mark (h : Runs (Assemble.replace n .mark []) a u b) :
    (∀ s, b.stream s = a.stream s) ∧
      Alters n (fun x y => y = { x with op := .mark, operands := [] }) a b := by
  have := Assemble.runs_replace_mark h
  exact ⟨by simp [this], .ofModify (by rw [this])⟩

/-- What a call becomes when it is made direct. -/
theorem alters_replace_call {bits : Int} (h : Runs (Assemble.replace n .call [0, bits]) a u b) :
    (∀ s, b.stream s = a.stream s) ∧
      Alters n (fun x y => y.op = .call ∧ y.line = x.line ∧ y.operands[1]? = some bits ∧ y.Sound) a b := by
  unfold Assemble.replace at h
  rw [if_neg (by simp [Opcode.widths, Opcode.info])] at h
  simp only [runs_modify_bind, List.zipIdx_cons, List.zipIdx_nil] at h
  obtain ⟨a₁, h1, h⟩ := runs_forM_cons.mp h
  obtain ⟨a₂, h2, h⟩ := runs_forM_cons.mp h
  rw [runs_forM_nil.mp h]
  obtain ⟨hs1, ha1⟩ := alters_setOperand h1
  obtain ⟨hs2, ha2⟩ := alters_setOperand h2
  refine ⟨by simp [hs1, hs2], ?_⟩
  refine (((Alters.ofModify (a := a)
    (h := fun x => { x with op := .call, operands := Opcode.call.widths.map fun _ => 0 }) rfl).trans ha1).trans ha2).mono ?_
  rintro x z ⟨y, ⟨w, rfl, hw⟩, hz⟩
  have hsound := Assemble.sound_setOperand (Assemble.sound_setOperand (Assemble.sound_blank .call x.line x.pos) hw) hz
  obtain ⟨_, _, _, rfl⟩ := Assemble.setOperand_ok hw
  obtain ⟨_, _, _, rfl⟩ := Assemble.setOperand_ok hz
  exact ⟨rfl, rfl, by simp [Opcode.widths, Opcode.info], hsound⟩

end Steps

/-! ### Instructions and their pieces -/

/-- Every piece of a section stands for an instruction of the stream that a relation ties to it. -/
def Views (R : Instruction → Piece → Prop) (code : Section → List Piece) (a : Assembly) : Prop :=
  ∀ s (i : Nat) q, (code s)[i]? = some q →
    ∃ n x, (a.stream s).order.toList[i]? = some n ∧ a.instrs[n]? = some x ∧ R x q

/-- The streams hold every instruction once. -/
def Distinct (a : Assembly) : Prop :=
  ∀ s t (i j n : Nat), (a.stream s).order.toList[i]? = some n → (a.stream t).order.toList[j]? = some n →
    s = t ∧ i = j

/-- Two assemblies with the same instructions in the same order. -/
def SameOrder (a b : Assembly) : Prop := ∀ s, (b.stream s).order = (a.stream s).order

theorem Distinct.same {a b : Assembly} (h : Distinct a) (hs : SameOrder a b) : Distinct b := by
  intro s t i j n hi hj
  rw [hs] at hi hj
  exact h s t i j n hi hj

/-- One instruction changes, together with what is known of it. -/
theorem Views.alter {R R' : Instruction → Piece → Prop} {code : Section → List Piece} {a b : Assembly}
    {s : Section} {i n : Nat} {q : Piece} {f : Instruction → Instruction → Prop} (h : Views R code a)
    (hd : Distinct a) (ho : SameOrder a b) (hn : (a.stream s).order.toList[i]? = some n)
    (hq : (code s)[i]? = some q) (hf : Alters n f a b) (hother : ∀ x r, R x r → R' x r)
    (hthis : ∀ x y, R x q → f x y → R' y q) : Views R' code b := by
  intro t j r hr
  obtain ⟨m, x, hm, hx, hR⟩ := h t j r hr
  by_cases hmn : m = n
  · subst hmn
    obtain ⟨rfl, rfl⟩ := hd _ _ _ _ _ hn hm
    obtain rfl : q = r := by
      rw [hq] at hr
      exact Option.some.inj hr
    obtain ⟨y, hy, hxy⟩ := hf.this x hx
    exact ⟨m, y, by rw [ho]; exact hm, hy, hthis x y hR hxy⟩
  · exact ⟨m, x, by rw [ho]; exact hm, by rw [hf.others m hmn, hx], hother x r hR⟩

/-- Whether an instruction belongs to the call of one of some functions. -/
def Piece.Calls (direct : FuncId → Prop) (q : Piece) : Prop := ∃ f, q.callee = some f ∧ direct f

/-- An instruction after the calls of some functions are made direct: it still is its piece, or it pushed
such a function or called it. -/
inductive Linked (direct : FuncId → Prop) (constants : List Constant) (x : Instruction) (q : Piece) :
    Prop where
  | same (h : Matches constants x q)
  | got (hq : q.op = .getFunc) (hx : x.op = .mark) (line : x.line = q.line) (sound : x.Sound)
      (calls : q.Calls direct)
  | called (hq : q.op = .callPtr) (hx : x.op = .call) (line : x.line = q.line) (sound : x.Sound)
      (calls : q.Calls direct) (args : x.operands[1]? = q.operands.getLast?)

namespace Linked

variable {direct : FuncId → Prop} {cs : List Constant} {x : Instruction} {q : Piece}

theorem sound (h : Linked direct cs x q) : x.Sound := by
  cases h with
  | same h => exact h.sound
  | got _ _ _ h => exact h
  | called _ _ _ h => exact h

theorem line (h : Linked direct cs x q) : x.line = q.line := by
  cases h with
  | same h => exact h.line
  | got _ _ h _ => exact h
  | called _ _ h _ => exact h

/-- A call that is not direct yet has the operands of its piece. -/
theorem operands_callPtr (h : Linked direct cs x q) (hq : q.op = .callPtr) (hx : x.op = .callPtr) :
    x.operands = q.operands := by
  cases h with
  | same h =>
    cases hc : q.const with
    | none => exact (h.bare hc).2
    | some v =>
      obtain ⟨p, i, hp, -⟩ := h.const v hc
      simp [hq, Opcode.pool, Opcode.info] at hp
  | got hq' => simp [hq] at hq'
  | called _ hx' => simp [hx] at hx'

end Linked

/-- The functions whose calls are made direct: those that have an entry. -/
def Lowering.direct? (l : Lowering) (f : FuncId) : Prop := (l.startOf? f).isSome

/-- What is known while calls are made direct. -/
structure Linking (l : Lowering) (code : Section → List Piece) (constants : List Constant)
    (a : Assembly) : Prop where
  views : Views (Linked l.direct? constants) code a
  distinct : Distinct a
  patches : ∀ s, ∀ p ∈ (a.stream s).patches, p.operand = 0 ∧
    (∃ (i : Nat) (q : Piece), (code s)[i]? = some q ∧ q.op = .callPtr ∧
      (a.stream s).order.toList[i]? = some p.instr) ∧
    ∃ x, a.instrs[p.instr]? = some x ∧ x.op = .call
  order : SameOrder l.asm a
  requests : ∀ s, (a.stream s).requests = (l.asm.stream s).requests

/-! ### Direct calls -/

theorem Pool.constants_release {p p' : Pool} {i : Int} (h : p.release i = .ok p') :
    p'.constants = p.constants := by
  unfold Pool.release at h
  split at h
  · next c n hn =>
    obtain rfl := Except.ok.inj h
    exact constants_recount _ _ _
  · simp at h

section Direct

variable {c : Store × Module} {l₀ l l' : Lowering} {code : Section → List Piece} {cs : List Constant}
  {u : PUnit}

private theorem sound_mark (line pos : Int) : Instruction.Sound ⟨.mark, [], line, pos⟩ := ⟨rfl, by simp⟩

/-- Whether an opcode is left of a call that was made direct. -/
def linkedOp (op : Opcode) : Prop := op = .mark ∨ op = .call

/-- What happens to the instructions when one call is made direct, if it is. -/
structure Links (direct : FuncId → Prop) (d : DirectCall) (a b : Assembly) : Prop where
  others : ∀ n, n ≠ d.get → n ≠ d.call → b.instrs[n]? = a.instrs[n]?
  stays : ∀ (n : Nat) (x : Instruction), a.instrs[n]? = some x → linkedOp x.op →
    ∃ y, b.instrs[n]? = some y ∧ linkedOp y.op
  ends : direct d.func → (∃ y, b.instrs[d.get]? = some y ∧ linkedOp y.op) ∧
    ∃ y, b.instrs[d.call]? = some y ∧ linkedOp y.op

/-- What happens when a call is made direct, if it is. -/
theorem runs_makeDirect {d : DirectCall} (hr : Runs (Lower.makeDirect d c) l u l') :
    l.startOf? d.func = none ∧ l' = l ∨
      ∃ (asm₂ asm₃ : Assembly) (pool : Pool) (entry : Nat) (bits : Int),
        l.startOf? d.func = some entry ∧ (l.asm.instr d.call).operand 0 = .ok bits ∧
        (∀ s, asm₂.stream s = l.asm.stream s) ∧
        Alters d.get (fun x y => y = { x with op := .mark, operands := [] }) l.asm asm₂ ∧
        l.pool.release d.constant = .ok pool ∧ (∀ s, asm₃.stream s = asm₂.stream s) ∧
        Alters d.call (fun x y => y.op = .call ∧ y.line = x.line ∧ y.operands[1]? = some bits ∧ y.Sound) asm₂ asm₃ ∧
        l' = { l with
          pool, asm := .update d.part (fun st => { st with patches := st.patches.push (.position d.call entry 0) }) asm₃ } := by
  unfold Lower.makeDirect at hr
  rw [Lower.runs_get_bind] at hr
  cases hlook : l.startOf? d.func with
  | none =>
    simp only [hlook] at hr
    exact .inl ⟨rfl, (Lower.runs_pure.mp hr).2⟩
  | some entry =>
    simp only [hlook] at hr
    obtain ⟨bits, l₁, h1, hr⟩ := Lower.runs_bind.mp hr
    obtain ⟨_, l₂, h2, hr⟩ := Lower.runs_bind.mp hr
    obtain ⟨asm₁, ho, rfl⟩ := Lower.runs_assemble.mp h1
    obtain ⟨hbits, rfl⟩ := Assemble.runs_operand ho
    obtain ⟨asm₂, hm, rfl⟩ := Lower.runs_assemble.mp h2
    rw [Lower.runs_get_bind, Lower.runs_lift_bind] at hr
    obtain ⟨pool, hpool, hr⟩ := hr
    rw [Lower.runs_modify_bind] at hr
    obtain ⟨_, l₃, h3, h4⟩ := Lower.runs_bind.mp hr
    obtain ⟨asm₃, hcall, rfl⟩ := Lower.runs_assemble.mp h3
    obtain ⟨asm₄, hp, rfl⟩ := Lower.runs_assemble.mp h4
    obtain rfl : asm₄ = _ := runs_modify.mp hp
    obtain ⟨hs₂, ha₂⟩ := alters_replace_mark hm
    obtain ⟨hs₃, ha₃⟩ := alters_replace_call hcall
    exact .inr ⟨asm₂, asm₃, pool, entry, bits, rfl, hbits, hs₂, ha₂, hpool, hs₃, ha₃, rfl⟩

/-- The patches that direct calls ask for: the position of a function, in the first operand of a call. -/
theorem patches_makeDirects {ds : List DirectCall} (hr : Runs (ds.forM fun d => Lower.makeDirect d c) l u l')
    (s : Section) (p : Patch) : p ∈ (l'.asm.stream s).patches ↔ p ∈ (l.asm.stream s).patches ∨
      ∃ d ∈ ds, d.part = s ∧ ∃ entry, l.startOf? d.func = some entry ∧ p = .position d.call entry 0 := by
  induction ds generalizing l with
  | nil =>
    rw [runs_forM_nil.mp hr]
    simp
  | cons d ds ih =>
    obtain ⟨l₁, h1, h2⟩ := runs_forM_cons.mp hr
    rw [ih h2]
    rcases runs_makeDirect h1 with ⟨hlook, rfl⟩ | ⟨asm₂, asm₃, pool, entry, bits, hlook, -, hs₂, -, -, hs₃, -, rfl⟩
    · simp [hlook]
    · unfold Lowering.startOf? at hlook ⊢
      by_cases hs : d.part = s
      · subst hs
        simp [hs₃, hs₂, hlook, or_assoc]
      · simp [Assembly.stream_update_ne (Ne.symm hs), hs₃, hs₂, hs]

/-- Making a call direct keeps the tie between pieces and instructions. -/
theorem Linking.makeDirect {d : DirectCall} (h : Linking l₀ code cs l.asm) (hl : Laid l₀ code)
    (hd : d ∈ l₀.direct) (he : l.entries = l₀.entries)
    (hcallPtr : ∀ x, l.asm.instrs[d.call]? = some x → x.op = .callPtr)
    (hr : Runs (Lower.makeDirect d c) l u l') :
    Linking l₀ code cs l'.asm ∧ Links l₀.direct? d l.asm l'.asm ∧
      l'.pool.constants = l.pool.constants ∧ l'.entries = l.entries := by
  obtain ⟨⟨i, q, hi, hget, hq, hqf⟩, j, r, hj, hcall, hro, hrf⟩ := hl.direct d hd
  have horder : ∀ {k n : Nat}, (l₀.order d.part)[k]? = some n →
      (l.asm.stream d.part).order.toList[k]? = some n := by
    intro k n hk
    rw [h.order]
    exact hk
  have hentry : l₀.startOf? d.func = l.startOf? d.func := by rw [Lowering.startOf?, Lowering.startOf?, he]
  rcases runs_makeDirect hr with ⟨hlook, rfl⟩ |
    ⟨asm₂, asm₃, pool, entry, bits, hlook, hbits, hs₂, ha₂, hpool, hs₃, ha₃, rfl⟩
  · refine ⟨h, ⟨fun _ _ _ => rfl, fun n x hx ho => ⟨x, hx, ho⟩, ?_⟩, rfl, rfl⟩
    intro hdirect
    simp [Lowering.direct?, hentry, hlook] at hdirect
  · have hdirect : l₀.direct? d.func := by
      rw [Lowering.direct?, hentry, hlook]
      rfl
    have ho₂ : SameOrder l.asm asm₂ := fun s => by rw [hs₂]
    have ho₃ : SameOrder asm₂ asm₃ := fun s => by rw [hs₃]
    -- the two instructions of the call, which are not the same one
    obtain ⟨n, x, hn, hx, hlinkedx⟩ := h.views _ i q hi
    obtain rfl : n = d.get := Option.some.inj (hn.symm.trans (horder hget))
    obtain ⟨n, z, hn', hz, hlinkedz⟩ := h.views _ j r hj
    obtain rfl : n = d.call := Option.some.inj (hn'.symm.trans (horder hcall))
    have hne : d.call ≠ d.get := by
      intro heq
      rw [heq] at hn'
      obtain ⟨-, rfl⟩ := h.distinct _ _ _ _ _ hn hn'
      rw [hi] at hj
      rw [← Option.some.inj hj, hq] at hro
      simp at hro
    have hz₂ : asm₂.instrs[d.call]? = some z := by rw [ha₂.others _ hne, hz]
    have hargs : r.operands.getLast? = some bits := by
      rw [Assembly.instr, hz, Option.getD_some] at hbits
      rw [← hlinkedz.operands_callPtr hro (hcallPtr z hz)]
      have hcount : z.operands.length = 1 := by
        rw [hlinkedz.sound.count, hcallPtr z hz]
        rfl
      unfold Instruction.operand at hbits
      split at hbits
      · next v hv =>
        obtain rfl := Except.ok.inj hbits
        simpa [List.getLast?_eq_getElem?, hcount] using hv
      · simp at hbits
    have hviews₂ : Views (Linked l₀.direct? cs) code asm₂ := by
      refine h.views.alter h.distinct ho₂ (horder hget) hi ha₂ (fun _ _ h => h) ?_
      rintro x y hx rfl
      exact .got hq rfl hx.line (sound_mark _ _) ⟨_, hqf, hdirect⟩
    have hviews₃ : Views (Linked l₀.direct? cs) code asm₃ := by
      refine hviews₂.alter (h.distinct.same ho₂) ho₃ (by rw [ho₂]; exact horder hcall) hj ha₃
        (fun _ _ h => h) ?_
      rintro x y hx ⟨hop, hline, hops, hsound⟩
      exact .called hro hop (hline.trans hx.line) hsound ⟨_, hrf, hdirect⟩ (hops.trans hargs.symm)
    have hlinks : Links l₀.direct? d l.asm asm₃ := by
      refine ⟨fun n hn hn' => by rw [ha₃.others n hn', ha₂.others n hn], ?_, fun _ => ⟨?_, ?_⟩⟩
      · intro n x hx ho
        obtain ⟨y, hy, hop⟩ : ∃ y, asm₂.instrs[n]? = some y ∧ linkedOp y.op := by
          by_cases hn : n = d.get
          · subst hn
            obtain ⟨y, hy, rfl⟩ := ha₂.this x hx
            exact ⟨_, hy, .inl rfl⟩
          · exact ⟨x, by rw [ha₂.others n hn, hx], ho⟩
        by_cases hn : n = d.call
        · subst hn
          obtain ⟨y, hy, hop, -⟩ := ha₃.this y hy
          exact ⟨y, hy, .inr hop⟩
        · exact ⟨y, by rw [ha₃.others n hn, hy], hop⟩
      · obtain ⟨y, hy, rfl⟩ := ha₂.this x hx
        exact ⟨_, by rw [ha₃.others _ hne.symm, hy], .inl rfl⟩
      · obtain ⟨y, hy, hop, -⟩ := ha₃.this z hz₂
        exact ⟨y, hy, .inr hop⟩
    have hstream : ∀ s, asm₃.stream s = l.asm.stream s := fun s => by rw [hs₃, hs₂]
    let f : Stream → Stream := fun st => { st with patches := st.patches.push (.position d.call entry 0) }
    have hupdate : ∀ s, ((Assembly.update d.part f asm₃).stream s).order = (l.asm.stream s).order ∧
        ((Assembly.update d.part f asm₃).stream s).requests = (l.asm.stream s).requests ∧
        ∀ p ∈ ((Assembly.update d.part f asm₃).stream s).patches, p ∈ (l.asm.stream s).patches ∨
          s = d.part ∧ p = .position d.call entry 0 := by
      intro s
      by_cases hs : s = d.part
      · subst hs
        rw [Assembly.stream_update_self, hstream]
        exact ⟨rfl, rfl, fun p hp => by simpa [f] using hp⟩
      · rw [Assembly.stream_update_ne hs, hstream]
        exact ⟨rfl, rfl, fun p hp => .inl hp⟩
    have hsame : SameOrder l.asm (Assembly.update d.part f asm₃) := fun s => (hupdate s).1
    refine ⟨⟨?_, h.distinct.same hsame, ?_, ?_, ?_⟩, ?_, Pool.constants_release hpool, rfl⟩
    · intro s k p hp
      obtain ⟨n, x, hn, hx, hlinked⟩ := hviews₃ s k p hp
      refine ⟨n, x, ?_, by simpa using hx, hlinked⟩
      rw [(hupdate s).1, ← hstream]
      exact hn
    · intro s p hp
      rw [(hupdate s).1, Assembly.instrs_update]
      rcases (hupdate s).2.2 p hp with hp | ⟨rfl, rfl⟩
      · obtain ⟨hzero, ⟨k, q', hk, hq', hn⟩, x, hx, hxop⟩ := h.patches s p hp
        refine ⟨hzero, ⟨k, q', hk, hq', hn⟩, ?_⟩
        -- a call is not where a function is pushed
        have hne : p.instr ≠ d.get := by
          intro heq
          rw [heq] at hn
          obtain ⟨rfl, rfl⟩ := h.distinct _ _ _ _ _ hn (horder hget)
          rw [hi] at hk
          rw [← Option.some.inj hk, hq] at hq'
          simp at hq'
        have hx₂ : asm₂.instrs[p.instr]? = some x := by rw [ha₂.others _ hne, hx]
        by_cases hsame : p.instr = d.call
        · rw [hsame] at hx₂ ⊢
          obtain ⟨y, hy, hop, -⟩ := ha₃.this x hx₂
          exact ⟨y, hy, hop⟩
        · exact ⟨x, by rw [ha₃.others _ hsame, hx₂], hxop⟩
      · obtain ⟨y, hy, hop, -⟩ := ha₃.this z hz₂
        exact ⟨rfl, ⟨j, r, hj, hro, horder hcall⟩, y, hy, hop⟩
    · exact fun s => ((hupdate s).1).trans (h.order s)
    · exact fun s => ((hupdate s).2.1).trans (h.requests s)
    · exact ⟨by simpa using hlinks.others, by simpa using hlinks.stays, by simpa using hlinks.ends⟩

/-- The calls of some functions are made direct, and all of them are. -/
private theorem Linking.makeDirects {ds : List DirectCall} (h : Linking l₀ code cs l.asm) (hl : Laid l₀ code)
    (hd : ∀ d ∈ ds, d ∈ l₀.direct) (hn : (ds.map DirectCall.call).Nodup) (he : l.entries = l₀.entries)
    (hcallPtr : ∀ d ∈ ds, ∀ x, l.asm.instrs[d.call]? = some x → x.op = .callPtr)
    (hr : Runs (ds.forM fun d => Lower.makeDirect d c) l u l') :
    Linking l₀ code cs l'.asm ∧
      (∀ (n : Nat) (x : Instruction), l.asm.instrs[n]? = some x → linkedOp x.op →
        ∃ y, l'.asm.instrs[n]? = some y ∧ linkedOp y.op) ∧
      (∀ d ∈ ds, l₀.direct? d.func → (∃ y, l'.asm.instrs[d.get]? = some y ∧ linkedOp y.op) ∧
        ∃ y, l'.asm.instrs[d.call]? = some y ∧ linkedOp y.op) ∧
      l'.pool.constants = l.pool.constants ∧ l'.entries = l.entries := by
  induction ds generalizing l with
  | nil =>
    rw [runs_forM_nil.mp hr]
    exact ⟨h, fun n x hx ho => ⟨x, hx, ho⟩, by simp, rfl, rfl⟩
  | cons d ds ih =>
    obtain ⟨l₁, h1, h2⟩ := runs_forM_cons.mp hr
    obtain ⟨hnotin, hn⟩ := List.nodup_cons.mp hn
    obtain ⟨hlink, hlinks, hpool, hentries⟩ :=
      h.makeDirect hl (hd d (by simp)) he (hcallPtr d (by simp)) h1
    -- a call that comes later is still to be made direct
    have hlater : ∀ e ∈ ds, ∀ x, l₁.asm.instrs[e.call]? = some x → x.op = .callPtr := by
      intro e hmem x hx
      have hcall : e.call ≠ d.call := fun heq => hnotin (heq ▸ List.mem_map_of_mem hmem)
      have hget : e.call ≠ d.get := by
        intro heq
        obtain ⟨-, j, r, hj, hcallat, hro, -⟩ := hl.direct e (hd e (by simp [hmem]))
        obtain ⟨⟨i, q, hi, hgetat, hqo, -⟩, -⟩ := hl.direct d (hd d (by simp))
        rw [heq] at hcallat
        obtain ⟨hpart, rfl⟩ := hl.distinct hcallat hgetat
        rw [hpart, hi] at hj
        rw [← Option.some.inj hj, hqo] at hro
        simp at hro
      rw [hlinks.others _ hget hcall] at hx
      exact hcallPtr e (by simp [hmem]) x hx
    obtain ⟨hlink', hstays, hends, hpool', hentries'⟩ := ih hlink (fun d hd' => hd d (by simp [hd'])) hn
      (hentries.trans he) hlater h2
    refine ⟨hlink', ?_, ?_, hpool'.trans hpool, hentries'.trans hentries⟩
    · intro n x hx ho
      obtain ⟨y, hy, hop⟩ := hlinks.stays n x hx ho
      exact hstays n y hy hop
    · intro e hmem hdirect
      rcases List.mem_cons.mp hmem with rfl | hmem
      · obtain ⟨⟨y, hy, hop⟩, z, hz, hop'⟩ := hlinks.ends hdirect
        exact ⟨hstays _ y hy hop, hstays _ z hz hop'⟩
      · exact hends e hmem hdirect

theorem Laid.linking (h : Laid l code) : Linking l code l.pool.constants l.asm where
  views := by
    intro s i q hq
    obtain ⟨n, x, hn, hx, hm⟩ := h.pieces hq
    exact ⟨n, x, hn, hx, .same hm⟩
  distinct := fun _ _ _ _ _ => h.distinct
  patches := fun s => by simp [h.patches]
  order := fun _ => rfl
  requests := fun _ => rfl

/-- All calls of functions with an entry are made direct. -/
theorem Laid.makeDirects (hl : Laid l code) (h : Runs (l.direct.forM fun d => Lower.makeDirect d c) l u l') :
    Linking l code l.pool.constants l'.asm ∧ l'.pool.constants = l.pool.constants ∧ l'.entries = l.entries ∧
      ∀ s (i : Nat) q n x, (code s)[i]? = some q → (l.order s)[i]? = some n → l'.asm.instrs[n]? = some x →
        q.Calls l.direct? → (q.op = .getFunc ∨ q.op = .callPtr) ∧ linkedOp x.op := by
  obtain ⟨hlink, -, hends, hpool, hentries⟩ := hl.linking.makeDirects hl (fun _ hd => hd) hl.calls rfl (by
    intro d hd x hx
    obtain ⟨-, j, r, hj, hcall, hop, -⟩ := hl.direct d hd
    obtain ⟨n, x', hn, hx', hm⟩ := hl.pieces hj
    obtain rfl : n = d.call := Option.some.inj (hn.symm.trans hcall)
    obtain rfl : x = x' := Option.some.inj (hx.symm.trans hx')
    exact hm.op.trans hop) h
  refine ⟨hlink, hpool, hentries, ?_⟩
  rintro s i q n x hq hn hx ⟨f, hf, hdirect⟩
  obtain ⟨d, hd, rfl, hat⟩ := hl.named hq hf
  obtain ⟨⟨y, hy, hyop⟩, w, hw, hwop⟩ := hends d hd hdirect
  rcases hat with ⟨hqop, hm⟩ | ⟨hqop, hm⟩
  · obtain rfl : n = d.get := Option.some.inj (hn.symm.trans hm)
    rw [Option.some.inj (hx.symm.trans hy)]
    exact ⟨.inl hqop, hyop⟩
  · obtain rfl : n = d.call := Option.some.inj (hn.symm.trans hm)
    rw [Option.some.inj (hx.symm.trans hw)]
    exact ⟨.inr hqop, hwop⟩

end Direct

/-! ### References to constants -/

/-- The constant of an instruction moves to its new position. -/
def Remaps (ps : Array (Option Nat)) (x y : Instruction) : Prop :=
  (x.op.pool = none ∧ y = x) ∨ ∃ (p : Nat) (old : Int) (new : Nat), x.op.pool = some p ∧
    old = x.operands[p]?.getD 0 ∧ ps[old.toNat]? = some (some new) ∧ x.setOperand p new = .ok y

theorem Opcode.pool_lt {op : Opcode} {p : Nat} (h : op.pool = some p) : p < op.widths.length := by
  cases op <;> simp [Opcode.pool, Opcode.widths, Opcode.info] at h ⊢ <;> omega

section Remap

variable {c : Store × Module} {l l' : Lowering} {u : PUnit} {ps : Array (Option Nat)}

theorem alters_remap {n : Nat} (h : Runs (Lower.remap ps n c) l u l') :
    l' = { l with asm := l'.asm } ∧ (∀ s, l'.asm.stream s = l.asm.stream s) ∧
      Alters n (Remaps ps) l.asm l'.asm := by
  unfold Lower.remap at h
  rw [Lower.runs_get_bind] at h
  cases hp : (l.asm.instr n).op.pool with
  | none =>
    simp only [hp] at h
    obtain ⟨-, rfl⟩ := Lower.runs_pure.mp h
    refine ⟨rfl, fun _ => rfl, fun _ _ => rfl, ?_, rfl⟩
    intro x hx
    have hinstr : l'.asm.instr n = x := by rw [Assembly.instr, hx]; rfl
    exact ⟨x, hx, .inl ⟨by rw [← hinstr, hp], rfl⟩⟩
  | some p =>
    simp only [hp] at h
    let old := (l.asm.instr n).operands[p]?.getD 0
    cases hnew : (if old < 0 then none else (ps[old.toNat]?).join) with
    | none =>
      simp only [old] at hnew
      simp only [hnew] at h
      exact absurd h Lower.runs_throw
    | some new =>
      simp only [old] at hnew
      simp only [hnew] at h
      obtain ⟨asm, hm, rfl⟩ := Lower.runs_assemble.mp h
      obtain ⟨hs, ha⟩ := alters_setOperand hm
      refine ⟨rfl, hs, ha.others, ?_, ha.size⟩
      intro x hx
      have hinstr : l.asm.instr n = x := by rw [Assembly.instr, hx]; rfl
      obtain ⟨y, hy, hset⟩ := ha.this x hx
      refine ⟨y, hy, .inr ⟨p, old, new, by rw [← hinstr, hp], by rw [← hinstr], ?_, hset⟩⟩
      split at hnew
      · simp at hnew
      · simpa [Option.join_eq_some_iff] using hnew

/-- Changes of different instructions, one after the other. -/
theorem alters_forM {f : Instruction → Instruction → Prop} {m : Nat → Lower PUnit} {ns : List Nat}
    (hm : ∀ {n l l'}, Runs (m n c) l u l' → l' = { l with asm := l'.asm } ∧
      (∀ s, l'.asm.stream s = l.asm.stream s) ∧ Alters n f l.asm l'.asm)
    (hd : ns.Nodup) (h : Runs (ns.forM fun n => m n c) l u l') :
    l' = { l with asm := l'.asm } ∧ (∀ s, l'.asm.stream s = l.asm.stream s) ∧
      (∀ n, n ∉ ns → l'.asm.instrs[n]? = l.asm.instrs[n]?) ∧
      ∀ n ∈ ns, ∀ x, l.asm.instrs[n]? = some x → ∃ y, l'.asm.instrs[n]? = some y ∧ f x y := by
  induction ns generalizing l with
  | nil =>
    rw [runs_forM_nil.mp h]
    exact ⟨rfl, fun _ => rfl, fun _ _ => rfl, by simp⟩
  | cons k ns ih =>
    obtain ⟨l₁, h1, h2⟩ := runs_forM_cons.mp h
    obtain ⟨hk, hd⟩ := List.nodup_cons.mp hd
    obtain ⟨he, hs, ha⟩ := hm h1
    obtain ⟨he', hs', hout, hin⟩ := ih hd h2
    refine ⟨?_, fun s => (hs' s).trans (hs s), ?_, ?_⟩
    · rw [he', he]
    · intro n hn
      simp only [List.mem_cons, not_or] at hn
      rw [hout n hn.2, ha.others n hn.1]
    · intro n hn x hx
      by_cases hnk : n = k
      · subst hnk
        obtain ⟨y, hy, hxy⟩ := ha.this x hx
        exact ⟨y, by rw [hout n hk, hy], hxy⟩
      · have hmem : n ∈ ns := by simpa [hnk] using hn
        exact hin n hmem x (by rw [ha.others n hnk, hx])

end Remap

theorem Linked.remap {direct : FuncId → Prop} {cs cs' : List Constant} {ps : Array (Option Nat)}
    {x y : Instruction} {q : Piece} (h : Linked direct cs x q) (hr : Remaps ps x y)
    (hps : ∀ {i j : Nat}, ps[i]? = some (some j) → ∃ c, cs[i]? = some c ∧ cs'[j]? = some c) :
    Linked direct cs' y q := by
  cases h with
  | same hm =>
    rcases hr with ⟨hnone, rfl⟩ | ⟨p, old, new, hp, hold, hnew, hset⟩
    · refine .same ⟨hm.op, hm.line, hm.sound, hm.bare, ?_⟩
      intro v hv
      obtain ⟨p, i, hp, -⟩ := hm.const v hv
      rw [← hm.op, hnone] at hp
      simp at hp
    · have hsound := Assemble.sound_setOperand hm.sound hset
      obtain ⟨_, _, _, rfl⟩ := Assemble.setOperand_ok hset
      refine .same ⟨hm.op, hm.line, hsound, ?_, ?_⟩
      · intro hc
        obtain ⟨hnone, -⟩ := hm.bare hc
        rw [← hm.op, hp] at hnone
        simp at hnone
      · intro v hv
        obtain ⟨p', i, hp', hi, hops⟩ := hm.const v hv
        obtain rfl : p = p' := by
          rw [← hm.op, hp] at hp'
          exact Option.some.inj hp'
        have hlt : p < q.operands.length := by
          have := Opcode.pool_lt hp
          rw [← hm.sound.count, hops] at this
          simpa using this
        rw [hops, List.getElem?_set_self hlt] at hold
        simp only [Option.getD_some] at hold
        rw [hold, Int.toNat_natCast] at hnew
        obtain ⟨v', hv', hj⟩ := hps hnew
        rw [hi] at hv'
        obtain rfl := Option.some.inj hv'
        refine ⟨p, new, hp', hj, ?_⟩
        simp only [hops, List.set_set]
  | got hq hx line sound calls =>
    rcases hr with ⟨-, rfl⟩ | ⟨p, _, _, hp, -⟩
    · exact .got hq hx line sound calls
    · simp [hx, Opcode.pool, Opcode.info] at hp
  | called hq hx line sound calls args =>
    rcases hr with ⟨-, rfl⟩ | ⟨p, _, _, hp, -⟩
    · exact .called hq hx line sound calls args
    · simp [hx, Opcode.pool, Opcode.info] at hp

/-! ### Positions -/

section Resolve

variable {a b : Assembly} {u : PUnit}

private theorem instr_eq {n : Nat} {x : Instruction} (h : a.instrs[n]? = some x) : a.instr n = x := by
  rw [Assembly.instr, h]
  rfl

/-- Instructions get consecutive positions. -/
theorem runs_place {ns : List Nat} {pos : Int} (hd : ns.Nodup)
    (hin : ∀ n ∈ ns, ∃ x, a.instrs[n]? = some x) (h : Runs (Assemble.place pos ns) a u b) :
    (∀ s, b.stream s = a.stream s) ∧ (∀ n, n ∉ ns → b.instrs[n]? = a.instrs[n]?) ∧
      (∀ (n : Nat) (x : Instruction), a.instrs[n]? = some x → ∃ p, b.instrs[n]? = some { x with pos := p }) ∧
      Placed pos (ns.map b.instr) := by
  induction ns generalizing pos a with
  | nil =>
    obtain ⟨-, rfl⟩ := runs_pure.mp h
    exact ⟨fun _ => rfl, fun _ _ => rfl, fun n x hx => ⟨x.pos, hx⟩, trivial⟩
  | cons n ns ih =>
    obtain ⟨hn, hd⟩ := List.nodup_cons.mp hd
    simp only [Assemble.place, runs_get_bind, runs_modify_bind] at h
    obtain ⟨x, hx⟩ := hin n (by simp)
    have ha := Alters.ofModify (a := a) (n := n) (h := fun x => { x with pos })
      (b := { a with instrs := a.instrs.modify n ({ · with pos }) }) rfl
    obtain ⟨hs, hout, hall, hplaced⟩ := ih hd (by
      intro m hm
      obtain ⟨y, hy⟩ := hin m (by simp [hm])
      have hne : m ≠ n := fun h => hn (h ▸ hm)
      exact ⟨y, by rw [ha.others m hne, hy]⟩) h
    obtain ⟨y, hy, rfl⟩ := ha.this x hx
    have hlast : b.instr n = { x with pos } := instr_eq (by rw [hout n hn, hy])
    refine ⟨by simpa using hs, ?_, ?_, ?_⟩
    · intro m hm
      simp only [List.mem_cons, not_or] at hm
      rw [hout m hm.2, ha.others m hm.1]
    · intro m z hz
      by_cases hmn : m = n
      · subst hmn
        obtain rfl : x = z := by
          rw [hx] at hz
          exact Option.some.inj hz
        obtain ⟨p, hp⟩ := hall m _ hy
        exact ⟨p, hp⟩
      · exact hall m z (by rw [ha.others m hmn, hz])
    · refine ⟨by rw [hlast], ?_⟩
      rw [hlast]
      rw [instr_eq hx] at hplaced
      exact hplaced

/-- Operands are filled in one after the other, by the positions of instructions. What is filled into one instruction
is always the same. -/
theorem runs_fill {ι : Type} {rs : List ι} {f : ι → Nat} {i : ι → Int} {v : Assembly → ι → Int}
    (hi : ∀ r ∈ rs, 0 ≤ i r) (hv : ∀ {a b : Assembly}, (∀ n, (b.instr n).pos = (a.instr n).pos) → ∀ r, v b r = v a r)
    (hsame : ∀ r ∈ rs, ∀ r' ∈ rs, f r = f r' → r = r')
    (h : Runs (rs.forM fun r => (do
      let a ← get
      Assemble.setOperand (f r) (i r) (v a r) : Assemble PUnit)) a u b) :
    (∀ s, b.stream s = a.stream s) ∧ (∀ n, (b.instr n).pos = (a.instr n).pos) ∧
      (∀ n, (∀ r ∈ rs, f r ≠ n) → b.instrs[n]? = a.instrs[n]?) ∧
      ∀ r ∈ rs, ∀ x, a.instrs[f r]? = some x → x.Sound →
        ∃ y, b.instrs[f r]? = some y ∧ y.Sound ∧ y = { x with operands := x.operands.set (i r).toNat (v a r) } := by
  induction rs generalizing a with
  | nil =>
    rw [runs_forM_nil.mp h]
    exact ⟨fun _ => rfl, fun _ => rfl, fun _ _ => rfl, by simp⟩
  | cons r rs ih =>
    obtain ⟨a₁, h1, h2⟩ := runs_forM_cons.mp h
    rw [runs_get_bind] at h1
    have hnat : (((i r).toNat : Nat) : Int) = i r := Int.toNat_of_nonneg (hi r (by simp))
    rw [← hnat] at h1
    obtain ⟨hs, ha⟩ := alters_setOperand h1
    obtain ⟨hs', hpos', hout, hin⟩ := ih (fun r hr => hi r (by simp [hr]))
      (fun r hr r' hr' => hsame r (by simp [hr]) r' (by simp [hr'])) h2
    have hpos : ∀ n, (a₁.instr n).pos = (a.instr n).pos := by
      intro n
      by_cases hn : n = f r
      · subst hn
        cases hx : a.instrs[f r]? with
        | none =>
          have hx' : a₁.instrs[f r]? = none := by
            rw [Array.getElem?_eq_none_iff] at hx ⊢
            rw [ha.size]
            exact hx
          simp only [Assembly.instr, hx, hx']
        | some x =>
          obtain ⟨y, hy, hset⟩ := ha.this x hx
          obtain ⟨_, _, _, rfl⟩ := Assemble.setOperand_ok hset
          rw [instr_eq hy, instr_eq hx]
      · simp only [Assembly.instr, ha.others n hn]
    refine ⟨fun s => (hs' s).trans (hs s), fun n => (hpos' n).trans (hpos n), ?_, ?_⟩
    · intro n hn
      rw [hout n fun r' hr' => hn r' (by simp [hr']), ha.others n (hn r (by simp)).symm]
    · intro r' hr' x hx hsound
      by_cases hsrc : f r' = f r
      · obtain rfl := hsame r' hr' r (by simp) hsrc
        obtain ⟨y, hy, hset⟩ := ha.this x hx
        have hysound := Assemble.sound_setOperand hsound hset
        obtain ⟨_, _, _, rfl⟩ := Assemble.setOperand_ok hset
        by_cases hlater : r' ∈ rs
        · -- the same once more changes nothing
          obtain ⟨z, hz, hzsound, rfl⟩ := hin r' hlater _ hy hysound
          refine ⟨_, hz, hzsound, ?_⟩
          simp only [List.set_set, hv hpos]
        · refine ⟨_, ?_, hysound, rfl⟩
          rw [hout (f r') ?_, hy]
          intro r'' hr'' heq
          obtain rfl := hsame r'' (by simp [hr'']) r' (by simp) heq
          exact hlater hr''
      · have hmem : r' ∈ rs := by
          rcases List.mem_cons.mp hr' with rfl | hr'
          · exact absurd rfl hsrc
          · exact hr'
        obtain ⟨y, hy, hysound, rfl⟩ := hin r' hmem x (by rw [ha.others _ hsrc, hx]) hsound
        exact ⟨_, hy, hysound, by simp only [hv hpos]⟩

end Resolve

/-! ### Final instructions -/

/-- An instruction that still is its piece: it leads as far as the positions of the two places say. -/
structure Kept (cs : List Constant) (xs : List Instruction) (i : Nat) (x : Instruction) (q : Piece) :
    Prop where
  op : x.op = q.op
  operands : ∃ y, Matches cs y q ∧ ((∀ d, q.goal ≠ some (.ahead d)) → x.operands = y.operands) ∧
    ∀ d, q.goal = some (.ahead d) → ∃ (j : Nat) (z : Instruction), (j : Int) = i + d ∧ xs[j]? = some z ∧
      x.operands = y.operands.set q.offsetIndex (z.pos - x.pos)

/-- The instructions that a list of pieces becomes. -/
structure Final (cs : List Constant) (code : List Piece) (xs : List Instruction) : Prop where
  length : xs.length = code.length
  placed : Placed 0 xs
  sound : ∀ x ∈ xs, x.Sound
  shows : ∀ {i : Nat} {q}, code[i]? = some q → ∃ x : Instruction, xs[i]? = some x ∧ x.line = q.line ∧
    (Kept cs xs i x q ∨ q.op = .getFunc ∧ x.op = .mark ∨ q.op = .callPtr ∧ x.op = .call)

/-- The calls of some functions are direct: nothing pushes the function, and the call keeps its arguments.
All other instructions have the opcodes of their pieces. -/
structure Direct (direct : FuncId → Prop) (code : List Piece) (xs : List Instruction) : Prop where
  same : ∀ {i : Nat} {q x}, code[i]? = some q → xs[i]? = some x → ¬q.Calls direct → x.op = q.op
  got : ∀ {i : Nat} {q x}, code[i]? = some q → xs[i]? = some x → q.Calls direct → q.op = .getFunc →
    x.op = .mark
  called : ∀ {i : Nat} {q x}, code[i]? = some q → xs[i]? = some x → q.Calls direct → q.op = .callPtr →
    x.op = .call ∧ x.operands[1]? = q.operands.getLast?
  named : ∀ q ∈ code, q.Calls direct → q.op = .getFunc ∨ q.op = .callPtr

theorem nodup_of_distinct {a : Assembly} (h : Distinct a) (s : Section) :
    (a.stream s).order.toList.Nodup := by
  refine List.pairwise_iff_getElem.mpr ?_
  intro i j hi hj hlt heq
  have := (h s s i j _ (List.getElem?_eq_getElem hi) (heq ▸ List.getElem?_eq_getElem hj)).2
  omega

theorem placed_congr {f g : Nat → Instruction} {ns : List Nat} {pos : Int}
    (h : ∀ n ∈ ns, (g n).pos = (f n).pos ∧ (g n).op = (f n).op) (hp : Placed pos (ns.map f)) :
    Placed pos (ns.map g) := by
  induction ns generalizing pos with
  | nil => trivial
  | cons n ns ih =>
    obtain ⟨hpos, hrest⟩ := hp
    obtain ⟨hgpos, hgop⟩ := h n (by simp)
    refine ⟨by rw [hgpos, hpos], ?_⟩
    rw [hgop]
    exact ih (fun m hm => h m (by simp [hm])) hrest

/-- A stream is resolved to the instructions of its code, and nothing else changes. -/
theorem final_resolve (direct : FuncId → Prop) (cs : List Constant) (code : List Piece) {s : Section}
    {a b : Assembly} {u : PUnit} (hd : Distinct a) (hlen : (a.stream s).order.toList.length = code.length)
    (hv : ∀ (i : Nat) q, code[i]? = some q →
      ∃ n x, (a.stream s).order.toList[i]? = some n ∧ a.instrs[n]? = some x ∧ Linked direct cs x q)
    (hr : ∀ r, r ∈ (a.stream s).requests ↔ ∃ (i j : Nat) (q : Piece) (d : Int), code[i]? = some q ∧
      q.goal = some (.ahead d) ∧ (j : Int) = i + d ∧ (a.stream s).order.toList[i]? = some r.src ∧
      (a.stream s).order.toList[j]? = some r.dst ∧ r.operand = q.offsetIndex)
    (hp : ∀ p ∈ (a.stream s).patches, p.operand = 0 ∧ (∃ (i : Nat) (q : Piece), code[i]? = some q ∧
      q.op = .callPtr ∧ (a.stream s).order.toList[i]? = some p.instr) ∧
      ∃ x, a.instrs[p.instr]? = some x ∧ x.op = .call)
    (honce : ∀ p ∈ (a.stream s).patches, ∀ p' ∈ (a.stream s).patches, p.instr = p'.instr → p = p')
    (hinside : ∀ {i : Nat} {q d}, code[i]? = some q → q.goal = some (.ahead d) →
      0 ≤ i + d ∧ i + d < code.length)
    (h : Runs (Assemble.resolve s) a u b) :
    Final cs code (b.listing s) ∧
      (∀ (i : Nat) q n x, code[i]? = some q → (a.stream s).order.toList[i]? = some n →
        a.instrs[n]? = some x → ∃ z, (b.listing s)[i]? = some z ∧ z.op = x.op ∧
          (q.op = .callPtr → z.operands[1]? = x.operands[1]?)) ∧
      (∀ p ∈ (a.stream s).patches, (b.instr p.instr).operands[0]? = some (p.value fun n => (b.instr n).pos)) ∧
      SameOrder a b ∧ (∀ t, t ≠ s → b.stream t = a.stream t) ∧
      ∀ n, n ∉ (a.stream s).order.toList → b.instrs[n]? = a.instrs[n]? := by
  unfold Assemble.resolve at h
  rw [runs_get_bind] at h
  by_cases hres : (a.stream s).resolved = true
  · rw [if_pos hres] at h
    simp at h
  · rw [if_neg hres, runs_modify_bind] at h
    obtain ⟨_, a₁, h1, h⟩ := runs_bind.mp h
    obtain ⟨_, a₂, h2, h3⟩ := runs_bind.mp h
    rw [forM_toList] at h2 h3
    have hsame₀ : SameOrder a (Assembly.update s ({ · with resolved := true }) a) := by
      intro t
      by_cases ht : t = s
      · subst ht
        rw [Assembly.stream_update_self]
      · rw [Assembly.stream_update_ne ht]
    have hin : ∀ n ∈ (a.stream s).order.toList, ∃ x, a.instrs[n]? = some x := by
      intro n hn
      obtain ⟨i, hi⟩ := List.mem_iff_getElem?.mp hn
      have hlt : i < code.length := hlen ▸ (List.getElem?_eq_some_iff.mp hi).1
      obtain ⟨m, x, hm, hx, -⟩ := hv i _ (List.getElem?_eq_getElem hlt)
      rw [hi] at hm
      exact ⟨x, by rw [Option.some.inj hm, hx]⟩
    have hnonneg : ∀ r ∈ (a.stream s).requests.toList, 0 ≤ r.operand := by
      intro r hmem
      obtain ⟨i, j, q, d, -, -, -, -, -, hop⟩ := (hr r).mp (by simpa using hmem)
      omega
    have hone : ∀ r ∈ (a.stream s).requests.toList, ∀ r' ∈ (a.stream s).requests.toList,
        r.src = r'.src → r = r' := by
      intro r hmem r' hmem' heq
      obtain ⟨i, j, q, d, hi, hg, hj, hsrc, hdst, hop⟩ := (hr r).mp (by simpa using hmem)
      obtain ⟨i', j', q', d', hi', hg', hj', hsrc', hdst', hop'⟩ := (hr r').mp (by simpa using hmem')
      rw [heq] at hsrc
      obtain rfl := (hd s s i i' _ hsrc hsrc').2
      obtain rfl : q = q' := by
        rw [hi] at hi'
        exact Option.some.inj hi'
      obtain rfl : d = d' := by
        rw [hg] at hg'
        simpa using hg'
      obtain rfl : j = j' := by omega
      rw [hdst] at hdst'
      cases r
      cases r'
      simp only [OffsetRequest.mk.injEq]
      exact ⟨heq, Option.some.inj hdst', hop.trans hop'.symm⟩
    obtain ⟨hs₁, hout₁, hall₁, hplaced⟩ := runs_place (nodup_of_distinct hd s)
      (by simpa only [Assembly.instrs_update] using hin) h1
    obtain ⟨hs₂, hpos₂, hout₂, hall₂⟩ := runs_fill (f := OffsetRequest.src) (i := OffsetRequest.operand)
      (v := fun a r => (a.instr r.dst).pos - (a.instr r.src).pos) hnonneg
      (fun hpos r => by simp only [hpos]) hone h2
    obtain ⟨hs₃, hpos₃, hout₃, hin₃⟩ := runs_fill (f := Patch.instr) (i := Patch.operand)
      (v := fun a p => p.value fun n => (a.instr n).pos) (fun p hmem => by rw [(hp p (by simpa using hmem)).1])
      (fun hpos p => by simp only [hpos])
      (fun p hmem p' hmem' => honce p (by simpa using hmem) p' (by simpa using hmem')) h3
    -- a patch changes the first operand at most
    have hall₃ : ∀ (n : Nat) (x : Instruction), a₂.instrs[n]? = some x → x.Sound → ∃ y : Instruction,
        b.instrs[n]? = some y ∧ y.op = x.op ∧ y.line = x.line ∧ y.pos = x.pos ∧ y.Sound ∧
          y.operands[1]? = x.operands[1]? := by
      intro n x hx hsound
      by_cases hn : ∃ p ∈ (a.stream s).patches.toList, p.instr = n
      · obtain ⟨p, hmem, rfl⟩ := hn
        obtain ⟨y, hy, hys, rfl⟩ := hin₃ p hmem x hx hsound
        refine ⟨_, hy, rfl, rfl, rfl, hys, ?_⟩
        rw [(hp p (by simpa using hmem)).1]
        simp
      · refine ⟨x, ?_, rfl, rfl, rfl, hsound, rfl⟩
        rw [hout₃ n fun p hmem heq => hn ⟨p, hmem, heq⟩, hx]
    have hstream : ∀ t, b.stream t = (Assembly.update s ({ · with resolved := true }) a).stream t := by
      intro t
      rw [hs₃, hs₂, hs₁]
    have horder : (b.stream s).order = (a.stream s).order := by rw [hstream, hsame₀]
    -- the instruction of a piece after the requests are met
    have hmet : ∀ (i : Nat) q n, code[i]? = some q → (a.stream s).order.toList[i]? = some n →
        ∃ x y, a.instrs[n]? = some x ∧ Linked direct cs x q ∧ a₂.instrs[n]? = some y ∧ y.Sound ∧ y.op = x.op ∧
          y.line = x.line ∧ y.pos = (a₁.instr n).pos ∧ (a₁.instr n).op = x.op ∧
          ((∀ d, q.goal ≠ some (.ahead d)) → y.operands = x.operands) ∧
          ∀ d, q.goal = some (.ahead d) → ∃ (j dst : Nat), (j : Int) = i + d ∧
            (a.stream s).order.toList[j]? = some dst ∧
            y.operands = x.operands.set q.offsetIndex ((a₁.instr dst).pos - (a₁.instr n).pos) := by
      intro i q n hi hn
      obtain ⟨m, x, hm, hx, hlink⟩ := hv i q hi
      obtain rfl : m = n := by
        rw [hn] at hm
        exact (Option.some.inj hm).symm
      obtain ⟨p, hx₁⟩ := hall₁ m x (by simpa only [Assembly.instrs_update] using hx)
      have hinstr := instr_eq hx₁
      by_cases hgoal : ∃ d, q.goal = some (.ahead d)
      · obtain ⟨d, hg⟩ := hgoal
        obtain ⟨hlo, hhi⟩ := hinside hi hg
        have hj : (i + d).toNat < (a.stream s).order.toList.length := by omega
        have hdst := List.getElem?_eq_getElem hj
        obtain ⟨y, hy, hys, rfl⟩ := hall₂ ⟨m, _, q.offsetIndex⟩
          (by simpa using (hr _).mpr ⟨i, (i + d).toNat, q, d, hi, hg, by omega, hn, hdst, rfl⟩) _ hx₁
          ⟨hlink.sound.count, hlink.sound.fit⟩
        refine ⟨x, _, hx, hlink, hy, hys, rfl, rfl, by rw [hinstr], by rw [hinstr],
          fun hno => absurd hg (hno d), ?_⟩
        intro d' hd'
        obtain rfl : d = d' := by
          rw [hg] at hd'
          simpa using hd'
        exact ⟨(i + d).toNat, _, by omega, hdst, by simp⟩
      · have hnone : ∀ r ∈ (a.stream s).requests.toList, r.src ≠ m := by
          intro r hmem heq
          obtain ⟨i', _, q', d, hi', hg, _, hsrc, _⟩ := (hr r).mp (by simpa using hmem)
          rw [heq] at hsrc
          obtain rfl := (hd s s i' i _ hsrc hn).2
          rw [hi'] at hi
          exact hgoal ⟨d, Option.some.inj hi ▸ hg⟩
        exact ⟨x, { x with pos := p }, hx, hlink, by rw [hout₂ m hnone, hx₁],
          ⟨hlink.sound.count, hlink.sound.fit⟩, rfl, rfl, by rw [hinstr], by rw [hinstr], fun _ => rfl,
          fun d hg => absurd ⟨d, hg⟩ hgoal⟩
    -- positions and opcodes do not change any more
    have hfixed : ∀ n ∈ (a.stream s).order.toList,
        (b.instr n).pos = (a₁.instr n).pos ∧ (b.instr n).op = (a₁.instr n).op := by
      intro n hn
      obtain ⟨i, hi⟩ := List.mem_iff_getElem?.mp hn
      have hlt : i < code.length := hlen ▸ (List.getElem?_eq_some_iff.mp hi).1
      obtain ⟨x, y, -, -, hy, hys, hop, -, hpos, hop₁, -⟩ := hmet i _ n (List.getElem?_eq_getElem hlt) hi
      obtain ⟨z, hz, hzop, -, hzpos, -⟩ := hall₃ n y hy hys
      rw [instr_eq hz]
      exact ⟨hzpos.trans hpos, by rw [hzop, hop, hop₁]⟩
    have hlisting : b.listing s = (a.stream s).order.toList.map b.instr := by
      rw [Assembly.listing, horder]
    refine ⟨⟨?_, ?_, ?_, ?_⟩, ?_, ?_, ?_, ?_, ?_⟩
    · rw [hlisting, List.length_map, hlen]
    · rw [hlisting]
      exact placed_congr hfixed hplaced
    · intro z hz
      rw [hlisting] at hz
      obtain ⟨n, hn, rfl⟩ := List.mem_map.mp hz
      obtain ⟨i, hi⟩ := List.mem_iff_getElem?.mp hn
      have hlt : i < code.length := hlen ▸ (List.getElem?_eq_some_iff.mp hi).1
      obtain ⟨x, y, -, -, hy, hys, -⟩ := hmet i _ n (List.getElem?_eq_getElem hlt) hi
      obtain ⟨z, hz, -, -, -, hzs, -⟩ := hall₃ n y hy hys
      rw [instr_eq hz]
      exact hzs
    · intro i q hi
      have hlt : i < (a.stream s).order.toList.length := hlen ▸ (List.getElem?_eq_some_iff.mp hi).1
      have hn := List.getElem?_eq_getElem hlt
      obtain ⟨x, y, hx, hlink, hy, hys, hop, hline, hpos, hop₁, hplain, hgoal⟩ := hmet i q _ hi hn
      obtain ⟨z, hz, hzop, hzline, hzpos, hzs⟩ := hall₃ _ y hy hys
      refine ⟨z, ?_, by rw [hzline, hline, hlink.line], ?_⟩
      · rw [hlisting, List.getElem?_map, hn, Option.map_some, instr_eq hz]
      · cases hlink with
        | got hq hxop _ _ => exact .inr (.inl ⟨hq, by rw [hzop, hop, hxop]⟩)
        | called hq hxop _ _ => exact .inr (.inr ⟨hq, by rw [hzop, hop, hxop]⟩)
        | same hm =>
          -- an instruction that is still its piece is not a direct call, and has no patch
          have hnot : ∀ p ∈ (a.stream s).patches.toList, p.instr ≠ (a.stream s).order.toList[i] := by
            intro p hmem heq
            obtain ⟨-, ⟨i', q', hi', hq', hn'⟩, x', hx', hxop'⟩ := hp p (by simpa using hmem)
            rw [heq] at hn' hx'
            obtain rfl := (hd s s i' i _ hn' hn).2
            rw [hx] at hx'
            rw [hi] at hi'
            rw [← Option.some.inj hx', hm.op, Option.some.inj hi', hq'] at hxop'
            simp at hxop'
          obtain rfl : z = y := by
            rw [hout₃ _ hnot, hy] at hz
            exact (Option.some.inj hz).symm
          refine .inl ⟨hop.trans hm.op, x, hm, hplain, ?_⟩
          intro d hg
          obtain ⟨j, dst, hj, hdst, hops⟩ := hgoal d hg
          refine ⟨j, b.instr dst, hj, ?_, ?_⟩
          · rw [hlisting, List.getElem?_map, hdst, Option.map_some]
          · rw [hops, (hfixed dst (List.mem_of_getElem? hdst)).1, hpos]
    · intro i q n x hi hn hx
      obtain ⟨x', y, hx', -, hy, hys, hop, -, -, -, hplain, hgoal⟩ := hmet i q n hi hn
      obtain rfl : x = x' := Option.some.inj (hx.symm.trans hx')
      obtain ⟨z, hz, hzop, -, -, -, hargs⟩ := hall₃ n y hy hys
      refine ⟨z, ?_, hzop.trans hop, ?_⟩
      · rw [hlisting, List.getElem?_map, hn, Option.map_some, instr_eq hz]
      · intro hq
        rw [hargs]
        by_cases hg : ∃ d, q.goal = some (.ahead d)
        · obtain ⟨d, hg⟩ := hg
          obtain ⟨j, dst, -, -, hops⟩ := hgoal d hg
          have hoff : q.offsetIndex = 0 := by simp [Piece.offsetIndex, hq, Opcode.offsetOperand?, Opcode.isJump]
          simp [hops, hoff]
        · rw [hplain fun d hd => hg ⟨d, hd⟩]
    · intro p hmem
      obtain ⟨hzero, ⟨i, q, hi, -, hn⟩, x, hx, hxop⟩ := hp p hmem
      obtain ⟨x', y, hx', -, hy, hys, hop, -⟩ := hmet i q _ hi hn
      obtain rfl : x = x' := Option.some.inj (hx.symm.trans hx')
      obtain ⟨z, hz, hzs, rfl⟩ := hin₃ p (by simpa using hmem) y hy hys
      have hlt : 0 < y.operands.length := by
        rw [hys.count, hop, hxop]
        decide
      rw [instr_eq hz, hzero, Int.toNat_zero, List.getElem?_set_self hlt]
      simp only [hpos₃]
    · exact fun t => by rw [hstream, hsame₀]
    · intro t ht
      rw [hstream, Assembly.stream_update_ne ht]
    · intro n hn
      rw [hout₃ n ?_, hout₂ n ?_, hout₁ n hn, Assembly.instrs_update]
      · intro r hmem heq
        obtain ⟨i, j, q, d, -, -, -, hsrc, -⟩ := (hr r).mp (by simpa using hmem)
        exact hn (heq ▸ List.mem_of_getElem? hsrc)
      · intro p hmem heq
        obtain ⟨-, ⟨i, q, -, -, hi⟩, -⟩ := hp p (by simpa using hmem)
        exact hn (heq ▸ List.mem_of_getElem? hi)

section Finish

variable {c : Store × Module} {l₀ l l' : Lowering} {code : Section → List Piece} {out : Compiled}

/-- Finish a module with the calls as they are: drop constants that are not used any more, and resolve the code
before the initialisation. -/
def Lower.layOut : Lower Compiled := do
  let (positions, pool) := (← getThe Lowering).pool.compact
  modifyThe Lowering ({ · with pool })
  let positions := positions.toArray
  for part in [Section.init, .code] do
    ((← getThe Lowering).asm.stream part).order.forM (Lower.remap positions)
  Lower.assemble (Assemble.resolve .code)
  Lower.assemble (Assemble.resolve .init)
  let (s, m) ← read
  let l ← getThe Lowering
  return { version := Compiled.formatVersion, name := m.name, file := m.file, imports := m.imports,
           space := some (s.exportModule m), constants := pool.constants,
           init := ← Lower.assemble (Assemble.bytes .init), code := ← Lower.assemble (Assemble.bytes .code),
           initLines := ← Lower.assemble (Assemble.lines .init), lines := ← Lower.assemble (Assemble.lines .code),
           funcs := l.entries.map fun (f, n) =>
             { name := (s.func f).fullName, pos := (l.asm.instr n).pos } }

theorem Lower.finish_eq : Lower.finish = (do
    (← getThe Lowering).direct.forM Lower.makeDirect
    Lower.layOut) := rfl

private theorem runs_bytes {s : Section} {a b : Assembly} {bs : List UInt8}
    (h : Runs (Assemble.bytes s) a bs b) : bs = (a.listing s).flatMap Instruction.encode ∧ b = a := by
  unfold Assemble.bytes at h
  rw [runs_get_bind] at h
  by_cases hr : (!(a.stream s).resolved) = true
  · rw [if_pos hr] at h
    simp at h
  · rw [if_neg hr] at h
    exact runs_pure.mp h

/-- Constants are moved in one section. -/
private theorem views_remap (direct : FuncId → Prop) (code : Section → List Piece) (cs cs' : List Constant)
    {ps : Array (Option Nat)} {s : Section} {u : PUnit} (hd : Distinct l.asm) (hv : ∀ (i : Nat) q, (code s)[i]? = some q →
      ∃ n x, (l.asm.stream s).order.toList[i]? = some n ∧ l.asm.instrs[n]? = some x ∧ Linked direct cs x q)
    (hps : ∀ {i j : Nat}, ps[i]? = some (some j) → ∃ c, cs[i]? = some c ∧ cs'[j]? = some c)
    (h : Runs (((l.asm.stream s).order.forM (Lower.remap ps) : Lower PUnit) c) l u l') :
    l' = { l with asm := l'.asm } ∧ (∀ t, l'.asm.stream t = l.asm.stream t) ∧
      (∀ n, n ∉ (l.asm.stream s).order.toList → l'.asm.instrs[n]? = l.asm.instrs[n]?) ∧
      (∀ (n : Nat) (x : Instruction), l.asm.instrs[n]? = some x →
        ∃ y : Instruction, l'.asm.instrs[n]? = some y ∧ y.op = x.op ∧ (x.op.pool = none → y = x)) ∧
      ∀ (i : Nat) q, (code s)[i]? = some q → ∃ n x, (l.asm.stream s).order.toList[i]? = some n ∧
        l'.asm.instrs[n]? = some x ∧ Linked direct cs' x q := by
  rw [forM_toList, Lower.forM_apply] at h
  obtain ⟨he, hs, hout, hin⟩ := alters_forM (fun h => alters_remap h) (nodup_of_distinct hd s) h
  refine ⟨he, hs, hout, ?_, ?_⟩
  · intro n x hx
    by_cases hn : n ∈ (l.asm.stream s).order.toList
    · obtain ⟨y, hy, hxy⟩ := hin n hn x hx
      rcases hxy with ⟨-, rfl⟩ | ⟨_, _, _, hp, -, -, hset⟩
      · exact ⟨y, hy, rfl, fun _ => rfl⟩
      · obtain ⟨_, _, _, rfl⟩ := Assemble.setOperand_ok hset
        exact ⟨_, hy, rfl, fun hnone => by simp [hnone] at hp⟩
    · exact ⟨x, by rw [hout n hn, hx], rfl, fun _ => rfl⟩
  · intro i q hq
    obtain ⟨n, x, hn, hx, hlink⟩ := hv i q hq
    obtain ⟨y, hy, hxy⟩ := hin n (List.mem_of_getElem? hn) x hx
    exact ⟨n, y, hn, hy, hlink.remap hxy hps⟩

/-- Instructions that agree with linked ones in their opcodes and in the arguments of calls. -/
private theorem direct_of_linked {direct : FuncId → Prop} (cs : List Constant) {code : List Piece}
    {xs : List Instruction} (h : ∀ (i : Nat) q, code[i]? = some q → ∃ x z, xs[i]? = some z ∧ z.op = x.op ∧
      (q.op = .callPtr → z.operands[1]? = x.operands[1]?) ∧ Linked direct cs x q ∧
      (q.Calls direct → (q.op = .getFunc ∨ q.op = .callPtr) ∧ linkedOp x.op)) :
    Direct direct code xs := by
  refine ⟨?_, ?_, ?_, ?_⟩
  · intro i q z hq hz hn
    obtain ⟨x, z', hz', hop, -, hlink, -⟩ := h i q hq
    obtain rfl : z = z' := Option.some.inj (hz.symm.trans hz')
    cases hlink with
    | same hm => rw [hop, hm.op]
    | got _ _ _ _ calls => exact absurd calls hn
    | called _ _ _ _ calls => exact absurd calls hn
  · intro i q z hq hz hcalls hget
    obtain ⟨x, z', hz', hop, -, hlink, hdirect⟩ := h i q hq
    obtain rfl : z = z' := Option.some.inj (hz.symm.trans hz')
    cases hlink with
    | same hm =>
      have := (hdirect hcalls).2
      simp [hm.op, hget, linkedOp] at this
    | got _ hx => rw [hop, hx]
    | called hq' => simp [hget] at hq'
  · intro i q z hq hz hcalls hcall
    obtain ⟨x, z', hz', hop, hargs, hlink, hdirect⟩ := h i q hq
    obtain rfl : z = z' := Option.some.inj (hz.symm.trans hz')
    cases hlink with
    | same hm =>
      have := (hdirect hcalls).2
      simp [hm.op, hcall, linkedOp] at this
    | got hq' => simp [hcall] at hq'
    | called _ hx _ _ _ args => exact ⟨hop.trans hx, (hargs hcall).trans args⟩
  · intro q hq hcalls
    obtain ⟨i, hi⟩ := List.mem_iff_getElem?.mp hq
    obtain ⟨_, _, -, -, -, -, hdirect⟩ := h i q hi
    exact (hdirect hcalls).1

/-- The instructions of a module that is laid out: those of the code of its two sections, with positions. Opcodes and the
arguments of calls stay what they were, and patches are applied. -/
theorem runs_layOut (hl : Laid l₀ code) (hlink : Linking l₀ code l₀.pool.constants l.asm)
    (hpool : l.pool.constants = l₀.pool.constants)
    (honce : ∀ s, ∀ p ∈ (l.asm.stream s).patches, ∀ p' ∈ (l.asm.stream s).patches, p.instr = p'.instr → p = p')
    (hentry : ∀ s, ∀ p ∈ (l.asm.stream s).patches, ∃ dst ∈ l₀.order .code, ∀ pos, p.value pos = pos dst) (h : Runs (Lower.layOut c) l out l') :
    ∃ (xs : Section → List Instruction) (pos : Nat → Int),
      (∀ s, Final out.constants (code s) (xs s)) ∧
      (∀ s (i : Nat) q n x, (code s)[i]? = some q → (l₀.order s)[i]? = some n → l.asm.instrs[n]? = some x →
        ∃ z : Instruction, (xs s)[i]? = some z ∧ z.op = x.op ∧ z.pos = pos n ∧
          (q.op = .callPtr → z.operands[1]? = x.operands[1]?)) ∧
      (∀ s, ∀ p ∈ (l.asm.stream s).patches, ∃ (i : Nat) (z : Instruction), (l₀.order s)[i]? = some p.instr ∧
        (xs s)[i]? = some z ∧ z.operands[0]? = some (p.value pos)) ∧
      out.constants = l.pool.compact.2.constants ∧
      out.init = (xs .init).flatMap Instruction.encode ∧ out.code = (xs .code).flatMap Instruction.encode ∧
      out.funcs = l.entries.map fun e => ⟨(c.1.func e.1).fullName, pos e.2⟩ := by
  unfold Lower.layOut at h
  rw [Lower.runs_get_bind] at h
  rcases hcompact : l.pool.compact with ⟨ps, pool⟩
  simp only [hcompact, Lower.runs_modify_bind] at h
  obtain ⟨_, l₄, h2, h⟩ := Lower.runs_bind.mp h
  simp only [List.forIn_cons, List.forIn_nil, bind_assoc, pure_bind, Lower.runs_get_bind] at h2
  obtain ⟨_, l₃, h3, h2⟩ := Lower.runs_bind.mp h2
  rw [Lower.runs_get_bind] at h2
  obtain ⟨_, _, h4, h2⟩ := Lower.runs_bind.mp h2
  obtain ⟨-, rfl⟩ := Lower.runs_pure.mp h2
  obtain ⟨_, l₅, h5, h⟩ := Lower.runs_bind.mp h
  obtain ⟨_, l₆, h6, h⟩ := Lower.runs_bind.mp h
  rw [Lower.runs_read_bind, Lower.runs_get_bind] at h
  obtain ⟨ib, l₇, h7, h⟩ := Lower.runs_bind.mp h
  obtain ⟨cb, l₈, h8, h⟩ := Lower.runs_bind.mp h
  obtain ⟨_, l₉, h9, h⟩ := Lower.runs_bind.mp h
  obtain ⟨_, _, h10, h⟩ := Lower.runs_bind.mp h
  obtain ⟨rfl, -⟩ := Lower.runs_pure.mp h
  obtain ⟨asm₇, hb7, rfl⟩ := Lower.runs_assemble.mp h7
  obtain ⟨rfl, rfl⟩ := runs_bytes hb7
  obtain ⟨asm₈, hb8, rfl⟩ := Lower.runs_assemble.mp h8
  obtain ⟨rfl, rfl⟩ := runs_bytes hb8
  have hps : ∀ {i j : Nat}, ps.toArray[i]? = some (some j) →
      ∃ v, l₀.pool.constants[i]? = some v ∧ pool.constants[j]? = some v := by
    intro i j hi
    rw [← hpool]
    exact Pool.compact_spec hcompact (by simpa using hi)
  -- constants are moved in the initialisation, then in the functions
  obtain ⟨he₃, hs₃, hout₃, hop₃, hv₃⟩ := views_remap (l := { l with pool }) l₀.direct? code
    l₀.pool.constants pool.constants hlink.distinct (hlink.views .init) hps h3
  have hdist₃ : Distinct l₃.asm := hlink.distinct.same fun t => by rw [hs₃]
  have hother : ∀ {s t : Section} {i n : Nat}, s ≠ t → (l.asm.stream s).order.toList[i]? = some n →
      n ∉ (l.asm.stream t).order.toList := by
    intro s t i n hst hn hmem
    obtain ⟨j, hj⟩ := List.mem_iff_getElem?.mp hmem
    exact hst (hlink.distinct s t i j n hn hj).1
  obtain ⟨he₄, hs₄, hout₄, hop₄, hv₄⟩ := views_remap (s := .code) l₀.direct? code
    l₀.pool.constants pool.constants hdist₃ (by
      intro i q hq
      obtain ⟨n, x, hn, hx, hlinked⟩ := hlink.views .code i q hq
      exact ⟨n, x, by rw [hs₃]; exact hn, by rw [hout₃ n (hother (by decide) hn), hx], hlinked⟩) hps h4
  have hstream : ∀ t, l₄.asm.stream t = l.asm.stream t := fun t => by rw [hs₄, hs₃]
  have hdist₄ : Distinct l₄.asm := hlink.distinct.same fun t => by rw [hstream]
  have hviews : Views (Linked l₀.direct? pool.constants) code l₄.asm := by
    intro s i q hq
    cases s with
    | init =>
      obtain ⟨n, x, hn, hx, hlinked⟩ := hv₃ i q hq
      refine ⟨n, x, by rw [hstream]; exact hn, ?_, hlinked⟩
      rw [hout₄ n, hx]
      rw [hs₃]
      exact hother (by decide) hn
    | code =>
      obtain ⟨n, x, hn, hx, hlinked⟩ := hv₄ i q hq
      exact ⟨n, x, by rw [hs₄]; exact hn, hx, hlinked⟩
  have hmoved : ∀ (n : Nat) (x : Instruction), l.asm.instrs[n]? = some x →
      ∃ y : Instruction, l₄.asm.instrs[n]? = some y ∧ y.op = x.op ∧ (x.op.pool = none → y = x) := by
    intro n x hx
    obtain ⟨y, hy, hyop, hyx⟩ := hop₃ n x hx
    obtain ⟨z, hz, hzop, hzy⟩ := hop₄ n y hy
    refine ⟨z, hz, hzop.trans hyop, fun hnone => ?_⟩
    rw [hzy (hyop ▸ hnone), hyx hnone]
  have hpatches : ∀ s, ∀ p ∈ (l₄.asm.stream s).patches, p.operand = 0 ∧
      (∃ (i : Nat) (q : Piece), (code s)[i]? = some q ∧ q.op = .callPtr ∧
        (l₄.asm.stream s).order.toList[i]? = some p.instr) ∧
      ∃ x, l₄.asm.instrs[p.instr]? = some x ∧ x.op = .call := by
    intro s p hp
    rw [hstream] at hp ⊢
    obtain ⟨hzero, hplace, x, hx, hop⟩ := hlink.patches s p hp
    obtain ⟨y, hy, hyop, -⟩ := hmoved _ x hx
    exact ⟨hzero, hplace, y, hy, hyop.trans hop⟩
  have horder : ∀ s, (l₄.asm.stream s).order.toList = l₀.order s := by
    intro s
    rw [hstream, hlink.order]
    rfl
  have hrequests : ∀ s r, r ∈ (l₄.asm.stream s).requests ↔ ∃ (i j : Nat) (q : Piece) (d : Int),
      (code s)[i]? = some q ∧ q.goal = some (.ahead d) ∧ (j : Int) = i + d ∧
      (l₄.asm.stream s).order.toList[i]? = some r.src ∧
      (l₄.asm.stream s).order.toList[j]? = some r.dst ∧ r.operand = q.offsetIndex := by
    intro s r
    rw [horder, hstream, hlink.requests]
    exact hl.requests
  have hlen : ∀ s, (l₄.asm.stream s).order.toList.length = (code s).length := by
    intro s
    rw [horder]
    exact hl.count s
  -- the functions are resolved, then the initialisation
  obtain ⟨asm₅, hr5, rfl⟩ := Lower.runs_assemble.mp h5
  obtain ⟨asm₆, hr6, rfl⟩ := Lower.runs_assemble.mp h6
  obtain ⟨hcode, hlist₅, hpatch₅, hsame₅, hstream₅, hout₅⟩ := final_resolve (s := .code) _ _ _ hdist₄ (hlen .code)
    (hviews .code) (hrequests .code) (hpatches .code) (by rw [hstream]; exact honce .code)
    (fun hq hg => hl.inside hq hg) hr5
  have hi₅ : asm₅.stream .init = l₄.asm.stream .init := hstream₅ .init (by decide)
  have hkeep : ∀ {n : Nat}, n ∈ (l₄.asm.stream .init).order.toList → asm₅.instrs[n]? = l₄.asm.instrs[n]? := by
    intro n hn
    obtain ⟨i, hi⟩ := List.mem_iff_getElem?.mp hn
    apply hout₅
    intro hmem
    obtain ⟨j, hj⟩ := List.mem_iff_getElem?.mp hmem
    exact absurd (hdist₄ .init .code i j n hi hj).1 (by decide)
  obtain ⟨hinit, hlist₆, hpatch₆, hsame₆, hstream₆, hout₆⟩ := final_resolve (s := .init) l₀.direct? pool.constants
    (code .init) (hdist₄.same hsame₅) (by rw [hi₅]; exact hlen .init) (by
      intro i q hq
      obtain ⟨n, x, hn, hx, hlinked⟩ := hviews .init i q hq
      exact ⟨n, x, by rw [hi₅]; exact hn, by rw [hkeep (List.mem_of_getElem? hn), hx], hlinked⟩) (by
      rw [hi₅]
      exact hrequests .init) (by
      rw [hi₅]
      intro p hp
      obtain ⟨hzero, ⟨i, q, hi, hq, hn⟩, hx⟩ := hpatches .init p hp
      rw [hkeep (List.mem_of_getElem? hn)]
      exact ⟨hzero, ⟨i, q, hi, hq, hn⟩, hx⟩) (by rw [hi₅, hstream]; exact honce .init)
    (fun hq hg => hl.inside hq hg) hr6
  have hinstr : ∀ n ∈ (l₄.asm.stream .code).order.toList, asm₆.instr n = asm₅.instr n := by
    intro n hn
    obtain ⟨i, hi⟩ := List.mem_iff_getElem?.mp hn
    have : asm₆.instrs[n]? = asm₅.instrs[n]? := by
      apply hout₆
      intro hmem
      obtain ⟨j, hj⟩ := List.mem_iff_getElem?.mp hmem
      rw [← hsame₅] at hi
      exact absurd (hdist₄.same hsame₅ .code .init i j n hi hj).1 (by decide)
    simp only [Assembly.instr, this]
  have hlisting : asm₆.listing .code = asm₅.listing .code := by
    rw [Assembly.listing, Assembly.listing, hstream₆ .code (by decide), hsame₅]
    exact List.map_congr_left hinstr
  have horder₆ : ∀ s, (asm₆.stream s).order.toList = l₀.order s := by
    intro s
    cases s with
    | init => rw [hsame₆, hsame₅, horder]
    | code => rw [hstream₆ .code (by decide), hsame₅, horder]
  have hshows : ∀ {s : Section} {i n : Nat}, (l₀.order s)[i]? = some n →
      (asm₆.listing s)[i]? = some (asm₆.instr n) := by
    intro s i n hn
    simp only [Assembly.listing, horder₆, List.getElem?_map, hn, Option.map_some]
  refine ⟨fun s => asm₆.listing s, fun n => (asm₆.instr n).pos, ?_, ?_, ?_, rfl, rfl, rfl, ?_⟩
  · intro s
    cases s with
    | init => exact hinit
    | code =>
      change Final pool.constants (code .code) (asm₆.listing .code)
      rw [hlisting]
      exact hcode
  · intro s i q n x hq hn hx
    obtain ⟨y, hy, hyop, hyx⟩ := hmoved n x hx
    have hargs : q.op = .callPtr → y.operands[1]? = x.operands[1]? := by
      intro hcall
      obtain ⟨n', x', hn', hx', hlinked⟩ := hlink.views s i q hq
      obtain rfl : n = n' := Option.some.inj (hn.symm.trans (by rw [hlink.order] at hn'; exact hn'))
      obtain rfl : x = x' := Option.some.inj (hx.symm.trans hx')
      rw [hyx]
      cases hlinked with
      | same hm => rw [hm.op, hcall]; rfl
      | got hget => simp [hcall] at hget
      | called _ hxop => rw [hxop]; rfl
    have hn₄ : (l₄.asm.stream s).order.toList[i]? = some n := by rw [horder]; exact hn
    cases s with
    | init =>
      obtain ⟨z, hz, hop, hzargs⟩ := hlist₆ i q n y hq (by rw [hi₅]; exact hn₄)
        (by rw [hkeep (List.mem_of_getElem? hn₄), hy])
      refine ⟨z, hz, hop.trans hyop, ?_, fun hcall => (hzargs hcall).trans (hargs hcall)⟩
      rw [Option.some.inj (hz.symm.trans (hshows hn))]
    | code =>
      obtain ⟨z, hz, hop, hzargs⟩ := hlist₅ i q n y hq hn₄ hy
      refine ⟨z, (congrArg (·[i]?) hlisting).trans hz, hop.trans hyop, ?_,
        fun hcall => (hzargs hcall).trans (hargs hcall)⟩
      rw [Option.some.inj (hz.symm.trans ((congrArg (·[i]?) hlisting).symm.trans (hshows hn)))]
  · intro s p hp
    have hp₄ : p ∈ (l₄.asm.stream s).patches := by rwa [hstream]
    obtain ⟨-, ⟨i, q, hq, -, hi⟩, -⟩ := hpatches s p hp₄
    refine ⟨i, asm₆.instr p.instr, by rwa [horder] at hi, hshows (by rwa [horder] at hi), ?_⟩
    cases s with
    | init => exact hpatch₆ p (by rwa [hi₅])
    | code =>
      obtain ⟨dst, hdst, hvalue⟩ := hentry .code p hp
      rw [hinstr p.instr (List.mem_of_getElem? hi), hpatch₅ p hp₄, hvalue, hvalue, hinstr dst (by rwa [horder])]
  · have hlast : l₄.entries = l.entries := by rw [he₄, he₃]
    simp only [hlast]

/-- The finished module has the instructions of the code of its two sections. Direct calls lead to the entries of their
functions. -/
theorem runs_finish (hl : Laid l code) (hentries : ∀ e ∈ l.entries, e.2 ∈ l.order .code)
    (h : Runs (Lower.finish c) l out l') :
    ∃ (xs : Section → List Instruction) (pos : Nat → Int),
      (∀ s, Final out.constants (code s) (xs s)) ∧ (∀ s, Direct l.direct? (code s) (xs s)) ∧
      (∀ s (i : Nat) q f entry, (code s)[i]? = some q → q.op = .callPtr → q.callee = some f →
        l.startOf? f = some entry → ∃ z, (xs s)[i]? = some z ∧ z.operands[0]? = some (pos entry)) ∧
      out.init = (xs .init).flatMap Instruction.encode ∧ out.code = (xs .code).flatMap Instruction.encode ∧
      out.funcs = l.entries.map (fun e => ⟨(c.1.func e.1).fullName, pos e.2⟩) ∧
      ∀ (i n : Nat), (l.order .code)[i]? = some n → ∃ x, (xs .code)[i]? = some x ∧ x.pos = pos n := by
  rw [Lower.finish_eq, Lower.runs_get_bind] at h
  obtain ⟨_, l₁, h1, h⟩ := Lower.runs_bind.mp h
  rw [Lower.forM_apply] at h1
  obtain ⟨hlink, hpool, hsame, hends⟩ := hl.makeDirects h1
  have hpatches : ∀ s p, p ∈ (l₁.asm.stream s).patches ↔ ∃ d ∈ l.direct, d.part = s ∧
      ∃ entry, l.startOf? d.func = some entry ∧ p = .position d.call entry 0 := by
    intro s p
    rw [patches_makeDirects h1, hl.patches]
    simp
  obtain ⟨xs, pos, hfinal, hkept, hpatched, -, hinit, hcode, hfuncs⟩ := runs_layOut hl hlink hpool (by
    intro s p hp p' hp' heq
    obtain ⟨d, hd, -, entry, hlook, rfl⟩ := (hpatches s p).mp hp
    obtain ⟨d', hd', -, entry', hlook', rfl⟩ := (hpatches s p').mp hp'
    obtain rfl := List.inj_on_of_nodup_map hl.calls hd hd' heq
    rw [Option.some.inj (hlook.symm.trans hlook')]) (by
    intro s p hp
    obtain ⟨d, -, -, entry, hlook, rfl⟩ := (hpatches s p).mp hp
    obtain ⟨before, after, hsplit, -⟩ := List.lookup_eq_some_iff.mp hlook
    exact ⟨entry, hentries (d.func, entry) (List.mem_reverse.mp (by simp [hsplit])), fun _ => rfl⟩) h
  -- the instruction of a piece before and after
  have hplace : ∀ s (i : Nat) q, (code s)[i]? = some q → ∃ n x z, (l.order s)[i]? = some n ∧
      l₁.asm.instrs[n]? = some x ∧ Linked l.direct? l.pool.constants x q ∧ (xs s)[i]? = some z ∧ z.op = x.op ∧
      z.pos = pos n ∧ (q.op = .callPtr → z.operands[1]? = x.operands[1]?) := by
    intro s i q hq
    obtain ⟨n, x, hn, hx, hlinked⟩ := hlink.views s i q hq
    rw [hlink.order] at hn
    obtain ⟨z, hz, hop, hpos, hargs⟩ := hkept s i q n x hq hn hx
    exact ⟨n, x, z, hn, hx, hlinked, hz, hop, hpos, hargs⟩
  refine ⟨xs, pos, hfinal, ?_, ?_, hinit, hcode, by rw [hfuncs, hsame], ?_⟩
  · intro s
    refine direct_of_linked l.pool.constants ?_
    intro i q hq
    obtain ⟨n, x, z, hn, hx, hlinked, hz, hop, -, hargs⟩ := hplace s i q hq
    exact ⟨x, z, hz, hop, hargs, hlinked, hends s i q n x hq hn hx⟩
  · intro s i q f entry hq hcall hf hlook
    obtain ⟨d, hd, rfl, ⟨hop, -⟩ | ⟨-, hat⟩⟩ := hl.named hq hf
    · simp [hcall] at hop
    · have hpart : d.part = s := by
        obtain ⟨-, j, r, -, hj, -⟩ := hl.direct d hd
        exact (hl.distinct hj hat).1
      obtain ⟨j, z, hj, hz, hpos⟩ := hpatched s (.position d.call entry 0) ((hpatches s _).mpr ⟨d, hd, hpart, entry, hlook, rfl⟩)
      obtain ⟨-, rfl⟩ := hl.distinct hat hj
      exact ⟨z, hz, hpos⟩
  · intro i n hn
    have hlt : i < (code .code).length := by
      rw [← hl.count]
      exact (List.getElem?_eq_some_iff.mp hn).1
    obtain ⟨n', x, z, hn', -, -, hz, -, hpos, -⟩ := hplace .code i _ (List.getElem?_eq_getElem hlt)
    obtain rfl : n = n' := Option.some.inj (hn.symm.trans hn')
    exact ⟨z, hz, hpos⟩

/-- The value of the first pair with a key. -/
theorem lookup_eq_idxOf {α β : Type} [DecidableEq α] (es : List (α × β)) (a : α) :
    es.lookup a = (es[(es.map Prod.fst).idxOf a]?).map Prod.snd := by
  induction es with
  | nil => rfl
  | cons e es ih =>
    by_cases h : a = e.1
    · simp [List.lookup, h]
    · have hne : ¬e.1 = a := fun heq => h heq.symm
      have hbeq : (a == e.1) = false := beq_eq_false_iff_ne.mpr h
      simp [List.lookup, hbeq, hne, ih]

theorem fst_entries {p : Typed.Program} (h : (l.entries.map fun e => (e.1, some e.2)) =
      (entryPlaces c 0 p.funcs).map fun e => (e.1, (l.order .code)[e.2]?)) :
    l.entries.map Prod.fst = p.funcs.map Typed.FuncDecl.symbol := by
  have hfst := congrArg (List.map Prod.fst) h
  simpa only [List.map_map, Function.comp_def, map_fst_entryPlaces] using hfst

theorem direct?_eq {fs : List FuncId} (h : l.entries.map Prod.fst = fs) : l.direct? = (· ∈ fs) := by
  funext f
  rw [Lowering.direct?, Lowering.startOf?, List.lookup_isSome_iff, ← h, List.mem_map]
  simp only [List.mem_reverse, beq_iff_eq, eq_comm (a := f)]

theorem compile_runs {st : Store} {m : Module} {p : Typed.Program} (h : compile st m p = .ok out) :
    ∃ l l', Runs (Lower.program p (st, m)) .start () l ∧ Runs (Lower.finish (st, m)) l out l' := by
  let run : Lower Compiled := do
    Lower.program p
    Lower.finish
  have hrun : Runs (run (st, m)) .start out (run (st, m) .start).2 := by
    change run (st, m) .start = (.ok out, (run (st, m) .start).2)
    rw [← h]
    rfl
  obtain ⟨_, l, h1, h2⟩ := Lower.runs_bind.mp hrun
  exact ⟨l, _, h1, h2⟩

/-- The instructions of a compiled program: those of its code, with positions. The calls of the functions
of the program are direct and lead to the functions. -/
theorem compile_linked {st : Store} {m : Module} {p : Typed.Program} (h : compile st m p = .ok out) :
    ∃ xs : Section → List Instruction,
      (∀ s, Final out.constants (programCode (st, m) p s) (xs s)) ∧
      (∀ s, Direct (· ∈ p.funcs.map Typed.FuncDecl.symbol) (programCode (st, m) p s) (xs s)) ∧
      (∀ s (i : Nat) q f, (programCode (st, m) p s)[i]? = some q → q.op = .callPtr → q.callee = some f →
        f ∈ p.funcs.map Typed.FuncDecl.symbol → ∃ z entry,
          (xs s)[i]? = some z ∧ out.funcs.reverse[(p.funcs.map Typed.FuncDecl.symbol).reverse.idxOf f]? = some entry ∧
          entry.name = (st.func f).fullName ∧ z.operands[0]? = some entry.pos) ∧
      out.init = (xs .init).flatMap Instruction.encode ∧ out.code = (xs .code).flatMap Instruction.encode ∧
      out.funcs.map (fun f => (f.name, some f.pos)) = (entryPlaces (st, m) 0 p.funcs).map (fun e =>
        ((st.func e.1).fullName, (xs .code)[e.2]?.map Instruction.pos)) ∧
      ∀ f ∈ p.funcs, Compilable (st, m) f := by
  obtain ⟨l, _, h1, h2⟩ := compile_runs h
  obtain ⟨hlaid, hentries, hbodies⟩ := runs_program h1
  have hplaced : ∀ e ∈ l.entries, ∃ k, (e.1, k) ∈ entryPlaces (st, m) 0 p.funcs ∧ (l.order .code)[k]? = some e.2 := by
    intro e he
    have hmem : (e.1, some e.2) ∈ (entryPlaces (st, m) 0 p.funcs).map fun e => (e.1, (l.order .code)[e.2]?) :=
      hentries ▸ List.mem_map_of_mem (f := fun e : FuncId × Nat => (e.1, some e.2)) he
    obtain ⟨e', he', heq⟩ := List.mem_map.mp hmem
    obtain ⟨hfst, hsnd⟩ := Prod.mk.inj heq
    exact ⟨e'.2, hfst ▸ he', hsnd⟩
  obtain ⟨xs, pos, hfinal, hdirect, hcalls, hinit, hcode, hfuncs, hplace⟩ := runs_finish hlaid (fun e he => by
    obtain ⟨k, -, hk⟩ := hplaced e he
    exact List.mem_of_getElem? hk) h2
  have hfst := fst_entries hentries
  have hknown := direct?_eq hfst
  refine ⟨xs, hfinal, hknown ▸ hdirect, ?_, hinit, hcode, ?_, hbodies⟩
  · intro s i q f hq hcall hf hmem
    obtain ⟨entry, hlook⟩ : ∃ entry, l.startOf? f = some entry := by
      rw [← Option.isSome_iff_exists]
      exact (congrFun hknown f).mpr hmem
    obtain ⟨z, hz, hpos⟩ := hcalls s i q f entry hq hcall hf hlook
    rw [Lowering.startOf?, lookup_eq_idxOf, List.map_reverse, hfst, Option.map_eq_some_iff] at hlook
    obtain ⟨e, he, rfl⟩ := hlook
    have hself : e.1 = f := by
      have hat : (l.entries.reverse.map Prod.fst)[(p.funcs.map Typed.FuncDecl.symbol).reverse.idxOf f]? = some f := by
        rw [List.map_reverse, hfst, List.getElem?_idxOf (List.mem_reverse.mpr hmem)]
      rw [List.getElem?_map, he] at hat
      exact Option.some.inj hat
    exact ⟨z, ⟨(st.func e.1).fullName, pos e.2⟩, hz, by rw [hfuncs, ← List.map_reverse, List.getElem?_map, he]; rfl, by rw [hself], hpos⟩
  · have hmap := congrArg (List.map fun e : FuncId × Option Nat => ((st.func e.1).fullName, e.2.map pos)) hentries
    simp only [List.map_map] at hmap
    rw [hfuncs, List.map_map]
    refine Eq.trans ?_ (hmap.trans ?_)
    · rfl
    · apply List.map_congr_left
      intro e he
      have hmem : (e.1, (l.order .code)[e.2]?) ∈ l.entries.map fun e => (e.1, some e.2) := by
        rw [hentries]
        exact List.mem_map.mpr ⟨e, he, rfl⟩
      obtain ⟨e', -, heq⟩ := List.mem_map.mp hmem
      have hn := (Prod.mk.inj heq).2.symm
      obtain ⟨x, hx, hpos⟩ := hplace e.2 e'.2 hn
      simp [hn, hx, hpos]

/-- The instructions of a compiled program: those of its code, with positions. -/
theorem compile_final {st : Store} {m : Module} {p : Typed.Program} (h : compile st m p = .ok out) :
    ∃ xs : Section → List Instruction,
      (∀ s, Final out.constants (programCode (st, m) p s) (xs s)) ∧
      out.init = (xs .init).flatMap Instruction.encode ∧ out.code = (xs .code).flatMap Instruction.encode ∧
      out.funcs.map (fun f => (f.name, some f.pos)) = (entryPlaces (st, m) 0 p.funcs).map (fun e =>
        ((st.func e.1).fullName, (xs .code)[e.2]?.map Instruction.pos)) ∧
      ∀ f ∈ p.funcs, Compilable (st, m) f := by
  obtain ⟨xs, hfinal, -, -, hrest⟩ := compile_linked h
  exact ⟨xs, hfinal, hrest⟩

end Finish

end Weft.Bytecode
