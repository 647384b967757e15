import Weft.Proofs.Bytecode.Geometry

/-!
# Streams and their bytes

Whatever calls a stream has seen, also calls that ended in a violation: once it is resolved, its
instructions stand at the sums of the sizes before them, every operand that a request was the last to set
leads to the position it was asked for, and the bytes are read back as the instructions that are no marks.
Bytes that are read without a problem are the bytes of a stream of the instructions read.
-/

namespace Weft.Bytecode

open Number (pow2)

/-! ## Operands that were read -/

/-- The sign of an operand that is read is its highest bit. -/
theorem decodeOperand_cases (bs : List UInt8) (h : 0 < bs.length) :
    -(pow2 (8 * bs.length - 1) : Int) ≤ decodeOperand bs ∧ decodeOperand bs < pow2 (8 * bs.length - 1) ∧
      (decodeOperand bs % pow2 (8 * bs.length)).toNat = Number.ofLowBytes bs := by
  have hlt := Number.ofLowBytes_lt bs
  rw [← Number.pow2_eight_mul] at hlt
  have hsplit : pow2 (8 * bs.length) = pow2 (8 * bs.length - 1) * 2 := by
    rw [← Number.pow2_succ]
    congr 1
    omega
  simp only [decodeOperand]
  split
  · have hm : (Number.ofLowBytes bs : Int) % pow2 (8 * bs.length) = Number.ofLowBytes bs :=
      Int.emod_eq_of_lt (by omega) (by omega)
    rw [hm]
    omega
  · have hm : ((Number.ofLowBytes bs : Int) - pow2 (8 * bs.length)) % pow2 (8 * bs.length) =
        Number.ofLowBytes bs := by
      rw [Int.sub_emod_right]
      exact Int.emod_eq_of_lt (by omega) (by omega)
    rw [hm]
    omega

theorem fits_decodeOperand (bs : List UInt8) (h : 0 < bs.length ∧ bs.length ≤ 8) : fits (decodeOperand bs) bs.length := by
  obtain ⟨hlo, hhi, -⟩ := decodeOperand_cases bs h.1
  have hw : ¬(bs.length = 0 ∨ 8 < bs.length) := by omega
  simp only [fits, operandRange, hw, if_false, Bool.and_eq_true, decide_eq_true_eq]
  omega

theorem encodeOperand_decodeOperand (bs : List UInt8) (h : 0 < bs.length) :
    encodeOperand bs.length (decodeOperand bs) = bs := by
  rw [encodeOperand, (decodeOperand_cases bs h).2.2, Number.lowBytes_ofLowBytes]

/-- The operands at the start of a list of bytes are as many as their widths, and fit them. -/
theorem splitOperands_spec {ws : List Nat} (bs : Bytes) (hw : ∀ w ∈ ws, 0 < w ∧ w ≤ 8)
    (hlen : ws.foldr (fun w n => w + n) 0 ≤ bs.length) :
    (splitOperands ws bs).length = ws.length ∧ (∀ p ∈ ws.zip (splitOperands ws bs), fits p.2 p.1) ∧
      encodeOperands ws (splitOperands ws bs) = bs.take (ws.foldr (fun w n => w + n) 0) := by
  induction ws generalizing bs with
  | nil => simp [splitOperands, encodeOperands]
  | cons w ws ih =>
    simp only [List.foldr_cons] at hlen ⊢
    have hhead : (bs.take w).length = w := by
      rw [List.length_take]
      omega
    have hbounds := hw w (by simp)
    obtain ⟨hcount, hfit, hbytes⟩ := ih (bs.drop w) (fun v hv => hw v (by simp [hv])) (by
      rw [List.length_drop]
      omega)
    refine ⟨by simp [splitOperands, hcount], ?_, ?_⟩
    · intro p hp
      rw [splitOperands, List.zip_cons_cons, List.mem_cons] at hp
      rcases hp with rfl | hp
      · have := fits_decodeOperand (bs.take w) (by rw [hhead]; exact hbounds)
        rwa [hhead] at this
      · exact hfit p hp
    · have hfirst : encodeOperand w (decodeOperand (bs.take w)) = bs.take w := by
        have := encodeOperand_decodeOperand (bs.take w) (by omega)
        rwa [hhead] at this
      calc encodeOperands (w :: ws) (splitOperands (w :: ws) bs)
          = encodeOperand w (decodeOperand (bs.take w)) ++ encodeOperands ws (splitOperands ws (bs.drop w)) := by
            simp [encodeOperands, splitOperands]
        _ = bs.take w ++ (bs.drop w).take (ws.foldr (fun w n => w + n) 0) := by rw [hfirst, hbytes]
        _ = bs.take (w + ws.foldr (fun w n => w + n) 0) := by rw [List.take_add]

/-- An instruction of an opcode and operands that were read, on some line. -/
def Decoded.instruction (d : Decoded) (line pos : Int) : Instruction := ⟨d.op, d.operands, line, pos⟩

theorem Opcode.byte_of_ofByte? {b : UInt8} {op : Opcode} (h : Opcode.ofByte? b = some op) : op.byte = b := by
  simpa using List.find?_some h

/-- Code that is read without a problem consists of the encodings of the instructions that are read. -/
theorem encode_decodeFrom {code : Bytes} {pos : Nat} {ds : List Decoded} (h : decodeFrom pos code = (ds, none)) :
    (∀ d ∈ ds, d.op ≠ .mark ∧ ∀ line pos, (d.instruction line pos).Sound) ∧
      ds.flatMap (fun d => (d.instruction 0 0).encode) = code := by
  fun_induction decodeFrom pos code generalizing ds with
  | case1 pos =>
    obtain rfl : ds = [] := by simpa [eq_comm] using h
    simp
  | case2 pos b bs hb => simp at h
  | case3 pos b bs hb => simp at h
  | case4 pos b bs op hop hb hshort => simp at h
  | case5 pos b bs op hmark hop size hlong rest problem hrest =>
    rename_i ih
    rw [Prod.mk.injEq] at h
    obtain ⟨rfl, rfl⟩ := h
    obtain ⟨hsound, hcode⟩ := ih hrest
    have hne : op ≠ .mark := fun hm => hmark hm
    obtain ⟨hcount, hfit, hbytes⟩ := splitOperands_spec bs op.widths_bounds (Nat.le_of_not_lt hlong)
    refine ⟨?_, ?_⟩
    · intro d hd
      rcases List.mem_cons.mp hd with rfl | hd
      · exact ⟨hne, fun line pos => ⟨hcount, hfit⟩⟩
      · exact hsound d hd
    · have hfirst : (Decoded.instruction ⟨pos, op, splitOperands op.widths bs⟩ 0 0).encode = b :: bs.take size := by
        simp only [Decoded.instruction, Instruction.encode, hne, if_false, Opcode.byte_of_ofByte? hop]
        exact congrArg (b :: ·) hbytes
      rw [List.flatMap_cons, hfirst, hcode, List.cons_append, List.take_append_drop]

/-! ## Calls -/

/-- A call on the streams of a module. Instructions are named by their numbers. -/
inductive StreamCall where
  | emit (s : Section) (op : UInt8) (line : Int) (operands : List Int)
  | mark (s : Section) (line : Int)
  | requestOffset (s : Section) (src dst : Option Nat) (operand : Int)
  | rewrite (instr : Nat) (op : UInt8) (operands : List Int)
  | onResolve (s : Section) (p : Patch)

namespace StreamCall

/-- What a call does. -/
def run : StreamCall → Assemble Unit
  | emit s op line operands => do
    let _ ← Assemble.emitByte s op line operands
    return
  | mark s line => do
    let _ ← Assemble.mark s line
    return
  | requestOffset s src dst operand => Assemble.requestOffset s src dst operand
  | rewrite n op operands => Assemble.replaceByte n op operands
  | onResolve s p => Assemble.onResolve s p

/-- The request that a call makes of a stream. -/
def request? (s : Section) : StreamCall → Option OffsetRequest
  | requestOffset t (some src) (some dst) operand => if t = s then some ⟨src, dst, operand⟩ else none
  | _ => none

/-- The patch that a call adds to a stream. -/
def patch? (s : Section) : StreamCall → Option Patch
  | onResolve t p => if t = s then some p else none
  | _ => none

end StreamCall

/-- The state after a list of calls, and those that ended without a violation. -/
structure Session where
  asm : Assembly
  accepted : List StreamCall

namespace Session

/-- One more call. After a violation the state is as the call left it. -/
def call (h : Session) (c : StreamCall) : Session :=
  match c.run h.asm with
  | (.ok _, a) => ⟨a, h.accepted ++ [c]⟩
  | (.error _, a) => ⟨a, h.accepted⟩

/-- A list of calls on empty streams. -/
def of (calls : List StreamCall) : Session := calls.foldl call ⟨.empty, []⟩

/-- The request is the last to set its operand: no later request is for the same operand, and no patch. -/
def SetsLast (h : Session) (s : Section) (r : OffsetRequest) : Prop :=
  (∃ before later, h.accepted.filterMap (·.request? s) = before ++ r :: later ∧
    ∀ r' ∈ later, ¬(r'.src = r.src ∧ r'.operand = r.operand)) ∧
  ∀ p ∈ h.accepted.filterMap (·.patch? s), ¬(p.instr = r.src ∧ p.operand = r.operand)

end Session

/-! ### Results and violations -/

/-- The result of a computation, be it a violation, and the state it ends in are related. -/
def Leaves {σ α : Type} (Q : Except Violation α → σ → Prop) (m : ExceptT Violation (StateM σ) α) (a : σ) : Prop :=
  Q (@Prod.fst (Except Violation α) σ (m a)) (@Prod.snd (Except Violation α) σ (m a))

section Leaves

variable {σ α β : Type} {Q : Except Violation β → σ → Prop} {a : σ}

theorem leaves_bind {m : ExceptT Violation (StateM σ) α} {f : α → ExceptT Violation (StateM σ) β}
    (hm : Leaves (fun r b => match r with | .ok x => Leaves Q (f x) b | .error e => Q (.error e) b) m a) :
    Leaves Q (m >>= f) a := by
  simp only [Leaves, bind, ExceptT.bind, ExceptT.mk, ExceptT.bindCont, StateT.bind] at hm ⊢
  rcases hr : m a with ⟨e | x, b⟩
  · simpa [hr, pure, StateT.pure] using hm
  · simpa [hr] using hm

@[simp]
theorem leaves_pure {x : β} : Leaves Q (pure x) a ↔ Q (.ok x) a := Iff.rfl

@[simp]
theorem leaves_get_bind {f : σ → ExceptT Violation (StateM σ) β} : Leaves Q (get >>= f) a ↔ Leaves Q (f a) a := Iff.rfl

@[simp]
theorem leaves_modify_bind {g : σ → σ} {f : PUnit → ExceptT Violation (StateM σ) β} :
    Leaves Q (modify g >>= f) a ↔ Leaves Q (f ()) (g a) := Iff.rfl

theorem leaves_lift_bind {m : Except Violation α} {f : α → ExceptT Violation (StateM σ) β}
    (he : ∀ e, Q (.error e) a) (hf : ∀ x, m = .ok x → Leaves Q (f x) a) : Leaves Q (liftM m >>= f) a := by
  cases m with
  | error e => exact he e
  | ok x => exact hf x rfl

/-- A loop keeps what each of its rounds keeps, whether it runs to its end or not. -/
theorem leaves_forM {ι : Type} {I : σ → Prop} {f : ι → ExceptT Violation (StateM σ) PUnit} {is : List ι}
    (hf : ∀ i ∈ is, ∀ a, I a → Leaves (fun _ b => I b) (f i) a) (ha : I a) :
    Leaves (fun _ b => I b) (is.forM f) a := by
  induction is generalizing a with
  | nil => exact ha
  | cons i is ih =>
    rw [List.forM_eq_forM, List.forM_cons]
    refine leaves_bind ?_
    have hfirst := hf i (by simp) a ha
    unfold Leaves at hfirst ⊢
    rcases hr : f i a with ⟨e | x, b⟩
    · simpa [hr] using hfirst
    · simp only [hr] at hfirst ⊢
      exact ih (fun j hj => hf j (by simp [hj])) hfirst

end Leaves

/-! ### Well made streams -/

namespace Assembly

/-- The instructions are sound, and every stream holds instructions that were made, each once. -/
structure WellMade (a : Assembly) : Prop where
  sound : ∀ n, (a.instr n).Sound
  made : ∀ s, ∀ n ∈ (a.stream s).order.toList, n < a.instrs.size
  nodup : ∀ s, (a.stream s).order.toList.Nodup

theorem sound_default : (default : Instruction).Sound := ⟨rfl, fun p hp => nomatch (hp : p ∈ [])⟩

theorem instr_of_lt {a : Assembly} {n : Nat} (h : n < a.instrs.size) : a.instr n = a.instrs[n] := by
  simp [instr, h]

theorem instr_push {a : Assembly} {x : Instruction} {n : Nat} :
    Assembly.instr { a with instrs := a.instrs.push x } n = if n = a.instrs.size then x else a.instr n := by
  simp only [instr, Array.getElem?_push]
  split <;> rfl

theorem instr_setIfInBounds {a : Assembly} {y : Instruction} {n m : Nat} (h : n < a.instrs.size) :
    Assembly.instr { a with instrs := a.instrs.setIfInBounds n y } m = if m = n then y else a.instr m := by
  simp only [instr, Array.getElem?_setIfInBounds]
  by_cases hmn : m = n
  · subst hmn
    simp [h]
  · simp [hmn, Ne.symm hmn]

theorem instr_modify {a : Assembly} {f : Instruction → Instruction} {n m : Nat} (h : n < a.instrs.size) :
    Assembly.instr { a with instrs := a.instrs.modify n f } m = if m = n then f (a.instr n) else a.instr m := by
  simp only [instr, Array.getElem?_modify]
  by_cases hmn : m = n
  · subst hmn
    simp [h]
  · simp [hmn, Ne.symm hmn]

theorem instr_modify_out {a : Assembly} {f : Instruction → Instruction} {n : Nat} (h : ¬n < a.instrs.size) :
    a.instrs.modify n f = a.instrs := by
  apply Array.ext
  · simp
  · intro i hi hi'
    rw [Array.getElem_modify, if_neg (by omega)]

theorem wellMade_empty : WellMade .empty where
  sound n := by simpa [instr, empty] using sound_default
  made s := by cases s <;> simp [stream, empty, Stream.empty]
  nodup s := by cases s <;> simp [stream, empty, Stream.empty]

variable {a : Assembly}

theorem WellMade.push (h : WellMade a) {x : Instruction} (hx : x.Sound) (s : Section) :
    WellMade (update s (fun st => { st with order := st.order.push a.instrs.size })
      { a with instrs := a.instrs.push x }) where
  sound n := by
    have := instr_push (a := a) (x := x) (n := n)
    simp only [instr, instrs_update] at this ⊢
    rw [this]
    split
    · exact hx
    · exact h.sound n
  made t n hn := by
    rw [instrs_update, Array.size_push]
    by_cases ht : t = s
    · subst ht
      simp only [stream_update_self, stream_instrs, Array.toList_push, List.mem_append, List.mem_singleton] at hn
      rcases hn with hn | rfl
      · have := h.made t n hn
        omega
      · omega
    · rw [stream_update_ne ht, stream_instrs] at hn
      have := h.made t n hn
      omega
  nodup t := by
    by_cases ht : t = s
    · subst ht
      simp only [stream_update_self, stream_instrs, Array.toList_push]
      refine List.nodup_append.mpr ⟨h.nodup t, by simp, ?_⟩
      intro n hn m hm hnm
      have := h.made t n hn
      simp only [List.mem_singleton] at hm
      omega
    · simpa only [stream_update_ne ht, stream_instrs] using h.nodup t

/-- Sound instructions in the places of others keep streams well made. -/
theorem WellMade.instrs (h : WellMade a) {xs : Array Instruction} (hsize : xs.size = a.instrs.size)
    (hs : ∀ n, (Assembly.instr { a with instrs := xs } n).Sound) : WellMade { a with instrs := xs } where
  sound := hs
  made s n hn := by
    rw [stream_instrs] at hn
    have := h.made s n hn
    simpa only [hsize] using this
  nodup s := by simpa only [stream_instrs] using h.nodup s

/-- More requests, patches or a mark that a stream is resolved keep streams well made. -/
theorem WellMade.update (h : WellMade a) {s : Section} {f : Stream → Stream} (hf : ∀ st, (f st).order = st.order) :
    WellMade (update s f a) := by
  have horder : ∀ t, ((Assembly.update s f a).stream t).order = (a.stream t).order := by
    intro t
    by_cases ht : t = s
    · subst ht
      rw [stream_update_self, hf]
    · rw [stream_update_ne ht]
  exact {
    sound := fun n => by simpa only [instr, instrs_update] using h.sound n
    made := fun t n hn => by
      rw [horder] at hn
      simpa only [instrs_update] using h.made t n hn
    nodup := fun t => by simpa only [horder] using h.nodup t }

end Assembly

namespace Assemble

open Assembly

variable {a : Assembly}

theorem setOperand_nonneg {x y : Instruction} {i v : Int} (h : x.setOperand i v = .ok y) :
    ∃ k : Nat, i = k ∧ x.setOperand k v = .ok y := by
  by_cases hi : i < 0
  · simp [Instruction.setOperand, hi] at h
  · exact ⟨i.toNat, by omega, by rwa [Int.toNat_of_nonneg (by omega)]⟩

/-- An operand can be set only of an instruction that was made. -/
theorem lt_of_setOperand {n : Nat} {i v : Int} {y : Instruction} (h : (a.instr n).setOperand i v = .ok y) :
    n < a.instrs.size := by
  by_contra hn
  have hnone : a.instrs[n]? = none := by simpa using hn
  have hdefault : a.instr n = default := by simp [instr, hnone]
  obtain ⟨k, -, hk⟩ := setOperand_nonneg h
  obtain ⟨w, hw, -⟩ := setOperand_ok hk
  rw [hdefault] at hw
  exact absurd hw (by simp [show (default : Instruction).op.widths = [] from rfl])

section Steps

variable {s : Section} {n : Nat}

theorem leaves_setOperand {Q : Except Violation Unit → Assembly → Prop} {i v : Int} (he : ∀ e, Q (.error e) a)
    (hset : ∀ y, (a.instr n).setOperand i v = .ok y →
      Q (.ok ()) { a with instrs := a.instrs.setIfInBounds n y }) : Leaves Q (setOperand n i v) a := by
  unfold setOperand
  rw [leaves_get_bind]
  exact leaves_lift_bind he hset

/-- A violation comes before an instruction is made. -/
theorem leaves_emit {Q : Except Violation Nat → Assembly → Prop} {op : Opcode} {line : Int} {vs : List Int}
    (he : ∀ e, Q (.error e) a)
    (hput : ∀ x, x.Sound → Q (.ok a.instrs.size) (update s (fun st => { st with order := st.order.push a.instrs.size })
      { a with instrs := a.instrs.push x })) : Leaves Q (emit s op line vs) a := by
  by_cases hr : ∃ n b, Runs (emit s op line vs) a n b
  · obtain ⟨n, b, hr⟩ := hr
    obtain ⟨-, rfl, hx, hb⟩ := runs_emit hr
    rw [Leaves, hr, hb]
    exact hput _ hx
  · unfold emit at hr ⊢
    rw [leaves_get_bind]
    by_cases hres : (a.stream s).resolved = true
    · rw [if_pos hres]
      exact he _
    · by_cases hlen : vs.length ≠ op.widths.length
      · rw [if_neg hres, if_pos hlen]
        exact he _
      · rw [if_neg hres, if_neg hlen]
        refine leaves_lift_bind he ?_
        intro x hx
        refine absurd ?_ hr
        simp only [runs_get_bind, if_neg hres, if_neg hlen, runs_lift_bind]
        exact ⟨_, _, x, hx, rfl⟩

theorem leaves_emitByte {Q : Except Violation Nat → Assembly → Prop} {op : UInt8} {line : Int} {vs : List Int}
    (he : ∀ e, Q (.error e) a)
    (hput : ∀ x, x.Sound → Q (.ok a.instrs.size) (update s (fun st => { st with order := st.order.push a.instrs.size })
      { a with instrs := a.instrs.push x })) : Leaves Q (emitByte s op line vs) a := by
  unfold emitByte
  split
  · exact leaves_emit he hput
  · rw [leaves_get_bind]
    split <;> exact he _

theorem leaves_replace {I : Assembly → Prop} {op : Opcode} {vs : List Int} (ha : I a)
    (hop : I { a with instrs := a.instrs.modify n fun x => { x with op, operands := op.widths.map fun _ => 0 } })
    (hset : ∀ b i v y, I b → (b.instr n).setOperand i v = .ok y →
      I { b with instrs := b.instrs.setIfInBounds n y }) : Leaves (fun _ b => I b) (replace n op vs) a := by
  unfold replace
  by_cases hlen : vs.length ≠ op.widths.length
  · rw [if_pos hlen]
    exact ha
  · rw [if_neg hlen]
    refine leaves_forM ?_ hop
    intro p _ b hb
    exact leaves_setOperand (fun _ => hb) fun y hy => hset b _ _ y hb hy

theorem leaves_replaceByte {I : Assembly → Prop} {op : UInt8} {vs : List Int} (ha : I a)
    (hop : ∀ op, I { a with
      instrs := a.instrs.modify n fun x => { x with op, operands := op.widths.map fun _ => 0 } })
    (hset : ∀ b i v y, I b → (b.instr n).setOperand i v = .ok y →
      I { b with instrs := b.instrs.setIfInBounds n y }) : Leaves (fun _ b => I b) (replaceByte n op vs) a := by
  unfold replaceByte
  split
  · exact leaves_replace ha (hop _) hset
  · exact ha

theorem leaves_requestOffset {Q : Except Violation Unit → Assembly → Prop} {src dst : Option Nat} {i : Int}
    (he : ∀ e, Q (.error e) a)
    (hask : ∀ m k, src = some m → dst = some k →
      Q (.ok ()) (update s (fun st => { st with requests := st.requests.push ⟨m, k, i⟩ }) a)) :
    Leaves Q (requestOffset s src dst i) a := by
  cases src with
  | none => exact he _
  | some m =>
    unfold requestOffset owned
    simp only [leaves_get_bind, bind_assoc]
    by_cases hm : a.contains s m = true
    · rw [if_pos hm]
      cases dst with
      | none => exact he _
      | some k =>
        simp only [pure_bind, leaves_get_bind]
        by_cases hk : a.contains s k = true
        · simp only [if_pos hk, leaves_get_bind]
          refine leaves_lift_bind he ?_
          intro v _
          exact hask m k rfl rfl
        · rw [if_neg hk]
          exact he _
    · rw [if_neg hm]
      exact he _

theorem leaves_onResolve {Q : Except Violation Unit → Assembly → Prop} {p : Patch} :
    Leaves Q (onResolve s p) a ↔ Q (.ok ()) (update s (fun st => { st with patches := st.patches.push p }) a) := Iff.rfl

end Steps

end Assemble

/-! ### What a call does -/

namespace StreamCall

open Assembly

variable {a : Assembly}

/-- An operand that is set keeps streams well made. -/
theorem wellMade_setOperand {n : Nat} {i v : Int} {y : Instruction} (ha : WellMade a)
    (hy : (a.instr n).setOperand i v = .ok y) : WellMade { a with instrs := a.instrs.setIfInBounds n y } := by
  refine ha.instrs (by simp) ?_
  intro m
  rw [instr_setIfInBounds (Assemble.lt_of_setOperand hy)]
  split
  · obtain ⟨k, -, hk⟩ := Assemble.setOperand_nonneg hy
    exact Assemble.sound_setOperand (ha.sound n) hk
  · exact ha.sound m

/-- Every call keeps streams well made, also when it ends in a violation. -/
theorem leaves_wellMade (ha : WellMade a) (c : StreamCall) : Leaves (fun _ b => WellMade b) c.run a := by
  cases c with
  | emit s op line operands =>
    refine leaves_bind ?_
    exact Assemble.leaves_emitByte (fun _ => ha) fun x hx => ha.push hx s
  | mark s line =>
    refine leaves_bind ?_
    exact Assemble.leaves_emit (fun _ => ha) fun x hx => ha.push hx s
  | requestOffset s src dst operand =>
    refine Assemble.leaves_requestOffset (fun _ => ha) ?_
    intro m k _ _
    apply ha.update
    intro st
    rfl
  | rewrite n op operands =>
    refine Assemble.leaves_replaceByte ha ?_ ?_
    · intro op
      refine ha.instrs (by simp) ?_
      intro m
      by_cases hn : n < a.instrs.size
      · rw [instr_modify hn]
        split
        · exact Assemble.sound_blank _ _ _
        · exact ha.sound m
      · rw [instr_modify_out hn]
        exact ha.sound m
    · intro b i v y hb hy
      exact wellMade_setOperand hb hy
  | onResolve s p =>
    refine Assemble.leaves_onResolve.mpr ?_
    apply ha.update
    intro st
    rfl

/-- A stream that gets an instruction keeps its requests and patches. -/
theorem queues_push (s t : Section) (x : Instruction) {b : Assembly}
    (hb : b = update t (fun st => { st with order := st.order.push a.instrs.size })
      { a with instrs := a.instrs.push x }) :
    (b.stream s).requests = (a.stream s).requests ∧ (b.stream s).patches = (a.stream s).patches := by
  subst hb
  by_cases hts : s = t
  · subst hts
    simp
  · simp [stream_update_ne hts]

/-- The requests and patches of a stream grow by those of the calls that end without a violation. -/
theorem leaves_queues (c : StreamCall) (s : Section) : Leaves (fun r b =>
    (b.stream s).requests.toList = (a.stream s).requests.toList ++ (r.toOption.bind fun _ => c.request? s).toList ∧
    (b.stream s).patches.toList = (a.stream s).patches.toList ++ (r.toOption.bind fun _ => c.patch? s).toList)
    c.run a := by
  cases c with
  | emit t op line operands =>
    refine leaves_bind ?_
    refine Assemble.leaves_emitByte (fun _ => by simp [Except.toOption]) ?_
    intro x _
    obtain ⟨hr, hp⟩ := queues_push (a := a) s t x rfl
    simp [hr, hp, request?, patch?]
  | mark t line =>
    refine leaves_bind ?_
    refine Assemble.leaves_emit (fun _ => by simp [Except.toOption]) ?_
    intro x _
    obtain ⟨hr, hp⟩ := queues_push (a := a) s t x rfl
    simp [hr, hp, request?, patch?]
  | requestOffset t src dst operand =>
    refine Assemble.leaves_requestOffset (fun _ => by simp [Except.toOption]) ?_
    rintro m k rfl rfl
    by_cases hts : s = t
    · subst hts
      simp [request?, patch?, Except.toOption]
    · simp [stream_update_ne hts, request?, patch?, Ne.symm hts, Except.toOption]
  | rewrite n op operands =>
    have hnone : ∀ r : Except Violation Unit, (r.toOption.bind fun _ => request? s (rewrite n op operands)) = none ∧
        (r.toOption.bind fun _ => patch? s (rewrite n op operands)) = none := by
      intro r
      cases r <;> exact ⟨rfl, rfl⟩
    simp only [hnone, Option.toList_none, List.append_nil]
    refine Assemble.leaves_replaceByte ⟨rfl, rfl⟩ ?_ ?_
    · intro op
      simp
    · intro b i v y hb _
      simpa using hb
  | onResolve t p =>
    refine Assemble.leaves_onResolve.mpr ?_
    by_cases hts : s = t
    · subst hts
      simp [request?, patch?, Except.toOption]
    · simp [stream_update_ne hts, request?, patch?, Ne.symm hts, Except.toOption]

end StreamCall

namespace Session

theorem call_asm (h : Session) (c : StreamCall) : (h.call c).asm = @Prod.snd (Except Violation Unit) Assembly (c.run h.asm) := by
  unfold call
  rcases c.run h.asm with ⟨_ | _, _⟩ <;> rfl

theorem call_wellMade {h : Session} (hm : h.asm.WellMade) (c : StreamCall) : (h.call c).asm.WellMade := by
  rw [call_asm]
  exact c.leaves_wellMade hm

/-- The requests and patches of every stream are those of the accepted calls. -/
structure Queued (h : Session) : Prop where
  requests : ∀ s, (h.asm.stream s).requests.toList = h.accepted.filterMap (·.request? s)
  patches : ∀ s, (h.asm.stream s).patches.toList = h.accepted.filterMap (·.patch? s)

theorem call_queued {h : Session} (hq : h.Queued) (c : StreamCall) : (h.call c).Queued := by
  have hc := fun s => c.leaves_queues (a := h.asm) s
  unfold call
  unfold Leaves at hc
  rcases hr : c.run h.asm with ⟨e | x, a⟩
  · simp only [hr, Except.toOption, Option.bind_none, Option.toList_none, List.append_nil] at hc
    exact ⟨fun s => (hc s).1.trans (hq.requests s), fun s => (hc s).2.trans (hq.patches s)⟩
  · simp only [hr, Except.toOption, Option.bind_some] at hc
    refine ⟨fun s => ?_, fun s => ?_⟩
    · simp only [(hc s).1, hq.requests, List.filterMap_append, List.filterMap_cons, List.filterMap_nil]
      cases c.request? s <;> rfl
    · simp only [(hc s).2, hq.patches, List.filterMap_append, List.filterMap_cons, List.filterMap_nil]
      cases c.patch? s <;> rfl

private theorem foldl_call (calls : List StreamCall) {h : Session} (hm : h.asm.WellMade) (hq : h.Queued) :
    (calls.foldl call h).asm.WellMade ∧ (calls.foldl call h).Queued := by
  induction calls generalizing h with
  | nil => exact ⟨hm, hq⟩
  | cons c calls ih => exact ih (call_wellMade hm c) (call_queued hq c)

theorem of_wellMade (calls : List StreamCall) : (of calls).asm.WellMade ∧ (of calls).Queued := by
  apply foldl_call
  · exact Assembly.wellMade_empty
  · exact ⟨fun s => by cases s <;> rfl, fun s => by cases s <;> rfl⟩

end Session

/-! ### Resolution -/

/-- The same streams of the same instructions at the same positions: only operands differ. -/
structure Reassigned (a b : Assembly) : Prop where
  streams : ∀ s, b.stream s = a.stream s
  op : ∀ n, (b.instr n).op = (a.instr n).op
  pos : ∀ n, (b.instr n).pos = (a.instr n).pos
  sound : ∀ n, (a.instr n).Sound → (b.instr n).Sound

namespace Reassigned

variable {a b c : Assembly}

theorem refl (a : Assembly) : Reassigned a a :=
  ⟨fun _ => rfl, fun _ => rfl, fun _ => rfl, fun _ h => h⟩

theorem trans (h : Reassigned a b) (h' : Reassigned b c) : Reassigned a c where
  streams s := (h'.streams s).trans (h.streams s)
  op n := (h'.op n).trans (h.op n)
  pos n := (h'.pos n).trans (h.pos n)
  sound n hn := h'.sound n (h.sound n hn)

end Reassigned

namespace Assemble

open Assembly

variable {a b : Assembly} {u : PUnit}

/-- Setting an operand: it has the value then, and every other operand the one it had. -/
theorem reassigned_setOperand {n : Nat} {i v : Int} (h : Runs (setOperand n i v) a u b) :
    Reassigned a b ∧ ((a.instr n).Sound → (b.instr n).operands[i.toNat]? = some v) ∧
      ∀ (m k : Nat), ¬(n = m ∧ i = k) → (b.instr m).operands[k]? = (a.instr m).operands[k]? := by
  unfold setOperand at h
  simp only [runs_get_bind, runs_lift_bind, runs_modify] at h
  obtain ⟨y, hy, rfl⟩ := h
  have hlt := lt_of_setOperand hy
  have hget : ∀ m, Assembly.instr { a with instrs := a.instrs.setIfInBounds n y } m =
      if m = n then y else a.instr m := fun m => instr_setIfInBounds hlt
  obtain ⟨j, rfl, hj⟩ := setOperand_nonneg hy
  obtain ⟨w, hw, -, hset⟩ := setOperand_ok hj
  refine ⟨⟨fun s => by simp, ?_, ?_, ?_⟩, ?_, ?_⟩
  · intro m
    rw [hget]
    split
    · next hm => rw [hset, hm]
    · rfl
  · intro m
    rw [hget]
    split
    · next hm => rw [hset, hm]
    · rfl
  · intro m hm
    rw [hget]
    split
    · next hmn =>
      subst hmn
      exact sound_setOperand hm hj
    · exact hm
  · intro hs
    have hk : j < (a.instr n).operands.length := by
      rw [hs.count]
      exact (List.getElem?_eq_some_iff.mp hw).1
    rw [hget, if_pos rfl, hset]
    simp [hk]
  · intro m k hmk
    rw [hget]
    split
    · next hm =>
      subst hm
      have hne : j ≠ k := fun h => hmk ⟨rfl, by rw [h]⟩
      rw [hset, List.getElem?_set_ne hne]
    · rfl

/-- A list of assignments, each computed from the state so far: they change nothing but the operands they name. -/
theorem reassigned_forM {ι : Type} {n : ι → Nat} {i : ι → Int} {v : ι → Assembly → Int} {js : List ι}
    (h : Runs (js.forM fun j => do setOperand (n j) (i j) (v j (← get))) a u b) :
    Reassigned a b ∧ ∀ (m k : Nat), (∀ j ∈ js, ¬(n j = m ∧ i j = k)) →
      (b.instr m).operands[k]? = (a.instr m).operands[k]? := by
  induction js generalizing a with
  | nil =>
    rw [runs_forM_nil.mp h]
    exact ⟨.refl a, fun _ _ _ => rfl⟩
  | cons j js ih =>
    obtain ⟨a₁, h1, h2⟩ := runs_forM_cons.mp h
    rw [runs_get_bind] at h1
    obtain ⟨hfirst, -, hothers⟩ := reassigned_setOperand h1
    obtain ⟨hrest, hkept⟩ := ih h2
    refine ⟨hfirst.trans hrest, ?_⟩
    intro m k hmk
    rw [hkept m k fun j' hj' => hmk j' (by simp [hj']), hothers m k (hmk j (by simp))]

theorem runs_forM_append {ι : Type} {f : ι → Assemble PUnit} {is js : List ι} (h : Runs ((is ++ js).forM f) a u b) :
    ∃ c, Runs (is.forM f) a () c ∧ Runs (js.forM f) c () b := by
  induction is generalizing a with
  | nil => exact ⟨a, runs_forM_nil.mpr rfl, h⟩
  | cons i is ih =>
    obtain ⟨a₁, h1, h2⟩ := runs_forM_cons.mp h
    obtain ⟨c, h3, h4⟩ := ih h2
    exact ⟨c, runs_forM_cons.mpr ⟨a₁, h1, h3⟩, h4⟩

/-- The last of a list of requests for an operand decides it. -/
theorem met_of_requests {rs before later : List OffsetRequest} {r : OffsetRequest} (hs : ∀ n, (a.instr n).Sound)
    (hrs : rs = before ++ r :: later) (hlast : ∀ r' ∈ later, ¬(r'.src = r.src ∧ r'.operand = r.operand))
    (h : Runs (rs.forM fun r => (do
      let a ← get
      setOperand r.src r.operand ((a.instr r.dst).pos - (a.instr r.src).pos) : Assemble PUnit)) a u b) :
    0 ≤ r.operand ∧
      (b.instr r.src).operands[r.operand.toNat]? = some ((a.instr r.dst).pos - (a.instr r.src).pos) := by
  subst hrs
  obtain ⟨c, h1, h2⟩ := runs_forM_append h
  obtain ⟨d, h3, h4⟩ := runs_forM_cons.mp h2
  obtain ⟨hbefore, -⟩ := reassigned_forM (n := OffsetRequest.src) (i := OffsetRequest.operand)
    (v := fun r a => (a.instr r.dst).pos - (a.instr r.src).pos) h1
  obtain ⟨-, hlater⟩ := reassigned_forM (n := OffsetRequest.src) (i := OffsetRequest.operand)
    (v := fun r a => (a.instr r.dst).pos - (a.instr r.src).pos) h4
  rw [runs_get_bind] at h3
  obtain ⟨-, hset, -⟩ := reassigned_setOperand h3
  have hnonneg : 0 ≤ r.operand := by
    unfold setOperand at h3
    simp only [runs_get_bind, runs_lift_bind] at h3
    obtain ⟨y, hy, -⟩ := h3
    obtain ⟨k, hk, -⟩ := setOperand_nonneg hy
    omega
  refine ⟨hnonneg, ?_⟩
  rw [hlater r.src r.operand.toNat, hset (hbefore.sound _ (hs _)), hbefore.pos, hbefore.pos]
  intro r' hr' hsame
  exact hlast r' hr' ⟨hsame.1, by omega⟩

/-- What the resolution of a stream leaves: the instructions at the sums of the sizes before them, the
requests met that were the last to set their operands, and all other operands as they were. -/
structure Resolved (s : Section) (a b : Assembly) : Prop where
  order : (b.stream s).order = (a.stream s).order
  resolved : (b.stream s).resolved = true
  op : ∀ n, (b.instr n).op = (a.instr n).op
  placed : Placed 0 (b.listing s)
  sound : ∀ x ∈ b.listing s, x.Sound
  met : ∀ {before later : List OffsetRequest} {r}, (a.stream s).requests.toList = before ++ r :: later →
    (∀ r' ∈ later, ¬(r'.src = r.src ∧ r'.operand = r.operand)) →
    (∀ p ∈ (a.stream s).patches.toList, ¬(p.instr = r.src ∧ p.operand = r.operand)) →
    ∃ v, (b.instr r.src).operand r.operand = .ok v ∧ (b.instr r.src).pos + v = (b.instr r.dst).pos
  kept : ∀ n k : Nat, (∀ r ∈ (a.stream s).requests.toList, ¬(r.src = n ∧ r.operand = k)) →
    (∀ p ∈ (a.stream s).patches.toList, ¬(p.instr = n ∧ p.operand = k)) →
    (b.instr n).operands[k]? = (a.instr n).operands[k]?

theorem resolved_of_resolve {s : Section} (ha : WellMade a) (h : Runs (resolve s) a u b) : Resolved s a b := by
  unfold resolve at h
  rw [runs_get_bind] at h
  by_cases hres : (a.stream s).resolved = true
  · rw [if_pos hres] at h
    simp at h
  · rw [if_neg hres, runs_modify_bind] at h
    obtain ⟨_, a₁, h1, h⟩ := runs_bind.mp h
    obtain ⟨_, a₂, h2, h3⟩ := runs_bind.mp h
    rw [forM_toList] at h2 h3
    have hin : ∀ n ∈ (a.stream s).order.toList,
        ∃ x, (Assembly.update s ({ · with resolved := true }) a).instrs[n]? = some x := by
      intro n hn
      rw [instrs_update]
      exact ⟨_, Array.getElem?_eq_getElem (ha.made s n hn)⟩
    obtain ⟨hs₁, hout₁, hall₁, hplaced⟩ := runs_place (ha.nodup s) hin h1
    -- the positions are the only thing that placing changes
    have hinstr : ∀ n, ∃ p, a₁.instr n = { a.instr n with pos := p } := by
      intro n
      rw [instrs_update] at hall₁ hout₁
      by_cases hn : n < a.instrs.size
      · obtain ⟨p, hp⟩ := hall₁ n _ (Array.getElem?_eq_getElem hn)
        refine ⟨p, ?_⟩
        rw [Assembly.instr, hp, instr_of_lt hn]
        rfl
      · have hnot : n ∉ (a.stream s).order.toList := fun hmem => hn (ha.made s n hmem)
        refine ⟨(a.instr n).pos, ?_⟩
        rw [Assembly.instr, hout₁ n hnot]
        rfl
    have hsound₁ : ∀ n, (a₁.instr n).Sound := by
      intro n
      obtain ⟨p, hp⟩ := hinstr n
      rw [hp]
      exact ⟨(ha.sound n).count, (ha.sound n).fit⟩
    obtain ⟨hreq, hkept₂⟩ := reassigned_forM (n := OffsetRequest.src) (i := OffsetRequest.operand)
      (v := fun r a => (a.instr r.dst).pos - (a.instr r.src).pos) h2
    obtain ⟨hpat, hkept₃⟩ := reassigned_forM (n := Patch.instr) (i := Patch.operand)
      (v := fun p a => p.value fun n => (a.instr n).pos) h3
    have hall := hreq.trans hpat
    have hstream : b.stream s = { a.stream s with resolved := true } := by
      rw [hall.streams, hs₁, stream_update_self]
    have hlisting : b.listing s = (a.stream s).order.toList.map b.instr := by
      rw [Assembly.listing, hstream]
    refine ⟨by rw [hstream], by rw [hstream], ?_, ?_, ?_, ?_, ?_⟩
    · intro n
      obtain ⟨p, hp⟩ := hinstr n
      rw [hall.op, hp]
    · rw [hlisting]
      exact placed_congr (fun n _ => ⟨hall.pos n, hall.op n⟩) hplaced
    · intro x hx
      rw [hlisting, List.mem_map] at hx
      obtain ⟨n, -, rfl⟩ := hx
      exact hall.sound n (hsound₁ n)
    · intro before later r hrs hlast hpatch
      obtain ⟨hnonneg, hmet⟩ := met_of_requests hsound₁ hrs hlast h2
      refine ⟨(a₁.instr r.dst).pos - (a₁.instr r.src).pos, ?_, ?_⟩
      · have hop : (b.instr r.src).operands[r.operand.toNat]? =
            some ((a₁.instr r.dst).pos - (a₁.instr r.src).pos) := by
          rw [hkept₃ r.src r.operand.toNat, hmet]
          intro p hp hsame
          exact hpatch p hp ⟨hsame.1, by omega⟩
        have hneg : ¬r.operand < 0 := by omega
        simp only [Instruction.operand, hneg, if_false, hop]
      · rw [hall.pos, hall.pos]
        omega
    · intro n k hr hp
      obtain ⟨p, hplace⟩ := hinstr n
      rw [hkept₃ n k hp, hkept₂ n k hr, hplace]

end Assemble

/-! ## Both directions -/

/-- Instructions that were read, put into a stream again on some lines, and the bytes of the stream. -/
def Assemble.again (s : Section) (line : Decoded → Int) (ds : List Decoded) : Assemble Bytes := do
  ds.forM fun d => do
    let _ ← emit s d.op (line d) d.operands
    return
  resolve s
  bytes s

namespace Assemble

open Assembly

private theorem setOperands_sound {x : Instruction} {vs : List Int} {k : Nat} (hx : x.operands.length = x.op.widths.length)
    (hk : k + vs.length = x.op.widths.length)
    (hfit : ∀ (j : Nat) v w, vs[j]? = some v → x.op.widths[k + j]? = some w → fits v w) :
    (vs.zipIdx k).foldlM (fun x p => x.setOperand p.2 p.1) x =
      .ok { x with operands := x.operands.take k ++ vs } := by
  induction vs generalizing x k with
  | nil =>
    have htake : x.operands.take k = x.operands := List.take_of_length_le (by simp at hk; omega)
    simp [pure, Except.pure, htake]
  | cons v vs ih =>
    have hlt : k < x.op.widths.length := by simp at hk; omega
    have hneg : ¬((k : Int) < 0) := by omega
    have hset : x.setOperand k v = .ok { x with operands := x.operands.set k v } := by
      have hv := hfit 0 v _ rfl (List.getElem?_eq_getElem hlt)
      simp only [Instruction.setOperand, hneg, if_false, Int.toNat_natCast, List.getElem?_eq_getElem hlt, hv, if_true]
    simp only [List.zipIdx_cons, List.foldlM_cons, bind, Except.bind, hset]
    rw [ih (by simpa using hx) (by simp at hk ⊢; omega)]
    · have htake : (x.operands.set k v).take (k + 1) = x.operands.take k ++ [v] := by
        rw [List.take_add_one, List.getElem?_set_self (by omega), List.take_set_of_le (Nat.le_refl k)]
        rfl
      simp [htake]
    · intro j v' w hv' hw
      exact hfit (j + 1) v' w (by simpa using hv') (by rw [← hw]; congr 1; omega)

/-- A sound instruction is put into a stream that is not resolved. -/
theorem runs_emit_sound {a : Assembly} {s : Section} {op : Opcode} {line : Int} {vs : List Int}
    (hres : (a.stream s).resolved = false) (hx : Instruction.Sound ⟨op, vs, line, -1⟩) :
    Runs (emit s op line vs) a a.instrs.size
      (update s (fun st => { st with order := st.order.push a.instrs.size })
        { a with instrs := a.instrs.push ⟨op, vs, line, -1⟩ }) := by
  have hset : withOperands { op, operands := op.widths.map fun _ => 0, line, pos := -1 } vs =
      .ok ⟨op, vs, line, -1⟩ := by
    refine (setOperands_sound (by simp) (by simpa using hx.count) ?_).trans (by simp)
    intro j v w hv hw
    exact hx.fit (w, v) (List.mem_iff_getElem?.mpr ⟨j, List.getElem?_zip_eq_some.mpr ⟨by simpa using hw, hv⟩⟩)
  have hlen : ¬vs.length ≠ op.widths.length := not_not.mpr hx.count
  unfold emit
  simp only [runs_get_bind, hres, Bool.false_eq_true, if_false, if_neg hlen, runs_lift_bind]
  exact ⟨_, hset, rfl⟩

/-- Instructions that were read are put into a stream one after the other. -/
theorem runs_emits {a : Assembly} {s : Section} (line : Decoded → Int) {ds : List Decoded}
    (hres : (a.stream s).resolved = false) (ha : WellMade a)
    (hds : ∀ d ∈ ds, ∀ line pos, (d.instruction line pos).Sound) :
    ∃ b, Runs (ds.forM fun d => (do
        let _ ← emit s d.op (line d) d.operands
        return : Assemble PUnit)) a () b ∧
      WellMade b ∧ (b.stream s).resolved = false ∧ (b.stream s).requests = (a.stream s).requests ∧
      (b.stream s).patches = (a.stream s).patches ∧
      b.listing s = a.listing s ++ ds.map fun d => d.instruction (line d) (-1) := by
  induction ds generalizing a with
  | nil => exact ⟨a, runs_forM_nil.mpr rfl, ha, hres, rfl, rfl, by simp⟩
  | cons d ds ih =>
    have hd := hds d (by simp) (line d) (-1)
    obtain ⟨b, hb, hmade, hres', hreq, hpat, hlist⟩ := ih
      (a := update s (fun st => { st with order := st.order.push a.instrs.size })
        { a with instrs := a.instrs.push (d.instruction (line d) (-1)) })
      (by simpa using hres) (ha.push hd s) fun d' hd' => hds d' (by simp [hd'])
    refine ⟨b, ?_, hmade, hres', by simpa using hreq, by simpa using hpat, ?_⟩
    · refine runs_forM_cons.mpr ⟨_, ?_, hb⟩
      exact runs_bind.mpr ⟨_, _, runs_emit_sound hres hd, rfl⟩
    · rw [hlist, List.map_cons, List.append_cons]
      congr 1
      have hold : ∀ n ∈ (a.stream s).order.toList, n ≠ a.instrs.size := by
        intro n hn
        have := ha.made s n hn
        omega
      have hget := fun n => instr_push (a := a) (x := d.instruction (line d) (-1)) (n := n)
      simp only [Assembly.listing, stream_update_self, stream_instrs, Array.toList_push, List.map_append, List.map_cons,
        List.map_nil]
      congr 1
      · refine List.map_congr_left fun n hn => ?_
        have := hget n
        rw [if_neg (hold n hn)] at this
        simpa only [instr, instrs_update] using this
      · have := hget a.instrs.size
        rw [if_pos rfl] at this
        simpa only [instr, instrs_update, List.cons.injEq, and_true] using this

/-- A stream without requests and patches is encoded as its instructions were. -/
theorem Resolved.encode_listing {a b : Assembly} {s : Section} (h : Resolved s a b)
    (hreq : (a.stream s).requests = #[]) (hpat : (a.stream s).patches = #[]) :
    (b.listing s).flatMap Instruction.encode = (a.listing s).flatMap Instruction.encode := by
  simp only [Assembly.listing, h.order, List.flatMap_map]
  congr 1
  funext n
  have hoperands : (b.instr n).operands = (a.instr n).operands := by
    apply List.ext_getElem?
    intro k
    exact h.kept n k (by simp [hreq]) (by simp [hpat])
  simp only [Instruction.encode, h.op, hoperands]

theorem runs_place_exists (pos : Int) (ns : List Nat) (a : Assembly) : ∃ b, Runs (place pos ns) a () b := by
  induction ns generalizing pos a with
  | nil => exact ⟨a, rfl⟩
  | cons n ns ih =>
    simp only [place, runs_get_bind, runs_modify_bind]
    exact ih _ _

/-- A stream without requests and patches is resolved without a violation. -/
theorem runs_resolve_exists {a : Assembly} {s : Section} (hres : (a.stream s).resolved = false)
    (hreq : (a.stream s).requests = #[]) (hpat : (a.stream s).patches = #[]) :
    ∃ b, Runs (resolve s) a () b := by
  obtain ⟨b, hb⟩ := runs_place_exists 0 (a.stream s).order.toList (update s ({ · with resolved := true }) a)
  refine ⟨b, ?_⟩
  unfold resolve
  simp only [runs_get_bind, hres, Bool.false_eq_true, if_false, runs_modify_bind, hreq, hpat]
  exact runs_bind.mpr ⟨_, b, hb, rfl⟩

end Assemble

/-- Streams and their bytes determine each other. After any calls, a stream that is resolved holds the
instructions it held, each at the sum of the sizes before it; its bytes are as many as the sizes; an operand
that a request was the last to set leads from its instruction to the one asked for; and reading the bytes
gives the instructions that are no marks. Bytes that are read without a problem are the bytes of a stream of
the instructions that were read. -/
theorem stream_roundTrip :
    (∀ (calls : List StreamCall) (s : Section) (b : Assembly),
      Runs (Assemble.resolve s) (Session.of calls).asm () b →
      (b.stream s).order = ((Session.of calls).asm.stream s).order ∧
      (∀ (k : Nat) x, (b.listing s)[k]? = some x → x.pos = posAt (b.listing s) k) ∧
      (∀ r, (Session.of calls).SetsLast s r →
        ∃ v, (b.instr r.src).operand r.operand = .ok v ∧ (b.instr r.src).pos + v = (b.instr r.dst).pos) ∧
      ∃ code, Runs (Assemble.bytes s) b code b ∧ code.length = posAt (b.listing s) (b.listing s).length ∧
        decode code = ((b.listing s).filterMap Instruction.decoded?, none)) ∧
    ∀ (code : Bytes) (ds : List Decoded) (s : Section) (line : Decoded → Int), decode code = (ds, none) →
      ∃ b, Runs (Assemble.again s line ds) .empty code b := by
  refine ⟨?_, ?_⟩
  · intro calls s b h
    obtain ⟨hmade, hqueued⟩ := Session.of_wellMade calls
    have hr := Assemble.resolved_of_resolve hmade h
    refine ⟨hr.order, fun k x hx => hr.placed.pos hx, ?_, (b.listing s).flatMap Instruction.encode, ?_, ?_, ?_⟩
    · rintro r ⟨⟨before, later, hsplit, hlast⟩, hpatch⟩
      refine hr.met (hsplit ▸ hqueued.requests s) hlast ?_
      rw [hqueued.patches s]
      exact hpatch
    · unfold Assemble.bytes
      rw [runs_get_bind, hr.resolved]
      exact rfl
    · rw [length_flatMap_encode hr.sound, posAt, List.take_length]
    · exact decodeFrom_encode hr.placed hr.sound
  · intro code ds s line h
    obtain ⟨hsound, hcode⟩ := encode_decodeFrom h
    have hfresh : (Assembly.empty.stream s).resolved = false ∧ (Assembly.empty.stream s).requests = #[] ∧
        (Assembly.empty.stream s).patches = #[] ∧ Assembly.empty.listing s = [] := by
      cases s <;> exact ⟨rfl, rfl, rfl, rfl⟩
    obtain ⟨a, ha, hmade, hres, hreq, hpat, hlist⟩ := Assemble.runs_emits line hfresh.1
      Assembly.wellMade_empty fun d hd => (hsound d hd).2
    obtain ⟨b, hb⟩ := Assemble.runs_resolve_exists hres (hreq.trans hfresh.2.1) (hpat.trans hfresh.2.2.1)
    have hr := Assemble.resolved_of_resolve hmade hb
    refine ⟨b, runs_bind.mpr ⟨_, a, ha, runs_bind.mpr ⟨_, b, hb, ?_⟩⟩⟩
    have hbytes : (b.listing s).flatMap Instruction.encode = code := by
      rw [hfresh.2.2.2, List.nil_append] at hlist
      calc (b.listing s).flatMap Instruction.encode
          = (a.listing s).flatMap Instruction.encode := hr.encode_listing (hreq.trans hfresh.2.1) (hpat.trans hfresh.2.2.1)
        _ = ds.flatMap fun d => (d.instruction 0 0).encode := by rw [hlist, List.flatMap_map]; rfl
        _ = code := hcode
    unfold Assemble.bytes
    rw [runs_get_bind, hr.resolved, ← hbytes]
    exact rfl

/-- A jump that is aimed twice, over an instruction that becomes a mark and over one that stays. -/
def jumpCalls : List StreamCall :=
  [.emit .code Opcode.jump.byte 1 [0], .emit .code Opcode.getFunc.byte 1 [7], .emit .code Opcode.pop.byte 2 [],
    .mark .code 3, .requestOffset .code (some 0) (some 2) 0, .requestOffset .code (some 0) (some 3) 0,
    .rewrite 1 Opcode.mark.byte []]

/-- The state after the jump's stream is resolved. -/
def jumpResolved : Assembly :=
  @Prod.snd (Except Violation Unit) Assembly (Assemble.resolve .code (Session.of jumpCalls).asm)

theorem stream_jump_roundTrip :
    Runs (Assemble.resolve .code) (Session.of jumpCalls).asm () jumpResolved ∧
      (jumpResolved.instr 0).operand 0 = .ok 4 ∧ (jumpResolved.instr 3).pos = 4 ∧
      Runs (Assemble.bytes .code) jumpResolved [0x70, 4, 0, 0x01] jumpResolved ∧
      decode [0x70, 4, 0, 0x01] = ([⟨0, .jump, [4]⟩, ⟨3, .pop, []⟩], none) ∧
      ∃ b, Runs (Assemble.again .code (fun _ => 1) [⟨0, .jump, [4]⟩, ⟨3, .pop, []⟩]) .empty [0x70, 4, 0, 0x01] b := by
  have hresolve : Runs (Assemble.resolve .code) (Session.of jumpCalls).asm () jumpResolved :=
    Prod.ext (by decide +kernel) rfl
  obtain ⟨-, hpos, hmet, code, hbytes, -, hdecode⟩ := stream_roundTrip.1 jumpCalls .code _ hresolve
  have hlast : (Session.of jumpCalls).SetsLast .code ⟨0, 3, 0⟩ :=
    ⟨⟨[⟨0, 2, 0⟩], [], by decide +kernel, by simp⟩, by decide +kernel⟩
  obtain ⟨v, hv, hv'⟩ := hmet ⟨0, 3, 0⟩ hlast
  have hcode : [0x70, 4, 0, 0x01] = code := by
    have hrun : (@Prod.fst (Except Violation Bytes) Assembly (Assemble.bytes .code jumpResolved)) =
        .ok [0x70, 4, 0, 0x01] := by decide +kernel
    exact Except.ok.inj (hrun.symm.trans (congrArg Prod.fst hbytes))
  have hlist : (jumpResolved.listing .code).filterMap Instruction.decoded? = [⟨0, .jump, [4]⟩, ⟨3, .pop, []⟩] := by
    decide +kernel
  subst hcode
  rw [hlist] at hdecode
  have hend : (jumpResolved.instr 3).pos = 4 := by decide +kernel
  have hstart : (jumpResolved.instr 0).pos = 0 := by decide +kernel
  rw [hend, hstart] at hv'
  obtain rfl : v = 4 := by omega
  exact ⟨hresolve, hv, hend, hbytes, hdecode, stream_roundTrip.2 _ _ .code (fun _ => 1) hdecode⟩

end Weft.Bytecode
