import Weft.Proofs.Bytecode.ControlFlow
import Weft.Proofs.Bytecode.Origins

/-!
# References to constants

Two streams share the constants of a module, calls that become direct drop references one by one, and the constants that
are left move. In the end every instruction refers to the constant it was made with, and every constant has an
instruction that refers to it: while calls are made direct, a constant has no more uses than there are references to it.
-/

namespace Weft.Bytecode

/-! ### Uses without references -/

/-- Constants have no more uses than there are references to them. -/
def Lowering.Tight (l : Lowering) : Prop := ∀ k, l.pool.usesAt k ≤ l.asm.refs k

/-- The instructions of both streams. -/
def Assembly.all (a : Assembly) : List Nat := a.init.order.toList ++ a.code.order.toList

theorem Assembly.refs_eq (a : Assembly) (k : Nat) : a.refs k = (a.all.map a.instr).countP (Instruction.refers k) := by
  rw [all, List.map_append, List.countP_append]
  rfl

theorem Distinct.nodup_all {a : Assembly} (h : Distinct a) : a.all.Nodup := by
  refine List.nodup_append.mpr ⟨nodup_of_distinct h .init, nodup_of_distinct h .code, ?_⟩
  rintro n hn m hm rfl
  obtain ⟨i, hi⟩ := List.mem_iff_getElem?.mp hn
  obtain ⟨j, hj⟩ := List.mem_iff_getElem?.mp hm
  exact absurd (h .init .code i j n hi hj).1 (by decide)

/-- If values change at one place only, they lose a property at one place at most. -/
theorem countP_map_le_succ {α β : Type} {f g : α → β} {p : β → Bool} {ns : List α} {n : α} (hd : ns.Nodup)
    (h : ∀ m ∈ ns, m ≠ n → g m = f m) : (ns.map f).countP p ≤ (ns.map g).countP p + 1 := by
  by_cases hn : n ∈ ns
  · obtain ⟨a, b, rfl⟩ := List.append_of_mem hn
    have hne := List.nodup_middle.mp hd
    have hout : ∀ m ∈ a ++ b, m ≠ n := fun m hm heq => (List.nodup_cons.mp hne).1 (heq ▸ hm)
    have ha : a.map g = a.map f := List.map_congr_left fun m hm => h m (by simp [hm]) (hout m (by simp [hm]))
    have hb : b.map g = b.map f := List.map_congr_left fun m hm => h m (by simp [hm]) (hout m (by simp [hm]))
    simp only [List.map_append, List.map_cons, List.countP_append, List.countP_cons, ha, hb]
    split <;> split <;> omega
  · have hsame : ns.map g = ns.map f := List.map_congr_left fun m hm => h m hm fun heq => hn (heq ▸ hm)
    rw [hsame]
    omega

namespace Alters

variable {n k : Nat} {f : Instruction → Instruction → Prop} {a b : Assembly}

/-- References stay where the changed instruction keeps its own. -/
theorem refs_ge (h : Alters n f a b) (ho : SameOrder a b)
    (hf : ∀ x y, a.instrs[n]? = some x → f x y → x.refers k = true → y.refers k = true) : a.refs k ≤ b.refs k := by
  have hle : ∀ s, (a.listing s).countP (Instruction.refers k) ≤ (b.listing s).countP (Instruction.refers k) := by
    intro s
    rw [Assembly.listing, Assembly.listing, ho s, List.countP_map, List.countP_map]
    exact List.countP_mono_left fun m _ =>
      h.instr_cases (P := fun x y => x.refers k = true → y.refers k = true) (fun _ h => h) hf m
  exact Nat.add_le_add (hle .init) (hle .code)

/-- One changed instruction loses one reference at most. -/
theorem refs_le_succ (h : Alters n f a b) (ho : SameOrder a b) (hd : Distinct a) : a.refs k ≤ b.refs k + 1 := by
  have hall : b.all = a.all := by
    rw [Assembly.all, Assembly.all]
    exact congrArg₂ (fun x y => x.toList ++ y.toList) (ho .init) (ho .code)
  rw [Assembly.refs_eq, Assembly.refs_eq, hall]
  refine countP_map_le_succ (n := n) hd.nodup_all fun m _ hm => ?_
  simp only [Assembly.instr, h.others m hm]

end Alters

/-- A use that is dropped was there. -/
theorem Pool.usesAt_release {p p' : Pool} {k : Nat} (h : p.release k = .ok p') :
    p'.usesAt k + 1 = p.usesAt k ∧ ∀ j ≠ k, p'.usesAt j = p.usesAt j := by
  have hpos : 0 < p.usesAt k := by
    have hneg : ¬(k : Int) < 0 := by omega
    simp only [release, hneg, if_false, Int.toNat_natCast] at h
    split at h
    · next v n hk => simp [usesAt, hk]
    · simp at h
  obtain ⟨p₁, hp₁, hthis, hothers⟩ := release_ok hpos
  obtain rfl : p' = p₁ := Except.ok.inj (h.symm.trans hp₁)
  exact ⟨hthis, hothers⟩

section Tight

variable {c : Store × Module} {l₀ l l' : Lowering} {code : Section → List Piece} {u : PUnit} {d : DirectCall}

/-- A piece with a constant becomes a reference to it. -/
theorem Matches.refers_of {cs : List Constant} {x : Instruction} {q : Piece} {k : Nat} {v : Constant}
    (h : Matches cs x q) (hv : q.const = some v) (hk : cs[k]? = some v) (hd : cs.Nodup) : x.refers k = true := by
  obtain ⟨p, i, hp, hi, hops⟩ := h.const v hv
  have hpool : x.op.pool = some p := by rw [h.op, hp]
  have hlt : p < q.operands.length := by
    have := Opcode.pool_lt hpool
    rw [← h.sound.count, hops] at this
    simpa using this
  obtain rfl : i = k := (List.getElem?_inj (List.getElem?_eq_some_iff.mp hi).1 hd).mp (hi.trans hk.symm)
  rw [Instruction.refers_iff hpool, hops, List.getElem?_set_self hlt]

/-- When the declarations are compiled, the uses of a constant are references. -/
theorem Laid.tight (h : Laid l code) : l.Tight := by
  intro k
  cases hk : l.pool.entries[k]? with
  | none => simp [Pool.usesAt, hk]
  | some e =>
    obtain ⟨v, n⟩ := e
    have hv : l.pool.constants[k]? = some v := by simp [Pool.constants, hk]
    have hle : ∀ s, (Piece.consts (code s)).count v ≤ (l.asm.listing s).countP (Instruction.refers k) := by
      intro s
      rw [count_consts]
      refine countP_le_of_forall₂ (h.matches s).flip fun q x hm hq => ?_
      exact hm.refers_of (by simpa using hq) hv l.pool.nodup_constants
    have huses : l.pool.usesAt k = n := by simp [Pool.usesAt, hk]
    rw [huses, h.tallies.uses hk]
    exact Nat.add_le_add (hle .init) (hle .code)

/-- A reference goes away together with a use of the constant. -/
theorem Lowering.Tight.makeDirect (ht : l.Tight) (hu : Unlinked l.asm d) (hd : Distinct l.asm)
    (hr : Runs (Lower.makeDirect d c) l u l') : l'.Tight := by
  rcases runs_makeDirect hr with ⟨-, rfl⟩ | ⟨asm₂, asm₃, pool, entry, bits, -, -, hs₂, ha₂, hpool, hs₃, ha₃, rfl⟩
  · exact ht
  have ho₂ : SameOrder l.asm asm₂ := fun s => by rw [hs₂]
  have ho₃ : SameOrder asm₂ asm₃ := fun s => by rw [hs₃]
  obtain ⟨x, hx, hxop, hxops⟩ := hu.get
  obtain ⟨z, hz, hzop, -⟩ := hu.call
  have hne : d.call ≠ d.get := by
    intro heq
    rw [heq, hx] at hz
    rw [← Option.some.inj hz, hxop] at hzop
    simp at hzop
  obtain ⟨hthis, hothers⟩ := Pool.usesAt_release hpool
  intro k
  -- the call refers to no constant
  have hcall : asm₂.refs k ≤ asm₃.refs k := by
    refine ha₃.refs_ge ho₃ fun w _ hw _ hk => ?_
    rw [ha₂.others _ hne, hz] at hw
    rw [← Option.some.inj hw, Instruction.not_refers (by rw [hzop]; rfl)] at hk
    exact absurd hk Bool.false_ne_true
  have hlast : (Assembly.update d.part (fun st => { st with patches := st.patches.push (.position d.call entry 0) })
      asm₃).refs k = asm₃.refs k :=
    refs_update (f := fun st => { st with patches := st.patches.push (.position d.call entry 0) }) fun _ => rfl
  change pool.usesAt k ≤ (Assembly.update _ _ asm₃).refs k
  have hbefore := ht k
  by_cases hk : k = d.constant
  · subst hk
    have hget := ha₂.refs_le_succ (k := d.constant) ho₂ hd
    omega
  · have hget : l.asm.refs k ≤ asm₂.refs k := by
      refine ha₂.refs_ge ho₂ fun w _ hw _ href => ?_
      obtain rfl : x = w := Option.some.inj (hx.symm.trans hw)
      rw [Instruction.refers_iff (p := 0) (by rw [hxop]; rfl), hxops] at href
      have : d.constant = k := by simpa using href
      exact absurd this.symm hk
    have := hothers k hk
    omega

/-- What making one noted call direct preserves, making all of them does. -/
theorem Linking.makeDirects_keeps {P : Lowering → Prop} {ds : List DirectCall} {cs : List Constant}
    (h : Linking l₀ code cs l.asm) (hl : Laid l₀ code) (hd : ∀ d ∈ ds, d ∈ l₀.direct ∧ Unlinked l.asm d)
    (hcalls : (ds.map DirectCall.call).Nodup) (hgets : (ds.map DirectCall.get).Nodup) (he : l.entries = l₀.entries)
    (hstep : ∀ {d l l' u}, Linking l₀ code cs l.asm → Unlinked l.asm d → P l → Runs (Lower.makeDirect d c) l u l' → P l')
    (hP : P l) (hr : Runs (ds.forM fun d => Lower.makeDirect d c) l u l') : P l' := by
  induction ds generalizing l with
  | nil => rwa [runs_forM_nil.mp hr]
  | cons d ds ih =>
    obtain ⟨l₁, h1, h2⟩ := runs_forM_cons.mp hr
    obtain ⟨hdirect, hunlinked⟩ := hd d (by simp)
    obtain ⟨hcall, hcalls⟩ := List.nodup_cons.mp hcalls
    obtain ⟨hget, hgets⟩ := List.nodup_cons.mp hgets
    obtain ⟨hlink, hlinks, -, hentries⟩ := h.makeDirect hl hdirect he (by
      intro x hx
      obtain ⟨z, hz, hop, -⟩ := hunlinked.call
      obtain rfl : x = z := Option.some.inj (hx.symm.trans hz)
      exact hop) h1
    refine ih hlink (fun e hin => ?_) hcalls hgets (hentries.trans he) (hstep h hunlinked hP h1) h2
    obtain ⟨hedirect, heunlinked⟩ := hd e (by simp [hin])
    exact ⟨hedirect, hlinks.unlinked hl hdirect hedirect (fun heq => hget (heq ▸ List.mem_map_of_mem hin))
      (fun heq => hcall (heq ▸ List.mem_map_of_mem hin)) heunlinked⟩

theorem Laid.tight_makeDirects (hl : Laid l code) (hr : Runs (l.direct.forM fun d => Lower.makeDirect d c) l u l') :
    l'.Tight :=
  hl.linking.makeDirects_keeps hl (fun _ hd => ⟨hd, hl.unlinked hd⟩) hl.calls hl.gets rfl
    (fun hlink hu ht hr => ht.makeDirect hu hlink.distinct hr) hl.tight hr

end Tight

/-! ### Constants that are left -/

/-- Constants that are left have uses. -/
theorem Pool.mem_compact {p : Pool} {v : Constant} (h : v ∈ p.compact.2.constants) :
    ∃ k, p.constants[k]? = some v ∧ 0 < p.usesAt k := by
  obtain ⟨e, he, rfl⟩ := List.mem_map.mp h
  simp only [compact, Array.toList_filter, List.mem_filter, decide_eq_true_eq] at he
  obtain ⟨k, hk⟩ := List.mem_iff_getElem?.mp he.1
  have hk' : p.entries[k]? = some e := by simpa using hk
  exact ⟨k, by simp [constants, hk'], by simpa [usesAt, hk'] using Nat.pos_of_ne_zero he.2⟩

/-! ### Encoded instructions -/

/-- Whether an instruction of a piece is encoded when the calls of some functions are direct: marks are not, and what
pushes such a function in order to call it is not there any more. -/
def Piece.encoded (funcs : List FuncId) (q : Piece) : Bool :=
  q.op ≠ .mark && !(q.op = .getFunc && q.callee.any fun f => funcs.contains f)

/-- If an instruction has an operand for a constant, the operand is the position of the constant of the piece. -/
def Decoded.Designates (cs : List Constant) (d : Decoded) (q : Piece) : Prop :=
  ∀ p, d.op.pool = some p → d.op = q.op ∧
    ∃ (k : Nat) (v : Constant), q.const = some v ∧ d.operands[p]? = some (k : Int) ∧ cs[k]? = some v

/-- Whether an instruction refers to the constant at a position. -/
def Decoded.Refers (d : Decoded) (k : Nat) : Prop := ∃ p, d.op.pool = some p ∧ d.operands[p]? = some (k : Int)

theorem Opcode.offset_of_pool {op : Opcode} {p : Nat} (h : op.pool = some p) : op.offsetOperand? = none := by
  revert h
  cases op <;> simp [Opcode.pool, Opcode.info, Opcode.offsetOperand?, Opcode.isJump]

section Final

variable {cs : List Constant} {code : List Piece} {xs : List Instruction} {i : Nat} {x : Instruction} {q : Piece}

/-- An instruction that still is its piece refers to the constant of the piece. -/
theorem Kept.constant (h : Kept cs xs i x q) (ha : q.Aimed) {p : Nat} (hp : q.op.pool = some p) :
    ∃ (k : Nat) (v : Constant), q.const = some v ∧ x.operands[p]? = some (k : Int) ∧ cs[k]? = some v := by
  obtain ⟨y, hm, hplain, -⟩ := h.operands
  cases hc : q.const with
  | none =>
    rw [(hm.bare hc).1] at hp
    simp at hp
  | some v =>
    obtain ⟨p', k, hp', hk, hops⟩ := hm.const v hc
    obtain rfl : p = p' := Option.some.inj (hp.symm.trans hp')
    have hlt : p < y.operands.length := by
      rw [hm.sound.count, hm.op]
      exact Opcode.pool_lt hp
    refine ⟨k, v, rfl, ?_, hk⟩
    rw [hplain fun d hd => ?_, hops, List.getElem?_set_self (by simpa [hops] using hlt)]
    have : q.op.offsetOperand?.isSome = q.goal.isSome := ha
    simp [Opcode.offset_of_pool hp, hd] at this

/-- Two lists in step stay so when the same places are left out of both. -/
theorem forall₂_filterMap {α β γ : Type} {R : β → γ → Prop} {f : α → Option γ} {p : β → Bool} {xs : List α} {ys : List β}
    (h : List.Forall₂ (fun x y => (p y = true ↔ (f x).isSome = true) ∧ ∀ z, f x = some z → R y z) xs ys) :
    List.Forall₂ R (ys.filter p) (xs.filterMap f) := by
  induction h with
  | nil => exact .nil
  | @cons x y xs ys hxy _ ih =>
    obtain ⟨hp, hR⟩ := hxy
    cases hx : f x with
    | none =>
      have : p y = false := by simpa [hx] using hp
      rwa [List.filter_cons_of_neg (by simp [this]), List.filterMap_cons_none hx]
    | some z =>
      have : p y = true := by simpa [hx] using hp
      rw [List.filter_cons_of_pos this, List.filterMap_cons_some hx]
      exact .cons (hR z hx) ih

theorem encoded_of_calls {funcs : List FuncId} (h : q.Calls (· ∈ funcs)) (hop : q.op = .getFunc) :
    q.encoded funcs = false := by
  obtain ⟨f, hf, hmem⟩ := h
  simp [Piece.encoded, hop, hf, hmem]

theorem encoded_iff {funcs : List FuncId} (h : ¬(q.Calls (· ∈ funcs) ∧ q.op = .getFunc)) :
    q.encoded funcs = true ↔ q.op ≠ .mark := by
  have hkeep : (q.op = .getFunc && q.callee.any fun f => funcs.contains f) = false := by
    by_contra hnot
    simp only [Bool.not_eq_false, Bool.and_eq_true, decide_eq_true_eq, Option.any_eq_true, List.contains_iff_mem] at hnot
    obtain ⟨hop, f, hf, hmem⟩ := hnot
    exact h ⟨⟨f, hf, hmem⟩, hop⟩
  rw [Piece.encoded, hkeep]
  simp

/-- Encoded instructions refer to the constants of their pieces. -/
theorem Final.designates {funcs : List FuncId} (hf : Final cs code xs) (hd : Direct (· ∈ funcs) code xs)
    (ha : Directed code) :
    List.Forall₂ (fun q d => Decoded.Designates cs d q) (code.filter (Piece.encoded funcs))
      (xs.filterMap Instruction.decoded?) := by
  refine forall₂_filterMap (List.forall₂_iff_get.mpr ⟨hf.length, ?_⟩)
  intro i hi hi'
  have hx : xs[i]? = some xs[i] := List.getElem?_eq_getElem hi
  have hq : code[i]? = some code[i] := List.getElem?_eq_getElem hi'
  simp only [List.get_eq_getElem]
  generalize xs[i] = x at hx
  generalize code[i] = q at hq
  have hsome : x.decoded?.isSome = true ↔ x.op ≠ .mark := by
    unfold Instruction.decoded?
    split <;> simp_all
  rw [hsome]
  by_cases hcalls : q.Calls (· ∈ funcs)
  · rcases hd.named q (List.mem_of_getElem? hq) hcalls with hop | hop
    · have hmark := hd.got hq hx hcalls hop
      refine ⟨by simp [encoded_of_calls hcalls hop, hmark], ?_⟩
      intro d hdec
      simp [Instruction.decoded?, hmark] at hdec
    · have hcall := (hd.called hq hx hcalls hop).1
      refine ⟨?_, ?_⟩
      · rw [encoded_iff (by simp [hop]), hop, hcall]
        decide
      · intro d hdec p hp
        have : d.op = .call := by
          simp only [Instruction.decoded?, hcall] at hdec
          rw [← Option.some.inj hdec]
        simp [this, Opcode.pool, Opcode.info] at hp
  · have hop := hd.same hq hx hcalls
    refine ⟨by rw [encoded_iff fun h => hcalls h.1, hop], ?_⟩
    intro d hdec p hp
    have hm : x.op ≠ .mark := by
      intro hm
      simp [Instruction.decoded?, hm] at hdec
    simp only [Instruction.decoded?, hm, if_false, Option.some.injEq] at hdec
    subst hdec
    obtain ⟨x', hx', -, hkept | ⟨hget, hmark⟩ | ⟨hcall, hcalled⟩⟩ := hf.shows hq
    · obtain rfl : x = x' := Option.some.inj (hx.symm.trans hx')
      exact ⟨hop, hkept.constant (ha q (List.mem_of_getElem? hq)) (hop ▸ hp)⟩
    · rw [← Option.some.inj (hx.symm.trans hx')] at hmark
      exact absurd hmark hm
    · rw [← Option.some.inj (hx.symm.trans hx'), hop, hcall] at hcalled
      simp at hcalled

end Final

section Compiled

variable {st : Store} {m : Module} {p : Typed.Program} {out : Compiled}

/-- A constant that is left when calls are direct belongs to a piece that is no direct call. -/
theorem Laid.referred {c : Store × Module} {l l' : Lowering} {code : Section → List Piece} {u : PUnit} {v : Constant}
    (hl : Laid l code) (hr : Runs (l.direct.forM fun d => Lower.makeDirect d c) l u l')
    (hv : v ∈ l'.pool.compact.2.constants) :
    ∃ (s : Section) (i : Nat) (q : Piece), (code s)[i]? = some q ∧ q.const = some v ∧ ¬q.Calls l.direct? := by
  obtain ⟨hlink, hpool, -, hends⟩ := hl.makeDirects hr
  obtain ⟨k, hk, huses⟩ := Pool.mem_compact hv
  have hrefs : 0 < l'.asm.refs k := Nat.lt_of_lt_of_le huses (hl.tight_makeDirects hr k)
  obtain ⟨s, x, hmem, href⟩ : ∃ s, ∃ x ∈ l'.asm.listing s, x.refers k = true := by
    rcases Nat.add_pos_iff_pos_or_pos.mp hrefs with h | h
    · exact ⟨.init, List.countP_pos_iff.mp h⟩
    · exact ⟨.code, List.countP_pos_iff.mp h⟩
  obtain ⟨n, hn, rfl⟩ := List.mem_map.mp hmem
  obtain ⟨i, hi⟩ := List.mem_iff_getElem?.mp hn
  have hi : (l.order s)[i]? = some n := by rwa [hlink.order] at hi
  have hlt : i < (code s).length := by
    rw [← hl.count]
    exact (List.getElem?_eq_some_iff.mp hi).1
  obtain ⟨n', x, hn', hx, hlinked⟩ := hlink.views s i _ (List.getElem?_eq_getElem hlt)
  rw [hlink.order] at hn'
  obtain rfl : n = n' := Option.some.inj (hi.symm.trans hn')
  rw [Assembly.instr, hx, Option.getD_some] at href
  refine ⟨s, i, _, List.getElem?_eq_getElem hlt, ?_⟩
  have hpooled : ∀ {op : Opcode}, x.op = op → op.pool ≠ none := by
    rintro op rfl hnone
    rw [Instruction.not_refers hnone] at href
    exact absurd href Bool.false_ne_true
  cases hlinked with
  | got _ hxop => exact absurd rfl (hpooled hxop)
  | called _ hxop => exact absurd rfl (hpooled hxop)
  | same hm =>
    obtain ⟨w, hw, hkw⟩ := hm.refers href
    rw [← hpool, hk] at hkw
    refine ⟨by rw [hw, Option.some.inj hkw], fun hcalls => ?_⟩
    rcases (hends s i _ n x (List.getElem?_eq_getElem hlt) hi hx hcalls).2 with hop | hop
    · exact absurd rfl (hpooled hop)
    · exact absurd rfl (hpooled hop)

theorem compile_nodup (h : compile st m p = .ok out) : out.constants.Nodup := by
  obtain ⟨l, _, -, h2⟩ := compile_runs h
  obtain ⟨l₁, _, -, -, -, -, hconstants⟩ := runs_finish_fields h2
  rw [hconstants]
  exact Pool.nodup_constants _

/-- The constants of a compiled module are different. Every encoded instruction refers to the constant of its piece, which
is the one that its operand stood for when it was emitted, and every constant has an instruction that refers to it. -/
theorem compile_references (h : compile st m p = .ok out) :
    out.constants.Nodup ∧
      (∃ l, Runs (Lower.program p (st, m)) .start () l ∧
        ∀ s, List.Forall₂ (Matches l.pool.constants) (l.asm.listing s) (programCode (st, m) p s)) ∧
      ∃ ds : Section → List Decoded, decode out.init = (ds .init, none) ∧ decode out.code = (ds .code, none) ∧
        (∀ s, List.Forall₂ (fun q d => d.Designates out.constants q)
          ((programCode (st, m) p s).filter (Piece.encoded (p.funcs.map Typed.FuncDecl.symbol))) (ds s)) ∧
        ∀ k < out.constants.length, ∃ s, ∃ d ∈ ds s, d.Refers k := by
  obtain ⟨l, _, h1, h2⟩ := compile_runs h
  obtain ⟨hlaid, hentries, -⟩ := runs_program h1
  obtain ⟨l₁, _, hdirects, -, -, -, hconstants⟩ := runs_finish_fields h2
  obtain ⟨xs, hfinal, hdirect, -, hinit, hcode, -, hbodies⟩ := compile_linked h
  have haimed : ∀ s, Directed (programCode (st, m) p s) := by
    intro s
    cases s with
    | init => exact framed_init.directed
    | code => exact (framed_funcs hbodies).directed
  have hnodup := compile_nodup h
  refine ⟨hnodup, ⟨l, h1, fun s => hlaid.matches s⟩, fun s => (xs s).filterMap Instruction.decoded?,
    by rw [hinit, (hfinal .init).decode], by rw [hcode, (hfinal .code).decode],
    fun s => (hfinal s).designates (hdirect s) (haimed s), ?_⟩
  intro k hk
  obtain ⟨s, i, q, hq, hconst, hnot⟩ := hlaid.referred hdirects (v := out.constants[k])
    (by rw [← hconstants]; exact List.getElem_mem hk)
  rw [direct?_eq (fst_entries hentries)] at hnot
  obtain ⟨_, _, -, -, hm⟩ := hlaid.pieces hq
  obtain ⟨operand, _, hpool, -⟩ := hm.const _ hconst
  obtain ⟨z, hz, -, hshown⟩ := (hfinal s).shows hq
  have hop := (hdirect s).same hq hz hnot
  have hnotMark : z.op ≠ .mark := by
    intro hmark
    rw [← hop, hmark] at hpool
    simp [Opcode.pool, Opcode.info] at hpool
  have hkept : Kept out.constants (xs s) i z q := by
    rcases hshown with hkept | ⟨-, hmark⟩ | ⟨hcall, hcalled⟩
    · exact hkept
    · exact absurd hmark hnotMark
    · rw [hop, hcall] at hcalled
      simp at hcalled
  obtain ⟨k', v, hv, hoperand, hk'⟩ := hkept.constant (haimed s q (List.mem_of_getElem? hq)) hpool
  rw [hconst] at hv
  obtain rfl : k = k' := (List.getElem?_inj hk hnodup).mp
    ((List.getElem?_eq_getElem hk).trans (by rw [hk', Option.some.inj hv]))
  exact ⟨s, _, mem_read (hfinal s) hz hnotMark, operand, by rw [← hpool, ← hop]; rfl, hoperand⟩

end Compiled

/-- A program with a function that calls itself, and pushes itself as a value. -/
def selfCall : Typed.Program :=
  let access (line : Nat) (a : Typed.Access) : Typed.Stmt := .discard line 1 (.call ⟨line, a, "f", none, default, none, []⟩)
  let frame : Typed.Frame := { slots := 0, params := [], line := 1, body := [access 2 (.func ⟨0⟩), access 3 (.funcRef ⟨0⟩)] }
  ⟨"m", [.func ⟨1, ⟨0⟩, some frame⟩]⟩

theorem compile_selfCall_references : ∃ out, compile .empty default selfCall = .ok out ∧ out.constants.Nodup ∧
    (∃ l, Runs (Lower.program selfCall (.empty, default)) .start () l ∧
      ∀ s, List.Forall₂ (Matches l.pool.constants) (l.asm.listing s) (programCode (.empty, default) selfCall s)) ∧
    ∃ ds : Section → List Decoded, decode out.init = (ds .init, none) ∧ decode out.code = (ds .code, none) ∧
      (∀ s, List.Forall₂ (fun q d => d.Designates out.constants q)
        ((programCode (.empty, default) selfCall s).filter (Piece.encoded (selfCall.funcs.map Typed.FuncDecl.symbol)))
        (ds s)) ∧
      ∀ k < out.constants.length, ∃ s, ∃ d ∈ ds s, d.Refers k := by
  have hok : (compile .empty default selfCall).isOk = true := by decide +kernel
  cases h : compile .empty default selfCall with
  | error e =>
    rw [h] at hok
    cases hok
  | ok out => exact ⟨out, rfl, compile_references h⟩

end Weft.Bytecode
