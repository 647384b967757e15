import Weft.Proofs.Bytecode.Compiles
import Weft.Proofs.Bytecode.Finish

/-!
# Trusted programs are finished

While calls are made direct, every constant keeps at least as many uses as there are instructions that refer to
it. So no use is released that is not there, and no instruction refers to a constant that is dropped. Requests and
patches are for operands that their instructions have.
-/

namespace Weft.Bytecode

/-! ### References to constants -/

/-- Whether an instruction refers to the constant at a position. -/
def Instruction.refers (k : Nat) (x : Instruction) : Bool :=
  match x.op.pool with
  | none => false
  | some p => x.operands[p]? = some (k : Int)

/-- How many instructions of the streams refer to the constant at a position. -/
def Assembly.refs (a : Assembly) (k : Nat) : Nat :=
  (a.listing .init).countP (Instruction.refers k) + (a.listing .code).countP (Instruction.refers k)

/-- The number of uses of the constant at a position. -/
def Pool.usesAt (p : Pool) (k : Nat) : Nat := (p.entries[k]?.map Prod.snd).getD 0

/-- Constants have at least as many uses as there are references to them. -/
def Lowering.Covered (l : Lowering) : Prop := ∀ k, l.asm.refs k ≤ l.pool.usesAt k

theorem Instruction.refers_iff {k p : Nat} {x : Instruction} (hp : x.op.pool = some p) :
    x.refers k = true ↔ x.operands[p]? = some (k : Int) := by
  simp [refers, hp]

theorem Instruction.not_refers {k : Nat} {x : Instruction} (hp : x.op.pool = none) : x.refers k = false := by
  simp [refers, hp]

theorem countP_map_lt {α β : Type} {f g : α → β} {p : β → Bool} {ns : List α} {n : α}
    (h : ∀ m ∈ ns, p (g m) = true → p (f m) = true) (hn : n ∈ ns) (hf : p (f n) = true) (hg : p (g n) = false) :
    (ns.map g).countP p + 1 ≤ (ns.map f).countP p := by
  obtain ⟨a, b, rfl⟩ := List.append_of_mem hn
  simp only [List.countP_map, List.countP_append, List.countP_cons, Function.comp_apply, hf, hg]
  have ha := List.countP_mono_left (p := p ∘ g) (q := p ∘ f) (l := a) fun m hm => h m (by simp [hm])
  have hb := List.countP_mono_left (p := p ∘ g) (q := p ∘ f) (l := b) fun m hm => h m (by simp [hm])
  simp only [Bool.false_eq_true, if_false, if_true]
  omega

namespace Alters

variable {n k : Nat} {f : Instruction → Instruction → Prop} {a b : Assembly}

/-- What holds of the instruction that changes holds of all. -/
theorem instr_cases {P : Instruction → Instruction → Prop} (h : Alters n f a b) (hrefl : ∀ x, P x x)
    (hf : ∀ x y, a.instrs[n]? = some x → f x y → P x y) (m : Nat) : P (a.instr m) (b.instr m) := by
  by_cases hm : m = n
  · subst hm
    cases hx : a.instrs[m]? with
    | none =>
      have hb : b.instrs[m]? = none := by
        rw [Array.getElem?_eq_none_iff] at hx ⊢
        rwa [h.size]
      simpa only [Assembly.instr, hx, hb] using hrefl _
    | some x =>
      obtain ⟨y, hy, hxy⟩ := h.this x hx
      simpa only [Assembly.instr, hx, hy, Option.getD_some] using hf x y hx hxy
  · simpa only [Assembly.instr, h.others m hm] using hrefl _

theorem refs_le (h : Alters n f a b) (ho : SameOrder a b) (hf : ∀ x y, f x y → y.refers k = true → x.refers k = true) :
    b.refs k ≤ a.refs k := by
  have hle : ∀ s, (b.listing s).countP (Instruction.refers k) ≤ (a.listing s).countP (Instruction.refers k) := by
    intro s
    rw [Assembly.listing, Assembly.listing, ho s, List.countP_map, List.countP_map]
    refine List.countP_mono_left fun m _ => ?_
    exact h.instr_cases (P := fun x y => y.refers k = true → x.refers k = true) (fun _ h => h) (fun x y _ => hf x y) m
  exact Nat.add_le_add (hle .init) (hle .code)

/-- A reference goes away. -/
theorem refs_lt {s : Section} {x : Instruction} (h : Alters n f a b) (ho : SameOrder a b)
    (hf : ∀ x y, f x y → y.refers k = false) (hn : n ∈ (a.stream s).order.toList) (hx : a.instrs[n]? = some x)
    (hk : x.refers k = true) : b.refs k + 1 ≤ a.refs k := by
  have hstep : ∀ m, (b.instr m).refers k = true → (a.instr m).refers k = true :=
    h.instr_cases (P := fun x y => y.refers k = true → x.refers k = true) (fun _ h => h) fun x y _ hxy hy => by
      rw [hf x y hxy] at hy
      exact absurd hy Bool.false_ne_true
  have hle : ∀ t, (b.listing t).countP (Instruction.refers k) ≤ (a.listing t).countP (Instruction.refers k) := by
    intro t
    rw [Assembly.listing, Assembly.listing, ho t, List.countP_map, List.countP_map]
    exact List.countP_mono_left fun m _ => hstep m
  have hlt : (b.listing s).countP (Instruction.refers k) + 1 ≤ (a.listing s).countP (Instruction.refers k) := by
    rw [Assembly.listing, Assembly.listing, ho s]
    obtain ⟨y, hy, hxy⟩ := h.this x hx
    refine countP_map_lt (fun m _ => hstep m) hn ?_ ?_
    · simpa only [Assembly.instr, hx, Option.getD_some] using hk
    · simpa only [Assembly.instr, hy, Option.getD_some] using hf x y hxy
  have hinit := hle .init
  have hcode := hle .code
  unfold Assembly.refs
  cases s with
  | init => omega
  | code => omega

end Alters

theorem refs_update {a : Assembly} {s : Section} {f : Stream → Stream} {k : Nat} (hf : ∀ st, (f st).order = st.order) :
    (Assembly.update s f a).refs k = a.refs k := by
  have hlisting : ∀ t, (Assembly.update s f a).listing t = a.listing t := by
    intro t
    have hinstr : (Assembly.update s f a).instr = a.instr := by
      funext n
      simp only [Assembly.instr, Assembly.instrs_update]
    by_cases ht : t = s
    · subst ht
      rw [Assembly.listing, Assembly.listing, Assembly.stream_update_self, hf, hinstr]
    · rw [Assembly.listing, Assembly.listing, Assembly.stream_update_ne ht, hinstr]
  simp only [Assembly.refs, hlisting]

/-! ### Uses of constants -/

theorem Pool.release_ok {p : Pool} {k : Nat} (h : 0 < p.usesAt k) :
    ∃ p', p.release k = .ok p' ∧ p'.usesAt k + 1 = p.usesAt k ∧ ∀ j ≠ k, p'.usesAt j = p.usesAt j := by
  obtain ⟨v, n, hk⟩ : ∃ v n, p.entries[k]? = some (v, n + 1) := by
    unfold usesAt at h
    cases hk : p.entries[k]? with
    | none => simp [hk] at h
    | some e =>
      obtain ⟨v, n⟩ := e
      cases n with
      | zero => simp [hk] at h
      | succ n => exact ⟨v, n, rfl⟩
  have hneg : ¬(k : Int) < 0 := by omega
  refine ⟨p.recount k fun _ => n, by simp [release, hneg, hk], ?_, ?_⟩
  · simp [usesAt, recount, Array.getElem?_modify, hk]
  · intro j hj
    simp [usesAt, recount, Array.getElem?_modify, hj.symm]

/-- A constant with uses is kept. -/
theorem Pool.compact_some {p p' : Pool} {ps : List (Option Nat)} {k : Nat} (h : p.compact = (ps, p'))
    (hk : 0 < p.usesAt k) : ∃ j, ps[k]? = some (some j) := by
  obtain rfl : p.compact.1 = ps := by rw [h]
  unfold usesAt at hk
  cases he : p.entries[k]? with
  | none => simp [he] at hk
  | some e =>
    rw [he] at hk
    obtain ⟨j, hj, -⟩ := compact_kept he (Nat.ne_of_gt hk)
    exact ⟨j, hj⟩

theorem countP_le_of_forall₂ {α β : Type} {R : α → β → Prop} {p : α → Bool} {q : β → Bool} {xs : List α} {ys : List β}
    (h : List.Forall₂ R xs ys) (hpq : ∀ x y, R x y → p x = true → q y = true) : xs.countP p ≤ ys.countP q := by
  induction h with
  | nil => exact Nat.le_refl _
  | @cons x y xs ys hxy _ ih =>
    rw [List.countP_cons, List.countP_cons]
    have := hpq x y hxy
    by_cases hp : p x = true
    · simp only [hp, if_true, this hp]
      omega
    · simp only [hp, if_false, Bool.false_eq_true]
      omega

theorem count_consts (code : List Piece) (v : Constant) :
    (Piece.consts code).count v = code.countP fun q => q.const = some v := by
  induction code with
  | nil => rfl
  | cons q code ih =>
    unfold Piece.consts at ih ⊢
    cases hq : q.const with
    | none => simp [hq, ih]
    | some w => simp [hq, ih, List.count_cons, List.countP_cons]

section Laid

variable {c : Store × Module} {l l' : Lowering} {code : Section → List Piece}

theorem Laid.matches (h : Laid l code) (s : Section) :
    List.Forall₂ (Matches l.pool.constants) (l.asm.listing s) (code s) := by
  refine List.forall₂_iff_get.mpr ⟨?_, ?_⟩
  · simpa [Assembly.listing, Lowering.order] using h.count s
  · intro i hi hi'
    obtain ⟨n, x, hn, hx, hm⟩ := h.pieces (List.getElem?_eq_getElem hi')
    have hget : (l.asm.listing s)[i]? = some x := by
      simp only [Assembly.listing, List.getElem?_map]
      have hn : (l.asm.stream s).order.toList[i]? = some n := hn
      rw [hn, Option.map_some, Assembly.instr, hx, Option.getD_some]
    have hval : (l.asm.listing s)[i] = x := by
      rw [List.getElem?_eq_getElem hi] at hget
      exact Option.some.inj hget
    simpa [hval] using hm

/-- A reference is to the constant of the piece. -/
theorem Matches.refers {cs : List Constant} {x : Instruction} {q : Piece} {k : Nat} (h : Matches cs x q)
    (hk : x.refers k = true) : ∃ v, q.const = some v ∧ cs[k]? = some v := by
  cases hc : q.const with
  | none =>
    rw [Instruction.not_refers (by rw [h.op, (h.bare hc).1])] at hk
    exact absurd hk Bool.false_ne_true
  | some v =>
    obtain ⟨p, i, hp, hi, hops⟩ := h.const v hc
    have hpool : x.op.pool = some p := by rw [h.op, hp]
    have hat := (Instruction.refers_iff hpool).mp hk
    have hlt : p < q.operands.length := by
      have := (List.getElem?_eq_some_iff.mp hat).1
      rw [hops] at this
      simpa using this
    rw [hops, List.getElem?_set_self hlt] at hat
    obtain rfl : i = k := by simpa using hat
    exact ⟨v, rfl, hi⟩

/-- When the declarations are compiled, the references to a constant are its uses. -/
theorem Laid.covered (h : Laid l code) : l.Covered := by
  intro k
  cases hk : l.pool.entries[k]? with
  | none =>
    have hnone : l.pool.constants[k]? = none := by simp [Pool.constants, hk]
    have hzero : ∀ s, (l.asm.listing s).countP (Instruction.refers k) = 0 := by
      intro s
      refine Nat.le_zero.mp ((countP_le_of_forall₂ (q := fun _ => false) (h.matches s) ?_).trans (by simp))
      intro x q hm hx
      obtain ⟨v, -, hv⟩ := hm.refers hx
      rw [hnone] at hv
      simp at hv
    simp [Assembly.refs, hzero]
  | some e =>
    obtain ⟨v, n⟩ := e
    have hv : l.pool.constants[k]? = some v := by simp [Pool.constants, hk]
    have hle : ∀ s, (l.asm.listing s).countP (Instruction.refers k) ≤ (Piece.consts (code s)).count v := by
      intro s
      rw [count_consts]
      refine countP_le_of_forall₂ (h.matches s) ?_
      intro x q hm hx
      obtain ⟨w, hw, hkw⟩ := hm.refers hx
      rw [hv] at hkw
      simpa [hkw] using hw
    have huses : l.pool.usesAt k = n := by simp [Pool.usesAt, hk]
    rw [huses, h.tallies.uses hk]
    exact Nat.add_le_add (hle .init) (hle .code)

end Laid

/-! ### Direct calls -/

namespace Lower

variable {α β : Type} {c : Store × Module} {l : Lowering}

theorem bounded_lift_bind {m : Except Violation α} {f : α → Lower β} {x : α} (hm : m = .ok x)
    (hf : Bounded (f x c) l) : Bounded (((liftM m : Lower α) >>= f) c) l := by
  subst hm
  exact hf

end Lower

/-- A noted call of which the two instructions still are what they were. -/
structure Unlinked (a : Assembly) (d : DirectCall) : Prop where
  get : ∃ x, a.instrs[d.get]? = some x ∧ x.op = .getFunc ∧ x.operands = [(d.constant : Int)]
  call : ∃ x, a.instrs[d.call]? = some x ∧ x.op = .callPtr ∧ x.operands.length = 1

section Direct

variable {c : Store × Module} {l₀ l l' : Lowering} {code : Section → List Piece} {u : PUnit} {d e : DirectCall}

theorem Laid.unlinked (h : Laid l code) (hd : d ∈ l.direct) : Unlinked l.asm d := by
  obtain ⟨⟨i, q, hi, hget, hq, -⟩, j, r, hj, hcall, hr, -⟩ := h.direct d hd
  obtain ⟨n, x, hn, hx, hm⟩ := h.pieces hi
  obtain rfl : n = d.get := Option.some.inj (hn.symm.trans hget)
  obtain ⟨n, z, hn, hz, hm'⟩ := h.pieces hj
  obtain rfl : n = d.call := Option.some.inj (hn.symm.trans hcall)
  have hheld := h.held d hd
  rw [Assembly.instr, hx, Option.getD_some] at hheld
  refine ⟨⟨x, hx, hm.op.trans hq, hheld⟩, z, hz, hm'.op.trans hr, ?_⟩
  rw [hm'.sound.count, hm'.op, hr]
  rfl

theorem Laid.get_ne_call (h : Laid l code) (hd : d ∈ l.direct) (he : e ∈ l.direct) : d.get ≠ e.call := by
  intro heq
  obtain ⟨⟨i, q, hi, hget, hq, -⟩, -⟩ := h.direct d hd
  obtain ⟨-, j, r, hj, hcall, hr, -⟩ := h.direct e he
  rw [heq] at hget
  obtain ⟨hpart, rfl⟩ := h.distinct hget hcall
  rw [← hpart, hi] at hj
  rw [← Option.some.inj hj, hq] at hr
  simp at hr

theorem Unlinked.usesAt (h : Unlinked l.asm d) (hc : l.Covered) {s : Section}
    (hd : d.get ∈ (l.asm.stream s).order.toList) : 0 < l.pool.usesAt d.constant := by
  obtain ⟨x, hx, hop, hops⟩ := h.get
  have hrefers : (l.asm.instr d.get).refers d.constant = true := by
    rw [Assembly.instr, hx, Option.getD_some]
    exact (Instruction.refers_iff (p := 0) (by rw [hop]; rfl)).mpr (by simp [hops])
  have hpos : 0 < (l.asm.listing s).countP (Instruction.refers d.constant) :=
    List.countP_pos_iff.mpr ⟨_, List.mem_map_of_mem hd, hrefers⟩
  have hle := hc d.constant
  unfold Assembly.refs at hle
  cases s with
  | init => omega
  | code => omega

theorem bounded_replace_call {n : Nat} {bits : Int} {a : Assembly} (h : n < a.instrs.size) :
    Bounded (Assemble.replace n .call [0, bits]) a := by
  have hwidths : Opcode.call.widths = [3, 4] ∧ Opcode.call.guarded = [] := by decide
  unfold Assemble.replace
  rw [if_neg (by simp [hwidths.1]), bounded_modify_bind]
  simp only [List.zipIdx_cons, List.zipIdx_nil]
  refine bounded_forM (fun a => (a.instr n).op = .call) ?_ ?_ ?_
  · rintro ⟨v, i⟩ hmem a hop
    have hi : ∃ w, Opcode.call.widths[i]? = some w := by
      simp only [List.mem_cons, Prod.mk.injEq, List.not_mem_nil, or_false] at hmem
      rw [hwidths.1]
      rcases hmem with ⟨-, rfl⟩ | ⟨-, rfl⟩
      · exact ⟨3, rfl⟩
      · exact ⟨4, rfl⟩
    obtain ⟨w, hw⟩ := hi
    exact Assemble.bounded_setOperand (w := w) (by rw [hop, hw]) (by simp [hop, hwidths.2])
  · rintro ⟨v, i⟩ - a _ b hop hr
    refine ((alters_setOperand hr).2.instr_cases (P := fun x y => x.op = .call → y.op = .call) (fun _ h => h) ?_ n) hop
    intro x y _ hset hx
    obtain ⟨_, _, _, rfl⟩ := Assemble.setOperand_ok hset
    exact hx
  · simp only [Assembly.instr, Array.getElem?_modify, if_true, Array.getElem?_eq_getElem h, Option.map_some,
      Option.getD_some]

/-- A call is made direct. -/
theorem bounded_makeDirect (hu : Unlinked l.asm d) (hc : l.Covered) {s : Section}
    (hd : d.get ∈ (l.asm.stream s).order.toList) : Bounded (Lower.makeDirect d c) l := by
  unfold Lower.makeDirect
  rw [Lower.bounded_get_bind]
  cases hlook : l.startOf? d.func with
  | none => exact Lower.bounded_pure
  | some entry =>
    obtain ⟨z, hz, hop, hlen⟩ := hu.call
    have hcall : 0 < (l.asm.instr d.call).operands.length := by
      rw [Assembly.instr, hz, Option.getD_some, hlen]
      exact Nat.one_pos
    refine Lower.bounded_bind (Lower.bounded_assemble (Assemble.bounded_operand hcall)) fun bits l₁ h1 => ?_
    obtain ⟨asm₁, ho, rfl⟩ := Lower.runs_assemble.mp h1
    obtain ⟨-, rfl⟩ := Assemble.runs_operand ho
    refine Lower.bounded_bind (Lower.bounded_assemble Assemble.bounded_replace_mark) fun _ l₂ h2 => ?_
    obtain ⟨asm₂, hm, rfl⟩ := Lower.runs_assemble.mp h2
    rw [Lower.bounded_get_bind]
    obtain ⟨pool, hpool, -, -⟩ := Pool.release_ok (hu.usesAt hc hd)
    refine Lower.bounded_lift_bind hpool ?_
    rw [Lower.bounded_modify_bind]
    have hsize : d.call < asm₂.instrs.size := by
      rw [(alters_replace_mark hm).2.size]
      exact (Array.getElem?_eq_some_iff.mp hz).1
    refine Lower.bounded_bind (Lower.bounded_assemble (bounded_replace_call hsize)) fun _ l₃ _ => ?_
    exact Lower.bounded_assemble bounded_modify

theorem resolved_makeDirect (hr : Runs (Lower.makeDirect d c) l u l') (s : Section) :
    (l'.asm.stream s).resolved = (l.asm.stream s).resolved := by
  rcases runs_makeDirect hr with ⟨-, rfl⟩ | ⟨asm₂, asm₃, pool, entry, bits, -, -, hs₂, -, -, hs₃, -, rfl⟩
  · rfl
  · by_cases hs : s = d.part
    · subst hs
      rw [Assembly.stream_update_self, hs₃, hs₂]
    · rw [Assembly.stream_update_ne hs, hs₃, hs₂]

/-- A use of a constant goes away together with the reference. -/
theorem Lowering.Covered.makeDirect (hu : Unlinked l.asm d) (hc : l.Covered) {s : Section}
    (hd : d.get ∈ (l.asm.stream s).order.toList) (hr : Runs (Lower.makeDirect d c) l u l') : l'.Covered := by
  rcases runs_makeDirect hr with ⟨-, rfl⟩ | ⟨asm₂, asm₃, pool, entry, bits, -, -, hs₂, ha₂, hpool, hs₃, ha₃, rfl⟩
  · exact hc
  have ho₂ : SameOrder l.asm asm₂ := fun s => by rw [hs₂]
  have ho₃ : SameOrder asm₂ asm₃ := fun s => by rw [hs₃]
  obtain ⟨x, hx, hop, hops⟩ := hu.get
  have hmark : ∀ {k : Nat} (x y : Instruction), y = { x with op := .mark, operands := [] } → y.refers k = false := by
    rintro k x _ rfl
    exact Instruction.not_refers rfl
  have hcalled : ∀ {k : Nat} (x y : Instruction),
      (y.op = .call ∧ y.line = x.line ∧ y.operands[1]? = some bits ∧ y.Sound) → y.refers k = true →
        x.refers k = true := by
    rintro k x y ⟨hop, -⟩ hy
    rw [Instruction.not_refers (by rw [hop]; rfl)] at hy
    exact absurd hy Bool.false_ne_true
  obtain ⟨pool', hpool', hthis, hothers⟩ := Pool.release_ok (hu.usesAt hc hd)
  obtain rfl : pool = pool' := Except.ok.inj (hpool.symm.trans hpool')
  intro k
  have hlast : (Assembly.update d.part (fun st => { st with patches := st.patches.push (.position d.call entry 0) })
      asm₃).refs k ≤ asm₂.refs k := by
    rw [refs_update (f := fun st => { st with patches := st.patches.push (.position d.call entry 0) }) fun _ => rfl]
    exact ha₃.refs_le ho₃ hcalled
  have hbefore := hc k
  change (Assembly.update _ _ asm₃).refs k ≤ pool.usesAt k
  by_cases hk : k = d.constant
  · subst hk
    have hlt := ha₂.refs_lt (k := d.constant) ho₂ hmark hd hx
      ((Instruction.refers_iff (p := 0) (by rw [hop]; rfl)).mpr (by simp [hops]))
    omega
  · have hle := ha₂.refs_le (k := k) ho₂ fun x y hxy hy => by
      rw [hmark x y hxy] at hy
      exact absurd hy Bool.false_ne_true
    rw [hothers k hk]
    omega

/-- A call that is made direct is not that of another function. -/
theorem Links.unlinked (h : Links l₀.direct? d l.asm l'.asm) (hl : Laid l₀ code) (hd : d ∈ l₀.direct)
    (he : e ∈ l₀.direct) (hget : e.get ≠ d.get) (hcall : e.call ≠ d.call) (hu : Unlinked l.asm e) :
    Unlinked l'.asm e := by
  have hother := h.others e.get hget (hl.get_ne_call he hd)
  have hother' := h.others e.call (hl.get_ne_call hd he).symm hcall
  exact ⟨by rw [hother]; exact hu.get, by rw [hother']; exact hu.call⟩

/-- All noted calls are made direct, and the constants stay covered. -/
theorem bounded_makeDirects {ds : List DirectCall} {cs : List Constant} (h : Linking l₀ code cs l.asm)
    (hl : Laid l₀ code) (hd : ∀ d ∈ ds, d ∈ l₀.direct ∧ Unlinked l.asm d)
    (hcalls : (ds.map DirectCall.call).Nodup) (hgets : (ds.map DirectCall.get).Nodup) (he : l.entries = l₀.entries)
    (hc : l.Covered) :
    Bounded (ds.forM fun d => Lower.makeDirect d c) l ∧
      ∀ {u l'}, Runs (ds.forM fun d => Lower.makeDirect d c) l u l' → Linking l₀ code cs l'.asm ∧ l'.Covered ∧
        ∀ s, (l'.asm.stream s).resolved = (l.asm.stream s).resolved := by
  induction ds generalizing l with
  | nil =>
    refine ⟨bounded_pure, ?_⟩
    intro u l' hr
    rw [runs_forM_nil.mp hr]
    exact ⟨h, hc, fun _ => rfl⟩
  | cons d ds ih =>
    obtain ⟨hdirect, hunlinked⟩ := hd d (by simp)
    obtain ⟨hcall, hcalls⟩ := List.nodup_cons.mp hcalls
    obtain ⟨hget, hgets⟩ := List.nodup_cons.mp hgets
    have hmem : d.get ∈ (l.asm.stream d.part).order.toList := by
      obtain ⟨⟨i, q, -, hat, -⟩, -⟩ := hl.direct d hdirect
      rw [h.order d.part]
      exact List.mem_of_getElem? hat
    have rest : ∀ {l₁ : Lowering}, Runs (Lower.makeDirect d c) l () l₁ →
        Bounded (ds.forM fun d => Lower.makeDirect d c) l₁ ∧
          ∀ {u l'}, Runs (ds.forM fun d => Lower.makeDirect d c) l₁ u l' → Linking l₀ code cs l'.asm ∧ l'.Covered ∧
            ∀ s, (l'.asm.stream s).resolved = (l₁.asm.stream s).resolved := by
      intro l₁ h1
      obtain ⟨hlink, hlinks, -, hentries⟩ := h.makeDirect hl hdirect he (by
        intro x hx
        obtain ⟨z, hz, hop, -⟩ := hunlinked.call
        obtain rfl : x = z := Option.some.inj (hx.symm.trans hz)
        exact hop) h1
      refine ih hlink ?_ hcalls hgets (hentries.trans he) (hc.makeDirect hunlinked hmem h1)
      intro e hin
      obtain ⟨hedirect, heunlinked⟩ := hd e (by simp [hin])
      exact ⟨hedirect, hlinks.unlinked hl hdirect hedirect (fun heq => hget (heq ▸ List.mem_map_of_mem hin))
        (fun heq => hcall (heq ▸ List.mem_map_of_mem hin)) heunlinked⟩
    refine ⟨?_, ?_⟩
    · rw [List.forM_eq_forM, List.forM_cons]
      exact bounded_bind (bounded_makeDirect hunlinked hc hmem) fun _ l₁ h1 => (rest h1).1
    · intro u l' hr
      obtain ⟨l₁, h1, h2⟩ := runs_forM_cons.mp hr
      obtain ⟨hlink, hcovered, hresolved⟩ := (rest h1).2 h2
      exact ⟨hlink, hcovered, fun s => (hresolved s).trans (resolved_makeDirect h1 s)⟩

end Direct

/-! ### Moved constants -/

theorem Opcode.pool_free {op : Opcode} {p : Nat} (h : op.pool = some p) : p ∉ op.guarded := by
  cases op <;> simp [Opcode.pool, Opcode.info] at h <;> subst h <;> decide

theorem Opcode.offset_free {op : Opcode} {i : Nat} (h : op.offsetOperand? = some i) : i ∉ op.guarded := by
  cases op <;> simp [Opcode.offsetOperand?, Opcode.isJump] at h <;> subst h <;> decide

/-- An instruction refers to a constant at some position. -/
theorem Linked.position {direct : FuncId → Prop} {cs : List Constant} {x : Instruction} {q : Piece} {p : Nat}
    (h : Linked direct cs x q) (hp : x.op.pool = some p) : ∃ k : Nat, x.operands[p]? = some (k : Int) := by
  cases h with
  | same hm =>
    cases hc : q.const with
    | none =>
      rw [hm.op, (hm.bare hc).1] at hp
      simp at hp
    | some v =>
      obtain ⟨p', k, hp', -, hops⟩ := hm.const v hc
      obtain rfl : p = p' := by
        rw [hm.op, hp'] at hp
        exact (Option.some.inj hp).symm
      have hlt : p < x.operands.length := hm.sound.count ▸ Opcode.pool_lt hp
      have hlt' : p < q.operands.length := by simpa [hops] using hlt
      exact ⟨k, by rw [hops, List.getElem?_set_self hlt']⟩
  | got _ hx => simp [hx, Opcode.pool, Opcode.info] at hp
  | called _ hx => simp [hx, Opcode.pool, Opcode.info] at hp

section Remap

variable {c : Store × Module} {l l' : Lowering} {u : PUnit} {ps : Array (Option Nat)}

/-- Instructions whose constants are kept get their new positions. -/
theorem bounded_remaps {ns : List Nat} (hd : ns.Nodup) (h : ∀ n ∈ ns, ∀ p, (l.asm.instr n).op.pool = some p →
      ∃ k new : Nat, (l.asm.instr n).operands[p]? = some (k : Int) ∧ ps[k]? = some (some new)) :
    Bounded (ns.forM fun n => Lower.remap ps n c) l := by
  induction ns generalizing l with
  | nil => exact bounded_pure
  | cons n ns ih =>
    obtain ⟨hn, hd⟩ := List.nodup_cons.mp hd
    rw [List.forM_eq_forM, List.forM_cons]
    refine bounded_bind ?_ fun _ l₁ h1 => ih hd ?_
    · unfold Lower.remap
      rw [Lower.bounded_get_bind]
      cases hp : (l.asm.instr n).op.pool with
      | none => exact Lower.bounded_pure
      | some p =>
        obtain ⟨k, new, hk, hnew⟩ := h n (by simp) p hp
        have hneg : ¬(k : Int) < 0 := by omega
        simp only [hk, Option.getD_some, hneg, if_false, Int.toNat_natCast, hnew, Option.join_some]
        refine Lower.bounded_assemble (Assemble.bounded_setOperand (List.getElem?_eq_getElem (Opcode.pool_lt hp)) ?_)
        exact fun hg => absurd hg (Opcode.pool_free hp)
    · intro m hm
      obtain ⟨-, -, ha⟩ := alters_remap h1
      have hne : m ≠ n := fun heq => hn (heq ▸ hm)
      have hsame : l₁.asm.instr m = l.asm.instr m := by simp only [Assembly.instr, ha.others m hne]
      rw [hsame]
      exact h m (by simp [hm])

/-- Moved constants change no opcodes, no streams and nothing outside of a list of instructions. -/
theorem runs_remaps {ns : List Nat} (hd : ns.Nodup) (h : Runs (ns.forM fun n => Lower.remap ps n c) l u l') :
    (∀ s, l'.asm.stream s = l.asm.stream s) ∧ (∀ n, (l'.asm.instr n).op = (l.asm.instr n).op) ∧
      ∀ n, n ∉ ns → l'.asm.instr n = l.asm.instr n := by
  induction ns generalizing l with
  | nil =>
    rw [runs_forM_nil.mp h]
    exact ⟨fun _ => rfl, fun _ => rfl, fun _ _ => rfl⟩
  | cons k ns ih =>
    obtain ⟨l₁, h1, h2⟩ := runs_forM_cons.mp h
    obtain ⟨hk, hd⟩ := List.nodup_cons.mp hd
    obtain ⟨-, hs, ha⟩ := alters_remap h1
    obtain ⟨hs', hop, hout⟩ := ih hd h2
    have hstep := ha.instr_cases (P := fun x y => y.op = x.op) (fun _ => rfl) fun x y _ hxy => by
      rcases hxy with ⟨-, rfl⟩ | ⟨_, _, _, -, -, -, hset⟩
      · rfl
      · obtain ⟨_, _, _, rfl⟩ := Assemble.setOperand_ok hset
        rfl
    refine ⟨fun s => (hs' s).trans (hs s), fun n => (hop n).trans (hstep n), ?_⟩
    intro n hn
    simp only [List.mem_cons, not_or] at hn
    rw [hout n hn.2]
    simp only [Assembly.instr, ha.others n hn.1]

end Remap

/-! ### Positions -/

section Resolve

variable {a b : Assembly} {u : PUnit}

/-- An operand that an instruction has and that may be too large. -/
def Assembly.Fillable (a : Assembly) (n : Nat) (i : Int) : Prop :=
  ∃ k : Nat, i = k ∧ k < (a.instr n).op.widths.length ∧ k ∉ (a.instr n).op.guarded

theorem Assembly.Fillable.bounded {n : Nat} {i v : Int} (h : a.Fillable n i) : Bounded (Assemble.setOperand n i v) a := by
  obtain ⟨k, rfl, hk, hg⟩ := h
  exact Assemble.bounded_setOperand (List.getElem?_eq_getElem hk) fun hg' => absurd hg' hg

theorem Assembly.Fillable.congr {n : Nat} {i : Int} (h : a.Fillable n i) (hop : ∀ n, (b.instr n).op = (a.instr n).op) :
    b.Fillable n i := by
  obtain ⟨k, hi, hk, hg⟩ := h
  exact ⟨k, hi, by rwa [hop], by rwa [hop]⟩

theorem op_setOperand {n : Nat} {i v : Int} (h : Runs (Assemble.setOperand n i v) a u b) (m : Nat) :
    (b.instr m).op = (a.instr m).op := by
  unfold Assemble.setOperand at h
  simp only [runs_get_bind, runs_lift_bind, runs_modify] at h
  obtain ⟨y, hy, rfl⟩ := h
  have hyop : y.op = (a.instr n).op := by
    unfold Instruction.setOperand at hy
    split at hy
    · simp at hy
    · split at hy
      · obtain rfl := Except.ok.inj hy
        rfl
      · simp at hy
  simp only [Assembly.instr, Array.getElem?_setIfInBounds]
  split
  · next hnm =>
    subst hnm
    split
    · exact hyop
    · next hlt => rw [Array.getElem?_eq_none (Nat.not_lt.mp hlt)]
  · rfl

theorem stream_setOperand {n : Nat} {i v : Int} (h : Runs (Assemble.setOperand n i v) a u b) (s : Section) :
    b.stream s = a.stream s := by
  unfold Assemble.setOperand at h
  simp only [runs_get_bind, runs_lift_bind, runs_modify] at h
  obtain ⟨y, -, rfl⟩ := h
  simp

theorem bounded_place {ns : List Nat} {pos : Int} : Bounded (Assemble.place pos ns) a := by
  induction ns generalizing pos a with
  | nil => exact bounded_pure
  | cons n ns ih =>
    simp only [Assemble.place]
    rw [bounded_get_bind, bounded_modify_bind]
    exact ih

theorem place_keeps {ns : List Nat} {pos : Int} (h : Runs (Assemble.place pos ns) a u b) :
    (∀ n, (b.instr n).op = (a.instr n).op) ∧ ∀ s, b.stream s = a.stream s := by
  induction ns generalizing pos a with
  | nil =>
    obtain ⟨-, rfl⟩ := runs_pure.mp h
    exact ⟨fun _ => rfl, fun _ => rfl⟩
  | cons n ns ih =>
    simp only [Assemble.place, runs_get_bind, runs_modify_bind] at h
    obtain ⟨hop, hs⟩ := ih h
    refine ⟨?_, by simpa using hs⟩
    intro m
    rw [hop]
    simp only [Assembly.instr, Array.getElem?_modify]
    split
    · cases a.instrs[m]? <;> rfl
    · rfl

/-- What the assembly has in common with another one while operands are filled in. -/
private structure Filled (a b : Assembly) : Prop where
  op : ∀ n, (b.instr n).op = (a.instr n).op
  stream : ∀ s, b.stream s = a.stream s

private theorem Filled.trans {c : Assembly} (h : Filled a b) (h' : Filled b c) : Filled a c :=
  ⟨fun n => (h'.op n).trans (h.op n), fun s => (h'.stream s).trans (h.stream s)⟩

/-- Operands are filled in one after the other. -/
private theorem bounded_fill {ι : Type} {l : List ι} {f : ι → Nat} {i : ι → Int} {v : Assembly → ι → Int}
    (h : ∀ x ∈ l, a.Fillable (f x) (i x)) :
    Bounded (l.forM fun x => (do
      let a ← get
      Assemble.setOperand (f x) (i x) (v a x) : Assemble PUnit)) a ∧
      ∀ {u b}, Runs (l.forM fun x => (do
        let a ← get
        Assemble.setOperand (f x) (i x) (v a x) : Assemble PUnit)) a u b → Filled a b := by
  have step : ∀ {x a' b'}, Runs (do
      let a ← get
      Assemble.setOperand (f x) (i x) (v a x) : Assemble PUnit) a' () b' → Filled a' b' := by
    intro x a' b' hr
    rw [runs_get_bind] at hr
    exact ⟨op_setOperand hr, stream_setOperand hr⟩
  constructor
  · refine bounded_forM (fun b => Filled a b) ?_ ?_ ⟨fun _ => rfl, fun _ => rfl⟩
    · intro x hx b hb
      rw [bounded_get_bind]
      exact ((h x hx).congr hb.op).bounded
    · intro x _ b _ b' hb hr
      exact hb.trans (step hr)
  · intro u b hr
    clear h
    induction l generalizing a with
    | nil =>
      rw [runs_forM_nil.mp hr]
      exact ⟨fun _ => rfl, fun _ => rfl⟩
    | cons x l ih =>
      obtain ⟨a₁, h1, h2⟩ := runs_forM_cons.mp hr
      exact (step h1).trans (ih h2)

/-- A stream is resolved when its requests and patches are for operands that there are. -/
theorem bounded_resolve {s : Section} (hres : (a.stream s).resolved = false)
    (hr : ∀ r ∈ (a.stream s).requests, a.Fillable r.src r.operand)
    (hp : ∀ p ∈ (a.stream s).patches, a.Fillable p.instr p.operand) :
    Bounded (Assemble.resolve s) a ∧ ∀ {u b}, Runs (Assemble.resolve s) a u b →
      (∀ n, (b.instr n).op = (a.instr n).op) ∧ (b.stream s).resolved = true ∧ ∀ t ≠ s, b.stream t = a.stream t := by
  have hfirst : ∀ {b u}, Runs (Assemble.place 0 (a.stream s).order.toList)
      (Assembly.update s ({ · with resolved := true }) a) u b → ∀ n, (b.instr n).op = (a.instr n).op := by
    intro b u h n
    rw [(place_keeps h).1]
    simp [Assembly.instr]
  constructor
  · unfold Assemble.resolve
    rw [bounded_get_bind]
    simp only [hres, Bool.false_eq_true, if_false]
    rw [bounded_modify_bind]
    refine bounded_bind bounded_place fun _ a₁ h1 => ?_
    have hop := hfirst h1
    simp only [forM_toList]
    have hrequests := bounded_fill (a := a₁) (l := (a.stream s).requests.toList) (f := OffsetRequest.src)
      (i := OffsetRequest.operand) (v := fun a r => (a.instr r.dst).pos - (a.instr r.src).pos)
      fun r hmem => (hr r (Array.mem_toList_iff.mp hmem)).congr hop
    refine bounded_bind hrequests.1 fun _ a₂ h2 => ?_
    exact (bounded_fill (a := a₂) (l := (a.stream s).patches.toList) (f := Patch.instr) (i := Patch.operand)
      (v := fun a p => p.value fun n => (a.instr n).pos) fun p hmem =>
        ((hp p (Array.mem_toList_iff.mp hmem)).congr hop).congr (hrequests.2 h2).op).1
  · intro u b h
    unfold Assemble.resolve at h
    rw [runs_get_bind] at h
    simp only [hres, Bool.false_eq_true, if_false, runs_modify_bind] at h
    obtain ⟨_, a₁, h1, h⟩ := runs_bind.mp h
    obtain ⟨_, a₂, h2, h3⟩ := runs_bind.mp h
    rw [forM_toList] at h2 h3
    have hop := hfirst h1
    have hrequests := (bounded_fill (a := a₁) (l := (a.stream s).requests.toList) (f := OffsetRequest.src)
      (i := OffsetRequest.operand) (v := fun a r => (a.instr r.dst).pos - (a.instr r.src).pos)
      fun r hmem => (hr r (Array.mem_toList_iff.mp hmem)).congr hop).2 h2
    have hpatches := (bounded_fill (a := a₂) (l := (a.stream s).patches.toList) (f := Patch.instr)
      (i := Patch.operand) (v := fun a p => p.value fun n => (a.instr n).pos) fun p hmem =>
        ((hp p (Array.mem_toList_iff.mp hmem)).congr hop).congr hrequests.op).2 h3
    have hstream : ∀ t, b.stream t = (Assembly.update s ({ · with resolved := true }) a).stream t := fun t =>
      ((hpatches.stream t).trans (hrequests.stream t)).trans ((place_keeps h1).2 t)
    refine ⟨fun n => ((hpatches.op n).trans (hrequests.op n)).trans (hop n), ?_, ?_⟩
    · rw [hstream, Assembly.stream_update_self]
    · intro t ht
      rw [hstream, Assembly.stream_update_ne ht]

theorem bounded_bytes {s : Section} (h : (a.stream s).resolved = true) : Bounded (Assemble.bytes s) a := by
  unfold Assemble.bytes
  rw [bounded_get_bind]
  simp only [h, Bool.not_true, Bool.false_eq_true, if_false]
  exact bounded_pure

theorem bounded_lines {s : Section} (h : (a.stream s).resolved = true) : Bounded (Assemble.lines s) a := by
  unfold Assemble.lines
  rw [bounded_get_bind]
  simp only [h, Bool.not_true, Bool.false_eq_true, if_false]
  exact bounded_pure

theorem bytes_same {s : Section} {bs : List UInt8} (h : Runs (Assemble.bytes s) a bs b) : b = a := by
  unfold Assemble.bytes at h
  rw [runs_get_bind] at h
  split at h
  · simp at h
  · exact (runs_pure.mp h).2

theorem lines_same {s : Section} {ls : List LinePos} (h : Runs (Assemble.lines s) a ls b) : b = a := by
  unfold Assemble.lines at h
  rw [runs_get_bind] at h
  split at h
  · simp at h
  · exact (runs_pure.mp h).2

end Resolve

/-! ### Finished modules -/

section Finish

variable {c : Store × Module} {l l₁ : Lowering} {code : Section → List Piece}

/-- While calls are made direct, the requests stay for operands that there are. -/
private theorem Linking.requests_fillable {cs : List Constant} {a : Assembly} {s : Section} {r : OffsetRequest}
    (h : Linking l code cs a) (hl : Laid l code) (hd : Directed (code s)) (hr : r ∈ (a.stream s).requests) :
    a.Fillable r.src r.operand := by
  rw [h.requests] at hr
  obtain ⟨i, j, q, d, hi, hg, -, hsrc, -, hop⟩ := hl.requests.mp hr
  obtain ⟨n, x, hn, hx, hlinked⟩ := h.views s i q hi
  rw [h.order] at hn
  obtain rfl : n = r.src := Option.some.inj (hn.symm.trans hsrc)
  have hgoal : q.op.offsetOperand?.isSome = true := by rw [hd q (List.mem_of_getElem? hi), hg]; rfl
  obtain ⟨k, hk⟩ := Option.isSome_iff_exists.mp hgoal
  have hxop : (a.instr r.src).op = q.op := by
    rw [Assembly.instr, hx, Option.getD_some]
    cases hlinked with
    | same hm => exact hm.op
    | got hq => simp [hq, Opcode.offsetOperand?, Opcode.isJump] at hk
    | called hq => simp [hq, Opcode.offsetOperand?, Opcode.isJump] at hk
  refine ⟨k, by rw [hop, Piece.offsetIndex, hk, Option.getD_some], ?_, ?_⟩
  · rw [hxop]
    exact Opcode.offsetOperand_lt hk
  · rw [hxop]
    exact Opcode.offset_free hk

private theorem Linking.patches_fillable {cs : List Constant} {a : Assembly} {s : Section} {p : Patch}
    (h : Linking l code cs a) (hp : p ∈ (a.stream s).patches) : a.Fillable p.instr p.operand := by
  obtain ⟨hzero, -, x, hx, hop⟩ := h.patches s p hp
  have hcall : (a.instr p.instr).op = .call := by rw [Assembly.instr, hx, Option.getD_some, hop]
  exact ⟨0, hzero, by rw [hcall]; decide, by rw [hcall]; decide⟩

/-- The constants that instructions refer to are kept. -/
private theorem Linking.kept {cs : List Constant} {ps : List (Option Nat)} {pool : Pool} {s : Section} {n p : Nat}
    (h : Linking l code cs l₁.asm) (hl : Laid l code) (hc : l₁.Covered) (hcompact : l₁.pool.compact = (ps, pool))
    (hn : n ∈ (l₁.asm.stream s).order.toList) (hp : (l₁.asm.instr n).op.pool = some p) :
    ∃ k new : Nat, (l₁.asm.instr n).operands[p]? = some (k : Int) ∧ ps.toArray[k]? = some (some new) := by
  obtain ⟨i, hi⟩ := List.mem_iff_getElem?.mp hn
  have hlt : i < (code s).length := by
    rw [← hl.count s]
    rw [h.order s] at hi
    exact (List.getElem?_eq_some_iff.mp hi).1
  obtain ⟨m, x, hm, hx, hlinked⟩ := h.views s i _ (List.getElem?_eq_getElem hlt)
  obtain rfl : m = n := Option.some.inj (hm.symm.trans hi)
  have hinstr : l₁.asm.instr m = x := by rw [Assembly.instr, hx, Option.getD_some]
  rw [hinstr] at hp ⊢
  obtain ⟨k, hk⟩ := hlinked.position hp
  have hrefs : 0 < l₁.asm.refs k := by
    have hpos : 0 < (l₁.asm.listing s).countP (Instruction.refers k) := by
      refine List.countP_pos_iff.mpr ⟨_, List.mem_map_of_mem hn, ?_⟩
      rw [hinstr]
      exact (Instruction.refers_iff hp).mpr hk
    unfold Assembly.refs
    cases s with
    | init => omega
    | code => omega
  obtain ⟨new, hnew⟩ := Pool.compact_some hcompact (Nat.lt_of_lt_of_le hrefs (hc k))
  exact ⟨k, new, hk, by simpa using hnew⟩

/-- A module is finished. -/
theorem bounded_finish (hl : Laid l code) (hd : ∀ s, Directed (code s)) : Bounded (Lower.finish c) l := by
  unfold Lower.finish
  rw [Lower.bounded_get_bind]
  have hdirects := bounded_makeDirects (c := c) hl.linking hl (fun d hd => ⟨hd, hl.unlinked hd⟩) hl.calls hl.gets rfl
    hl.covered
  refine Lower.bounded_bind (by rw [Lower.forM_apply]; exact hdirects.1) fun _ l₁ h1 => ?_
  rw [Lower.forM_apply] at h1
  obtain ⟨hlink, hcovered, hunresolved⟩ := hdirects.2 h1
  rw [Lower.bounded_get_bind]
  rcases hcompact : l₁.pool.compact with ⟨ps, pool⟩
  simp only [Lower.bounded_modify_bind, List.forIn_cons, List.forIn_nil, bind_assoc, pure_bind, Lower.bounded_get_bind]
  have hdistinct := hlink.distinct
  -- the constants of the initialisation are moved first
  have hkept : ∀ s, ∀ n ∈ (l₁.asm.stream s).order.toList, ∀ p, (l₁.asm.instr n).op.pool = some p →
      ∃ k new : Nat, (l₁.asm.instr n).operands[p]? = some (k : Int) ∧ ps.toArray[k]? = some (some new) :=
    fun s n hn p hp => hlink.kept hl hcovered hcompact hn hp
  refine Lower.bounded_bind ?_ fun _ l₂ h2 => ?_
  · rw [forM_toList, Lower.forM_apply]
    exact bounded_remaps (nodup_of_distinct hdistinct .init) (hkept .init)
  rw [forM_toList, Lower.forM_apply] at h2
  obtain ⟨hs₂, hop₂, hout₂⟩ := runs_remaps (nodup_of_distinct hdistinct .init) h2
  rw [Lower.bounded_get_bind]
  have hcode : (l₂.asm.stream .code).order.toList = (l₁.asm.stream .code).order.toList := by rw [hs₂]
  have hnodup : (l₂.asm.stream .code).order.toList.Nodup := hcode ▸ nodup_of_distinct hdistinct .code
  refine Lower.bounded_bind ?_ fun _ l₃ h3 => ?_
  · rw [forM_toList, Lower.forM_apply]
    refine bounded_remaps hnodup ?_
    intro n hn p hp
    rw [hcode] at hn
    have hnot : n ∉ (l₁.asm.stream .init).order.toList := by
      intro hmem
      obtain ⟨i, hi⟩ := List.mem_iff_getElem?.mp hn
      obtain ⟨j, hj⟩ := List.mem_iff_getElem?.mp hmem
      exact absurd (hdistinct _ _ _ _ _ hi hj).1 (by decide)
    rw [hout₂ n hnot] at hp ⊢
    exact hkept .code n hn p hp
  rw [forM_toList, Lower.forM_apply] at h3
  obtain ⟨hs₃, hop₃, -⟩ := runs_remaps hnodup h3
  have hstream : ∀ s, l₃.asm.stream s = l₁.asm.stream s := fun s => (hs₃ s).trans (hs₂ s)
  have hop : ∀ n, (l₃.asm.instr n).op = (l₁.asm.instr n).op := fun n => (hop₃ n).trans (hop₂ n)
  have hopen : ∀ s, (l₃.asm.stream s).resolved = false := by
    intro s
    rw [hstream, hunresolved, hl.unresolved]
  have hrequests : ∀ s, ∀ r ∈ (l₃.asm.stream s).requests, l₃.asm.Fillable r.src r.operand := by
    intro s r hr
    rw [hstream] at hr
    exact (hlink.requests_fillable hl (hd s) hr).congr hop
  have hpatches : ∀ s, ∀ p ∈ (l₃.asm.stream s).patches, l₃.asm.Fillable p.instr p.operand := by
    intro s p hp
    rw [hstream] at hp
    exact (hlink.patches_fillable hp).congr hop
  -- the functions are resolved, then the initialisation
  have hresolve := bounded_resolve (hopen .code) (hrequests .code) (hpatches .code)
  refine Lower.bounded_bind (Lower.bounded_assemble hresolve.1) fun _ l₄ h4 => ?_
  obtain ⟨asm₄, hr4, rfl⟩ := Lower.runs_assemble.mp h4
  obtain ⟨hop₄, hcode₄, hs₄⟩ := hresolve.2 hr4
  have hinit₄ : asm₄.stream .init = l₃.asm.stream .init := hs₄ .init (by decide)
  have hresolve' := bounded_resolve (a := asm₄) (s := .init) (by rw [hinit₄, hopen])
    (by rw [hinit₄]; exact fun r hr => (hrequests .init r hr).congr hop₄)
    (by rw [hinit₄]; exact fun p hp => (hpatches .init p hp).congr hop₄)
  refine Lower.bounded_bind (Lower.bounded_assemble hresolve'.1) fun _ l₅ h5 => ?_
  obtain ⟨asm₅, hr5, rfl⟩ := Lower.runs_assemble.mp h5
  obtain ⟨-, hinit₅, hs₅⟩ := hresolve'.2 hr5
  have hcode₅ : (asm₅.stream .code).resolved = true := by rw [hs₅ .code (by decide), hcode₄]
  rw [Lower.bounded_read_bind, Lower.bounded_get_bind]
  refine Lower.bounded_bind (Lower.bounded_assemble (bounded_bytes hinit₅)) fun _ l₆ h6 => ?_
  obtain ⟨asm₆, hb6, rfl⟩ := Lower.runs_assemble.mp h6
  obtain rfl := bytes_same hb6
  refine Lower.bounded_bind (Lower.bounded_assemble (bounded_bytes hcode₅)) fun _ l₇ h7 => ?_
  obtain ⟨asm₇, hb7, rfl⟩ := Lower.runs_assemble.mp h7
  obtain rfl := bytes_same hb7
  refine Lower.bounded_bind (Lower.bounded_assemble (bounded_lines hinit₅)) fun _ l₈ h8 => ?_
  obtain ⟨asm₈, hb8, rfl⟩ := Lower.runs_assemble.mp h8
  obtain rfl := lines_same hb8
  exact Lower.bounded_bind (Lower.bounded_assemble (bounded_lines hcode₅)) fun _ _ _ => Lower.bounded_pure

theorem directed_frameCode {line : Nat} {method : Bool} {f : Typed.Frame} : Directed (frameCode c line method f) := by
  refine .cons (aimed_plain rfl) (((directed_params f.params).append ?_).append (directed_closeCode (directed_stmts f.body)))
  cases method with
  | true => exact .one (aimed_plain rfl)
  | false => exact .nil

theorem directed_programCode (p : Typed.Program) (s : Section) : Directed (programCode c p s) := by
  have hflat : ∀ {α : Type} {f : α → List Piece} {xs : List α}, (∀ x ∈ xs, Directed (f x)) → Directed (xs.flatMap f) := by
    intro α f xs h q hq
    obtain ⟨x, hx, hq⟩ := List.mem_flatMap.mp hq
    exact h x hx q hq
  cases s with
  | code =>
    refine hflat fun d _ => ?_
    unfold funcCode
    split
    · exact .nil
    · exact directed_frameCode
  | init =>
    refine (hflat fun d _ => ?_).append (.one (aimed_plain rfl))
    unfold initCode
    split
    · exact .one (aimed_withConst rfl)
    · exact .nil
    · exact .nil
    · exact .nil
    · exact (directed_expr _).append (.one (aimed_plain rfl))

/-- A program that can be trusted compiles, or one of its operands is too large for its width. Only operands that
the frame does not limit are ever too large. -/
theorem compile_isWidth {st : Store} {m : Module} {p : Typed.Program} {e : Violation} (hp : p.Trusted st.OfInterface)
    (h : compile st m p = .error e) : e.IsWidth := by
  let run : Lower Compiled := do
    Lower.program p
    Lower.finish
  have hbounded : Bounded (run (st, m)) .start := by
    refine Lower.bounded_bind (bounded_program hp) fun _ l hr => ?_
    exact bounded_finish (runs_program hr).1 (directed_programCode p)
  refine hbounded e (run (st, m) .start).2 ?_
  change run (st, m) .start = (.error e, (run (st, m) .start).2)
  rw [← h]
  rfl

end Finish

end Weft.Bytecode
