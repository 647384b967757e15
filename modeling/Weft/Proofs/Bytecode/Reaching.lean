import Weft.Proofs.Bytecode.Returns

/-!
# Reachable returns

Which instructions of compiled code control may reach from the start of a frame, over all outcomes of tests and all
arguments that may be left out. In the frame of a function that answers a type other than void, these include no
return without values, and all returns among them give as many values as the type has.
-/

namespace Weft.Bytecode

open Typed (Lambda Frame)

/-! ## Reaching instructions -/

/-- Whether control may go from an instruction to a position: on to the next one, or to where the instruction leads.
Blocks are entered, never skipped. -/
def Decoded.LeadsTo (d : Decoded) (p : Nat) : Prop :=
  d.op.continues ∧ p = d.next ∨ d.op ≠ .block ∧ d.target? = some (p : Int)

/-- The instructions that control may reach from a position. -/
inductive MayReach (ds : List Decoded) (start : Nat) : Decoded → Prop
  | start {d : Decoded} : d ∈ ds → d.pos = start → MayReach ds start d
  | step {d e : Decoded} : MayReach ds start d → e ∈ ds → d.LeadsTo e.pos → MayReach ds start e

/-- The frame that is made at a position of code always returns a number of values: control may reach no return without
values from there, and only returns of that many. -/
structure AlwaysReturns (code : Bytes) (count start : Nat) : Prop where
  made : ∃ d ∈ (decode code).1, d.pos = start ∧ d.op = .initFrame
  valued : ∀ d, MayReach (decode code).1 start d → d.op ≠ .ret
  counts : ∀ d, MayReach (decode code).1 start d → d.op = .returnVal → d.operands = [(count : Int)]

/-- The code of a compiled module in a section. -/
def Compiled.bytes (out : Compiled) : Section → Bytes
  | .init => out.init
  | .code => out.code

/-! ## Reaching places -/

section Places

variable {cs : List Constant} {code : List Piece} {xs : List Instruction} {starts : List Nat} {k : Nat}
  {S : Nat → Prop}

/-- The first instruction from a confined place on that is encoded. Only marks are before it, so it is confined as
well. -/
theorem Confined.encoded (hf : Final cs code xs) (hS : Confined k code S) {i : Nat} (hi : S i) :
    ∃ m z, xs[m]? = some z ∧ z.op ≠ .mark ∧ posAt xs m = posAt xs i ∧ S m := by
  obtain ⟨q, hq, hsafe⟩ := hS i hi
  obtain ⟨z, hz, hop⟩ := hf.at hq
  by_cases hm : z.op = .mark
  · have hc : q.op.continues := by
      rcases hop with hop | ⟨hop, -⟩ | ⟨-, hop⟩
      · rw [← hop, hm]
        rfl
      · rw [hop]
        rfl
      · simp [hm] at hop
    obtain ⟨m, w, hw, hne, hpos, hs⟩ := hS.encoded hf (hsafe.next hc)
    exact ⟨m, w, hw, hne, hpos.trans (posAt_mark hz hm), hs⟩
  · exact ⟨i, z, hz, hm, rfl, hi⟩
termination_by code.length - i
decreasing_by
  have := (List.getElem?_eq_some_iff.mp hq).1
  omega

/-- From a confined place, control reaches confined places only. -/
theorem Confined.reaches (h : Framed starts code) (hf : Final cs code xs) (hS : Confined k code S) {o : Nat} (ho : S o)
    {d : Decoded} (hd : MayReach (xs.filterMap Instruction.decoded?) (posAt xs o) d) :
    ∃ i x, S i ∧ xs[i]? = some x ∧ x.op ≠ .mark ∧ d = x.read xs i := by
  -- an instruction at the position of a confined place is the first encoded one from there on
  have hat : ∀ {i e}, S i → e ∈ xs.filterMap Instruction.decoded? → e.pos = posAt xs i →
      ∃ m x, S m ∧ xs[m]? = some x ∧ x.op ≠ .mark ∧ e = x.read xs m := by
    intro i e hi he hpos
    obtain ⟨m, x, hx, hm, rfl⟩ := (mem_decoded hf.placed).mp he
    obtain ⟨m', z, hz, hzm, hpos', hs⟩ := hS.encoded hf hi
    obtain rfl : m = m' := place_unique hx hm hz hzm (hpos.trans hpos'.symm)
    exact ⟨m, x, hs, hx, hm, rfl⟩
  induction hd with
  | start he hpos => exact hat ho he hpos
  | @step d e _ he hleads ih =>
    obtain ⟨i, x, hi, hx, hm, rfl⟩ := ih
    obtain ⟨q, hq, hsafe⟩ := hS i hi
    rcases hleads with ⟨hc, hpos⟩ | ⟨hblock, ht⟩
    · have hqc : q.op.continues := by
        obtain ⟨z, hz, hop⟩ := hf.at hq
        obtain rfl : x = z := Option.some.inj (hx.symm.trans hz)
        rcases hop with hop | ⟨hop, -⟩ | ⟨hop, -⟩
        · rwa [← hop]
        · rw [hop]
          rfl
        · rw [hop]
          rfl
      exact hat (hsafe.next hqc) he (hpos.trans (next_read hx))
    · obtain ⟨r, d, j, hr, hop, hg, hj, -, hpos⟩ := hf.target h.directed h.idle hx ht
      obtain rfl : q = r := Option.some.inj (hq.symm.trans hr)
      rcases hsafe.goal d hg with hb | ⟨j', hj', hs⟩
      · exact absurd (hop.symm.trans hb) hblock
      · obtain rfl : j = j' := by omega
        exact hat hs he (by omega)

/-- A return that gives a number of values is encoded with this number. -/
theorem Final.gives (h : Framed starts code) (hf : Final cs code xs) {i : Nat} {x : Instruction} {q : Piece}
    (hx : xs[i]? = some x) (hq : code[i]? = some q) (hg : q.Gives k) : x.op = .returnVal ∧ x.operands = [(k : Int)] := by
  obtain ⟨hop, hops⟩ := hg
  obtain ⟨z, hz, -, hkept | ⟨hget, -⟩ | ⟨hcall, -⟩⟩ := hf.shows hq
  · obtain rfl : x = z := Option.some.inj (hx.symm.trans hz)
    obtain ⟨y, hy, hplain, -⟩ := hkept.operands
    have hgoal : q.goal = none := by
      have haimed : q.op.offsetOperand?.isSome = q.goal.isSome := h.directed q (List.mem_of_getElem? hq)
      rw [hop] at haimed
      exact Option.isSome_eq_false_iff.mp haimed.symm |> Option.isNone_iff_eq_none.mp
    have hconst : q.const = none := by
      cases hc : q.const with
      | none => rfl
      | some c =>
        obtain ⟨p, _, hp, -⟩ := hy.const c hc
        simp [hop, Opcode.pool, Opcode.info] at hp
    refine ⟨hkept.op.trans hop, ?_⟩
    rw [hplain (by simp [hgoal]), (hy.bare hconst).2, hops]
  · rw [hop] at hget
    cases hget
  · rw [hop] at hcall
    cases hcall

/-- Code of a frame that control does not leave but by returning values. -/
theorem Final.alwaysReturns (h : Framed starts code) (hf : Final cs code xs) {o : Nat} {inner : List Piece} {q : Piece}
    (hpart : Holds code o inner) (hret : Returning k inner) (hq : inner[0]? = some q) (hop : q.op = .initFrame) :
    AlwaysReturns (xs.flatMap Instruction.encode) k (posAt xs o) := by
  obtain ⟨S, hzero, hS⟩ := hret
  have hcode := hS.within hpart
  have hreach : ∀ {d}, MayReach (xs.filterMap Instruction.decoded?) (posAt xs o) d →
      ∃ x : Instruction, d.op = x.op ∧ d.operands = x.operands ∧
        (x.op.isReturn → x.op = .returnVal ∧ x.operands = [(k : Int)]) := by
    intro d hd
    obtain ⟨i, x, hi, hx, -, rfl⟩ := hcode.reaches h hf ⟨0, rfl, hzero⟩ hd
    obtain ⟨r, hr, hsafe⟩ := hcode i hi
    refine ⟨x, rfl, rfl, fun hxr => hf.gives h hx hr (hsafe.gives ?_)⟩
    obtain ⟨z, hz, hop | ⟨-, hop⟩ | ⟨-, hop⟩⟩ := hf.at hr
    · obtain rfl : x = z := Option.some.inj (hx.symm.trans hz)
      rwa [← hop]
    · obtain rfl : x = z := Option.some.inj (hx.symm.trans hz)
      simp [hop, Opcode.isReturn] at hxr
    · obtain rfl : x = z := Option.some.inj (hx.symm.trans hz)
      simp [hop, Opcode.isReturn] at hxr
  refine ⟨?_, ?_, ?_⟩ <;> rw [hf.decode]
  · obtain ⟨x, hx, hxop | ⟨hxop, -⟩ | ⟨hxop, -⟩⟩ := hf.at (hpart 0 q hq)
    · refine ⟨_, mem_read hf hx ?_, rfl, hxop.trans hop⟩
      rw [hxop, hop]
      decide
    · simp [hop] at hxop
    · simp [hop] at hxop
  · intro d hd hret
    obtain ⟨x, hdop, -, hx⟩ := hreach hd
    rw [hdop] at hret
    have hval := (hx (by rw [hret]; rfl)).1
    rw [hret] at hval
    cases hval
  · intro d hd hret
    obtain ⟨x, hdop, hops, hx⟩ := hreach hd
    rw [hops]
    exact (hx (by rw [← hdop, hret]; rfl)).2

end Places

/-! ## Compiled modules -/

/-- The lambdas of code, in order, are the ones that are read back. -/
theorem lambdas_decoded {xs : List Instruction} {code : List Piece}
    (h : List.Forall₂ (fun x q => x.op = .lambda ↔ q.op = .lambda) xs code) :
    List.Forall₂ (fun i d => ∃ x : Instruction, xs[i]? = some x ∧ x.op = .lambda ∧ x.decoded? = some d) (lambdaPlaces code)
      ((xs.filterMap Instruction.decoded?).filter fun d => d.op = .lambda) := by
  induction h with
  | nil => exact .nil
  | @cons x q xs code hop _ ih =>
    have hrest : List.Forall₂ (fun i d => ∃ y : Instruction, (x :: xs)[i]? = some y ∧ y.op = .lambda ∧ y.decoded? = some d)
        ((lambdaPlaces code).map (· + 1)) ((xs.filterMap Instruction.decoded?).filter fun d => d.op = .lambda) :=
      List.forall₂_map_left_iff.mpr ih
    rw [lambdaPlaces]
    by_cases hx : x.op = .lambda
    · have hsome : x.decoded? = some ⟨x.pos.toNat, x.op, x.operands⟩ := by simp [Instruction.decoded?, hx]
      rw [if_pos (hop.mp hx), List.filterMap_cons_some hsome, List.filter_cons_of_pos (by simp [hx])]
      exact .cons ⟨x, rfl, hx, hsome⟩ hrest
    · rw [if_neg (mt hop.mpr hx), List.nil_append]
      cases hd : x.decoded? with
      | none =>
        rw [List.filterMap_cons_none hd]
        exact hrest
      | some d =>
        have hdop : d.op = x.op := by
          unfold Instruction.decoded? at hd
          split at hd
          · cases hd
          · cases hd
            rfl
        rw [List.filterMap_cons_some hd, List.filter_cons_of_neg (by simp [hdop, hx])]
        exact hrest

theorem forall₂_trans {α β γ : Type} {R : α → β → Prop} {S : β → γ → Prop} {T : α → γ → Prop}
    (hT : ∀ a b c, R a b → S b c → T a c) {as : List α} {bs : List β} {cs : List γ} (h : List.Forall₂ R as bs)
    (h' : List.Forall₂ S bs cs) : List.Forall₂ T as cs := by
  induction h generalizing cs with
  | nil =>
    cases h'
    exact .nil
  | cons ha _ ih =>
    cases h' with
    | cons hb hrest => exact .cons (hT _ _ _ ha hb) (ih hrest)

section Frames

variable {c : Store × Module} {cs : List Constant} {xs : List Instruction} {starts : List Nat} {code : List Piece}

/-- A lambda that answers a type other than void always returns as many values. -/
theorem lambda_alwaysReturns (h : Framed starts code) (hf : Final cs code xs) {fn : Lambda} {i : Nat} {x : Instruction}
    (hpart : Holds code i (lambdaCode c fn)) (hx : xs[i]? = some x) (hfn : fn.Answers)
    (ht : fn.sig.returns ≠ .void) :
    AlwaysReturns (xs.flatMap Instruction.encode) fn.sig.returns.valueCount (x.read xs i).next := by
  obtain ⟨line, sig, upvals, slots, ps, bodyLine, body⟩ := fn
  have hinner : Returning sig.returns.valueCount (.plain .initFrame line [(slots : Int)] ::
      (paramsCode c (Lower.firstDefault ps) 0 ps ++ [] ++
        closeCode (Lower.lastLine ⟨slots, ps, bodyLine, body⟩) (stmtsCode c false body))) :=
    returning_frame hfn ht (by simp)
  rw [List.append_nil] at hinner
  rw [next_read hx]
  refine hf.alwaysReturns h (hpart.trans ?_) hinner rfl rfl
  rw [lambdaCode]
  exact (((Holds.refl _).append _).after [_])

/-- A function that answers a type other than void always returns as many values. -/
theorem func_alwaysReturns (h : Framed starts code) (hf : Final cs code xs) {d : Typed.FuncDecl} {f : Frame} {i : Nat}
    {t : Ty} (hpart : Holds code i (funcCode c d)) (hd : d.frame = some f) (ha : f.Answers t) (ht : t ≠ .void) :
    AlwaysReturns (xs.flatMap Instruction.encode) t.valueCount (posAt xs i) := by
  rw [funcCode, hd] at hpart
  refine hf.alwaysReturns h hpart (returning_frame ha ht fun q hq => ?_) rfl rfl
  split at hq
  · rw [List.mem_singleton.mp hq]
    exact simple_plain (by decide)
  · simp at hq

/-- The lambdas of code are encoded in order, each where its code stands. -/
theorem lambdas_read (hf : Final cs code xs) {fns : List Lambda} (hfns : Makes c code fns) :
    List.Forall₂ (fun (fn : Lambda) d => ∃ (i : Nat) (x : Instruction), Holds code i (lambdaCode c fn) ∧
        xs[i]? = some x ∧ x.op = .lambda ∧ d = x.read xs i)
      fns ((decode (xs.flatMap Instruction.encode)).1.filter fun d => d.op = .lambda) := by
  have hops : List.Forall₂ (fun x q => x.op = .lambda ↔ q.op = .lambda) xs code := by
    refine List.forall₂_iff_get.mpr ⟨hf.length, fun i hi hi' => ?_⟩
    obtain ⟨x, hx, hop⟩ := hf.at (List.getElem?_eq_getElem hi')
    obtain rfl : xs[i] = x := Option.some.inj ((List.getElem?_eq_getElem hi).symm.trans hx)
    rcases hop with hop | ⟨hop, hop'⟩ | ⟨hop, hop'⟩
    · simp only [List.get_eq_getElem, hop]
    · simp [hop, hop']
    · simp [hop, hop']
  rw [hf.decode]
  refine forall₂_trans (fun fn i d hpart hd => ?_) hfns (lambdas_decoded hops)
  obtain ⟨x, hx, hop, hd⟩ := hd
  refine ⟨i, x, hpart, hx, hop, ?_⟩
  simpa [Instruction.decoded?, hop, hf.placed.pos hx, Instruction.read, eq_comm] using hd

/-- The lambdas of code that answer types other than void always return. -/
theorem lambdas_alwaysReturn (h : Framed starts code) (hf : Final cs code xs) {fns : List Lambda}
    (hfns : Makes c code fns) :
    List.Forall₂ (fun (fn : Lambda) d => fn.Answers → fn.sig.returns ≠ .void →
        AlwaysReturns (xs.flatMap Instruction.encode) fn.sig.returns.valueCount (Decoded.next d))
      fns ((decode (xs.flatMap Instruction.encode)).1.filter fun d => d.op = .lambda) := by
  refine (lambdas_read hf hfns).imp fun fn d hd hfn ht => ?_
  obtain ⟨i, x, hpart, hx, -, rfl⟩ := hd
  exact lambda_alwaysReturns h hf hpart hx hfn ht

end Frames

section Compiled

variable {st : Store} {m : Module} {p : Typed.Program} {out : Compiled}

/-- The code of each function stands at its entry. -/
theorem holds_entryPlaces {c : Store × Module} (pre : List Piece) (fs : List Typed.FuncDecl) :
    List.Forall₂ (fun d (e : FuncId × Nat) => e.1 = d.symbol ∧ Holds (pre ++ fs.flatMap (funcCode c)) e.2 (funcCode c d))
      fs (entryPlaces c pre.length fs) := by
  induction fs generalizing pre with
  | nil => exact .nil
  | cons d fs ih =>
    rw [entryPlaces]
    refine .cons ⟨rfl, ?_⟩ ?_
    · rw [List.flatMap_cons]
      exact ((Holds.refl _).append _).after pre
    · simpa using ih (pre ++ funcCode c d)

/-- In a compiled module, the functions and lambdas that answer types other than void always return. -/
theorem compile_alwaysReturns (h : compile st m p = .ok out) :
    List.Forall₂ (fun (d : Typed.FuncDecl) f => f.name = (st.func d.symbol).fullName ∧
        ∀ frame t, d.frame = some frame → frame.Answers t → t ≠ .void →
          AlwaysReturns out.code t.valueCount f.pos.toNat) p.funcs out.funcs ∧
      ∀ part, List.Forall₂ (fun (fn : Lambda) d => fn.Answers → fn.sig.returns ≠ .void →
        AlwaysReturns (out.bytes part) fn.sig.returns.valueCount (Decoded.next d))
        (p.lambdas part) ((decode (out.bytes part)).1.filter fun d => d.op = .lambda) := by
  obtain ⟨xs, hf, hinit, hcode, hfuncs, hc⟩ := compile_final h
  have hframed := framed_funcs hc
  constructor
  · have hplaces := holds_entryPlaces (c := (st, m)) [] p.funcs
    have hentries : List.Forall₂ (fun (d : Typed.FuncDecl) (e : String × Option Int) => e.1 = (st.func d.symbol).fullName ∧
        ∀ pos frame t, e.2 = some pos → d.frame = some frame → frame.Answers t → t ≠ .void →
          AlwaysReturns out.code t.valueCount pos.toNat) p.funcs (out.funcs.map fun f => (f.name, some f.pos)) := by
      rw [hfuncs, List.forall₂_map_right_iff]
      refine hplaces.imp fun d e ⟨hsym, hpart⟩ => ⟨by rw [hsym], fun pos frame t hpos hd ha ht => ?_⟩
      obtain ⟨x, hx, rfl⟩ := Option.map_eq_some_iff.mp hpos
      rw [(hf .code).placed.pos hx, Int.toNat_natCast, hcode]
      exact func_alwaysReturns hframed (hf .code) hpart hd ha ht
    rw [List.forall₂_map_right_iff] at hentries
    exact hentries.imp fun d f ⟨hname, hret⟩ => ⟨hname, fun frame t => hret f.pos frame t rfl⟩
  · intro part
    cases part with
    | init =>
      rw [Compiled.bytes, hinit]
      exact lambdas_alwaysReturn framed_init (hf .init) (makes_program p .init)
    | code =>
      rw [Compiled.bytes, hcode]
      exact lambdas_alwaysReturn hframed (hf .code) (makes_program p .code)

end Compiled

end Weft.Bytecode
