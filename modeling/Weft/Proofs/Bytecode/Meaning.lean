import Weft.Proofs.Bytecode.Preservation

/-!
# Compiled functions mean what their trees mean

A function whose body is structured is run from its frame on: its arguments are stored, its body is run, and a
body that ends without a return returns no values.
-/

namespace Weft.Bytecode

open Typed (Expr Chain Call Frame VarDecl Stmt Block Arm)

/-! ## How code ends -/

section Ends

variable {c : Store × Module}

mutual

/-- No instruction of a structured expression leaves the frame. -/
theorem not_return_expr : (x : Expr) → ∀ {n : Nat}, yields x = some n → ∀ q ∈ exprCode c x, q.op.isReturn = false
  | .literal .., _, _ => by
    intro q hq
    rw [exprCode, List.mem_singleton] at hq
    rw [hq]
    rfl
  | .unary _ op _ x, _, h => by
    intro q hq
    rw [yields] at h
    split at h
    · next hx =>
      simp only [exprCode, List.mem_append, List.mem_singleton] at hq
      rcases hq with hq | rfl
      · exact not_return_expr x hx q hq
      · cases op <;> rfl
    · simp at h
  | .binary _ op _ x y, _, h => by
    intro q hq
    rw [yields] at h
    split at h
    · next hxy =>
      have hop : ∀ op : BinaryOp, (Lower.binaryOpcode op).isReturn = false := by
        intro op
        cases op <;> rfl
      rw [exprCode] at hq
      split at hq
      · simp only [List.mem_append, List.mem_cons] at hq
        rcases hq with hq | rfl | hq | hq
        · exact not_return_expr x hxy.1 q hq
        · exact hop op
        · exact not_return_expr y hxy.2 q hq
        · simp only [List.not_mem_nil, or_false] at hq
          rw [hq]
          rfl
      · simp only [List.mem_append, List.mem_singleton] at hq
        rcases hq with (hq | hq) | rfl
        · exact not_return_expr x hxy.1 q hq
        · exact not_return_expr y hxy.2 q hq
        · exact hop op
    · simp at h
  | .chain ⟨_, _, _, links⟩, _, h => by
    rw [yields] at h
    rw [exprCode]
    exact not_return_exprs links h
  | .call ⟨_, .readVar _, _, _, _, _, _⟩, _, _ => by
    intro q hq
    rw [exprCode, callCode, accessCode, List.mem_singleton] at hq
    rw [hq]
    rfl
  | .call ⟨_, .writeVar _, _, _, _, _, children⟩, _, h => by
    intro q hq
    rw [yields] at h
    split at h
    · next hx =>
      rw [exprCode, callCode, accessCode, List.mem_append, List.mem_singleton] at hq
      rcases hq with hq | rfl
      · exact not_return_exprs children hx q hq
      · rfl
    · simp at h

theorem not_return_exprs : (ys : List Expr) → ∀ {n : Nat}, yieldsAll ys = some n →
    ∀ q ∈ exprsCode c ys, q.op.isReturn = false
  | [], _, _ => by simp [exprsCode]
  | y :: ys, _, h => by
    intro q hq
    rw [yieldsAll, Option.bind_eq_some_iff] at h
    obtain ⟨i, hy, h⟩ := h
    obtain ⟨j, hys, -⟩ := Option.map_eq_some_iff.mp h
    rw [exprsCode, List.mem_append] at hq
    rcases hq with hq | hq
    · exact not_return_expr y hy q hq
    · exact not_return_exprs ys hys q hq

end

private theorem settleLoop_last (e n : Nat) (a : List Piece) (q : Piece) (line : Nat) :
    settleLoop e n (a ++ [q, .mark line]) = settleLoop e n (a ++ [q]) ++ [Piece.mark line] := by
  rw [List.append_cons]
  simp only [settleLoop, List.mapIdx_append, List.mapIdx_singleton]
  rfl

/-- A block ends in a mark. -/
theorem blockCode_last (b : Block) : ∃ x line, blockCode c false b = x ++ [Piece.mark line] := by
  have hwhile : ∀ line test body post, ∃ x, whileCode line test body post = x ++ [Piece.mark line] := by
    intro line test body post
    rw [whileCode, settleLoop_last, ← List.cons_append, ← List.append_assoc]
    exact ⟨_, rfl⟩
  cases b with
  | group line kind ss =>
    simp only [blockCode, groupCode]
    exact ⟨_ :: _, line, rfl⟩
  | cond line as other =>
    cases other with
    | none =>
      rw [blockCode]
      exact ⟨_, line, rfl⟩
    | some b =>
      rw [blockCode]
      exact ⟨_, line, rfl⟩
  | whileLoop line test body post =>
    cases post with
    | none =>
      obtain ⟨x, hx⟩ := hwhile line (exprCode c test) (blockCode c false body) []
      exact ⟨x, line, by rw [blockCode, hx]⟩
    | some post =>
      obtain ⟨x, hx⟩ := hwhile line (exprCode c test) (blockCode c false body) (blockCode c false post)
      exact ⟨x, line, by rw [blockCode, hx]⟩
  | doLoop line body test =>
    simp only [blockCode, doCode]
    rw [List.append_cons (blockCode c false body ++ _), settleLoop_last, ← List.cons_append]
    exact ⟨_, line, rfl⟩

variable {V : Type} {I : Interpretation V} {m m' : Slots V}

/-- The code of a statement that ends normally does not end in a return. -/
theorem not_return_stmt {s : Stmt} (h : Exec I c.1 (.stmt s) m .normal m') (hs : structured s = true) :
    (stmtCode c false s).getLast?.any (·.op.isReturn) = false := by
  cases h with
  | @expr x _ _ _ _ =>
    rw [structured] at hs
    obtain ⟨n, hn⟩ := Option.isSome_iff_exists.mp hs
    rw [stmtCode]
    cases hlast : (exprCode c x).getLast? with
    | none => rfl
    | some q => exact not_return_expr x hn q (List.mem_of_getLast? hlast)
  | declare => rfl
  | init =>
    rw [stmtCode, List.getLast?_concat]
    rfl
  | @block b _ _ _ _ =>
    obtain ⟨x, line, hx⟩ := blockCode_last (c := c) b
    rw [stmtCode, hx, List.getLast?_concat]
    rfl

/-- The code of statements that end normally does not end in a return. -/
theorem not_return_stmts {ss : List Stmt} (h : Exec I c.1 (.stmts ss) m .normal m')
    (hs : structuredAll ss = true) : (stmtsCode c false ss).getLast?.any (·.op.isReturn) = false := by
  induction ss generalizing m with
  | nil => rfl
  | cons s ss ih =>
    rw [structuredAll, Bool.and_eq_true] at hs
    cases h with
    | cons h₁ h₂ =>
      have hlast := ih h₂ hs.2
      rw [stmtsCode, List.getLast?_append]
      cases hss : (stmtsCode c false ss).getLast? with
      | none => exact not_return_stmt h₁ hs.1
      | some q =>
        rw [hss] at hlast
        exact hlast
    | leave _ ho => exact absurd rfl ho

/-- A part that ends a loop around it has an instruction that waits for the end of a loop. -/
theorem Exec.waits {part : Part} {o : Outcome V} (h : Exec I c.1 part m o m') (hs : part.structured = true)
    (ho : o = .brk ∨ o = .cont) : ∃ q ∈ part.code c, q.Waits := by
  have past : ∀ o : Outcome V, ¬(o.past = .brk ∨ o.past = .cont) := by
    intro o
    cases o <;> simp [Outcome.past]
  induction h with
  | brk =>
    simp only [Part.code, stmtCode]
    exact ⟨_, List.mem_singleton_self _, .inl rfl⟩
  | cont =>
    simp only [Part.code, stmtCode]
    exact ⟨_, List.mem_singleton_self _, .inr rfl⟩
  | block _ ih =>
    simp only [Part.structured, structured] at hs
    obtain ⟨q, hq, hw⟩ := ih hs ho
    refine ⟨q, ?_, hw⟩
    simpa only [Part.code, stmtCode] using hq
  | cons _ _ _ ih =>
    simp only [Part.structured, structuredAll, Bool.and_eq_true] at hs
    obtain ⟨q, hq, hw⟩ := ih hs.2 ho
    refine ⟨q, ?_, hw⟩
    rw [Part.code, stmtsCode]
    exact List.mem_append_right _ hq
  | leave _ _ ih =>
    simp only [Part.structured, structuredAll, Bool.and_eq_true] at hs
    obtain ⟨q, hq, hw⟩ := ih hs.1 ho
    refine ⟨q, ?_, hw⟩
    rw [Part.code, stmtsCode]
    exact List.mem_append_left _ hq
  | group _ ih =>
    simp only [Part.structured, structuredBlock, Bool.and_eq_true, decide_eq_true_eq] at hs
    obtain ⟨rfl, hs⟩ := hs
    obtain ⟨q, hq, hw⟩ := ih hs ho
    refine ⟨q, ?_, hw⟩
    rw [code_group hs]
    exact List.mem_cons_of_mem _ (List.mem_append_left _ hq)
  | @cond l as other _ _ _ _ ih =>
    rw [code_cond]
    refine ih ?_ ho
    cases other with
    | none => simpa [Part.structured, structuredBlock] using hs
    | some b => simpa [Part.structured, structuredBlock] using hs
  | other _ ih =>
    simp only [Part.structured, structuredArms, Bool.true_and, Option.all_some] at hs
    obtain ⟨q, hq, hw⟩ := ih hs ho
    refine ⟨q, ?_, hw⟩
    simp only [Part.code, armsCode, otherCode, List.nil_append]
    exact List.mem_append_left _ hq
  | taken _ _ _ ih =>
    simp only [Part.structured, structuredArms, Bool.and_eq_true] at hs
    obtain ⟨q, hq, hw⟩ := ih hs.1.1.2 ho
    refine ⟨q, ?_, hw⟩
    simp only [Part.code] at hq
    rw [code_arms_cons, armCode]
    simp [hq]
  | passed _ _ _ ih =>
    simp only [Part.structured, structuredArms, Bool.and_eq_true] at hs
    obtain ⟨q, hq, hw⟩ := ih (by simpa only [Part.structured, Bool.and_eq_true] using ⟨hs.1.2, hs.2⟩) ho
    refine ⟨q, ?_, hw⟩
    rw [code_arms_cons]
    exact List.mem_append_right _ hq
  | whileAgain _ _ _ _ _ _ _ _ ih => exact ih hs ho
  | doAgain _ _ _ _ _ _ ih => exact ih hs ho
  | whileLeave | whilePost | doLeave => exact absurd ho (past _)
  | postDone _ _ ih =>
    simp only [Part.structured, Option.all_some] at hs
    obtain ⟨q, hq, hw⟩ := ih hs ho
    refine ⟨q, ?_, hw⟩
    simp only [Part.code, otherCode] at hq ⊢
    exact List.mem_cons_of_mem _ hq
  | postAgain _ _ _ ih => exact ih hs ho
  | _ => simp at ho

end Ends

/-! ## Functions -/

section Functions

variable {V : Type} {I : Interpretation V} {c : Store × Module} {cs : List Constant} {W : List Piece}
  {xs : List Instruction} {k exit next : Nat}

/-- The arguments are taken from the stack, the last one first. -/
theorem leads_params (hf : Final cs W xs) {first i : Nat} {ps : List VarDecl} {args τ : List V} {m : Slots V}
    (hp : ps.all (fun p => p.init.isNone) = true) (hlen : args.length = ps.length)
    (h : CodeAt W k exit next (paramsCode c first i ps)) :
    Leads I cs xs k (args.reverse ++ τ) m (k + (paramsCode c first i ps).length) τ (bindArguments ps args m) := by
  induction ps generalizing i args τ with
  | nil =>
    obtain rfl : args = [] := List.length_eq_zero_iff.mp hlen
    exact .refl
  | cons p ps ih =>
    obtain ⟨line, v, init⟩ := p
    cases args with
    | nil => simp at hlen
    | cons a args =>
      simp only [List.all_cons, Bool.and_eq_true] at hp
      obtain rfl : init = none := by simpa using hp.1
      rw [paramsCode] at h ⊢
      rw [List.reverse_cons, List.append_assoc, List.singleton_append, bindArguments, List.length_append,
        ← Nat.add_assoc]
      refine (ih hp.2 (by simpa using hlen) h.left).trans ?_
      have harg := (h.right rfl).head
      cases hv : v.ref with
      | true =>
        simp only [argPiece, hv] at harg
        exact leads_plain hf harg (by decide) rfl
      | false =>
        simp only [argPiece, hv] at harg
        exact leads_plain hf harg (by decide) rfl

/-- The frame of a function is made and its arguments are stored. -/
theorem leads_frame (I : Interpretation V) (base : List V) (m : Slots V) (hf : Final cs W xs) {line : Nat}
    {method : Bool} {f : Frame} {self : Option V} {args : List V} (hp : f.params.all (fun p => p.init.isNone) = true)
    (hself : self.isSome = method) (hlen : args.length = f.params.length)
    (h : CodeAt W k exit next (frameCode c line method f)) :
    ∃ start, CodeAt W start exit next (closeCode (Lower.lastLine f) (stmtsCode c false f.body)) ∧
      Leads I cs xs k (args.reverse ++ (self.toList ++ base)) m start base (enterFrame f self args m) := by
  rw [frameCode] at h
  have htail := h.tail rfl
  have hinit := leads_plain (I := I) (σ := args.reverse ++ (self.toList ++ base)) (m := m) hf h.head
    (by decide) rfl
  have hparams := leads_params (I := I) (τ := self.toList ++ base) (m := m) hf hp hlen htail.left.left
  have hthis := htail.left.right rfl
  cases self with
  | none =>
    obtain rfl : method = false := hself.symm
    refine ⟨_, htail.right rfl, ?_⟩
    simpa [enterFrame] using hinit.trans hparams
  | some a =>
    obtain rfl : method = true := hself.symm
    refine ⟨_, htail.right rfl, ?_⟩
    have hpop := leads_plain (I := I) (σ := a :: base) (m := bindArguments f.params args m) hf hthis.head
      (by decide) rfl
    have hall := hinit.trans (hparams.trans hpop)
    simpa [enterFrame, Nat.add_assoc] using hall

/-- Running the code of a body returns what the body returns. -/
theorem halts_body (hf : Final cs W xs) {line : Nat} {body : List Stmt} {σ : List V} {m : Slots V}
    {r : List V × Slots V} (hs : structuredAll body = true) (hidle : Idle (stmtsCode c false body))
    (h : CodeAt W k exit next (closeCode line (stmtsCode c false body))) :
    (∃ n, Ends I cs xs n k σ m r) ↔ Returns I c.1 body m r := by
  have halone : (stmtsCode c false body).map Piece.alone = stmtsCode c false body := by
    have hid : (stmtsCode c false body).map Piece.alone = (stmtsCode c false body).map id :=
      List.map_congr_left fun q hq => alone_of_not_waits (hidle q hq)
    rw [hid, List.map_id]
  rw [closeCode, halone] at h
  have hfit : InCode c W k exit next (.stmts body) := ⟨h.left, hs, by simp⟩
  have hstay : ∀ {o : Outcome V} {m' : Slots V}, Exec I c.1 (.stmts body) m o m' → ¬(o = .brk ∨ o = .cont) := by
    intro o m' he ho
    obtain ⟨q, hq, hw⟩ := he.waits hs ho
    exact hidle q hq hw
  -- a body that ends normally comes to the return after it
  have hnormal : ∀ {m' : Slots V}, Exec I c.1 (.stmts body) m .normal m' →
      Stops I cs xs k σ m ([], m') := by
    intro m' he
    obtain ⟨left, hreach⟩ := he.reaches hf hfit
    have hret := h.right rfl
    rw [not_return_stmts he hs] at hret
    refine Leads.stops (hreach σ) (.step ?_)
    exact step_plain hf hret.head (by decide)
  have hreturn : ∀ {vs : List V} {m' : Slots V}, Exec I c.1 (.stmts body) m (.ret vs) m' →
      Stops I cs xs k σ m (vs, m') := by
    intro vs m' he
    obtain ⟨left, hreach⟩ := he.reaches hf hfit
    exact hreach σ
  constructor
  · rintro ⟨n, hn⟩
    obtain ⟨o, m', he⟩ := exec_of_ends hf n (.stmts body) hfit hn
    cases o with
    | normal =>
      obtain rfl := (hnormal he).halts_iff.mp ⟨n, hn⟩
      exact .inr ⟨rfl, he⟩
    | ret vs =>
      obtain rfl := (hreturn he).halts_iff.mp ⟨n, hn⟩
      exact .inl he
    | brk => exact absurd (.inl rfl) (hstay he)
    | cont => exact absurd (.inr rfl) (hstay he)
  · obtain ⟨vs, m'⟩ := r
    rintro (he | ⟨hvs, he⟩)
    · exact (hreturn he).halts_iff.mpr rfl
    · obtain rfl : vs = [] := hvs
      exact (hnormal he).halts_iff.mpr rfl

/-- The code of a function of a program stands at its place. -/
theorem codeAt_func {fs : List Typed.FuncDecl} {i : Nat} {d : Typed.FuncDecl} (hd : fs[i]? = some d)
    (hidle : Idle (funcCode c d)) (exit next : Nat) : ∃ k, (entryPlaces c 0 fs)[i]? = some (d.symbol, k) ∧
      CodeAt (fs.flatMap (funcCode c)) k exit next (funcCode c d) := by
  obtain ⟨hi, rfl⟩ := List.getElem?_eq_some_iff.mp hd
  have hsplit : fs = fs.take i ++ fs[i] :: fs.drop (i + 1) := by
    rw [← List.drop_eq_getElem_cons hi, List.take_append_drop]
  have hcount : ∀ (k : Nat) (gs : List Typed.FuncDecl), (entryPlaces c k gs).length = gs.length := by
    intro k gs
    induction gs generalizing k with
    | nil => rfl
    | cons g gs ih => simp [entryPlaces, ih]
  refine ⟨((fs.take i).flatMap (funcCode c)).length, ?_, ?_⟩
  · have hplaces := entryPlaces_append c 0 (fs.take i) (fs[i] :: fs.drop (i + 1))
    rw [← hsplit] at hplaces
    have hfirst : (entryPlaces c 0 (fs.take i)).length = i := by
      rw [hcount, List.length_take]
      omega
    rw [hplaces, List.getElem?_append_right (by omega), hfirst, Nat.sub_self, Nat.zero_add]
    rfl
  · have hcode : fs.flatMap (funcCode c) = (fs.take i).flatMap (funcCode c) ++ funcCode c fs[i] ++
        (fs.drop (i + 1)).flatMap (funcCode c) := by
      have hmap := congrArg (List.flatMap (funcCode c)) hsplit
      rw [List.flatMap_append, List.flatMap_cons, ← List.append_assoc] at hmap
      exact hmap
    rw [hcode]
    exact .ofIdle hidle exit next _

end Functions

/-- Compiled structured functions mean what their trees mean: from the position of the function, with the
arguments on the stack, the machine leaves the frame with the values and the variables with which the body
returns, and only then. -/
theorem compile_preserves_meaning {V : Type} (I : Interpretation V) {st : Store} {m : Module} {p : Typed.Program}
    {out : Compiled} (hc : compile st m p = .ok out) {i : Nat} {d : Typed.FuncDecl} {f : Frame} {e : FuncPos}
    (hd : p.funcs[i]? = some d) (hf : d.frame = some f) (hs : structuredFrame f = true)
    (he : out.funcs[i]? = some e) (self : Option V) (args base : List V) (slots : Slots V)
    (hself : self.isSome = (st.func d.symbol).owner.isSome) (hargs : args.length = f.params.length)
    (r : List V × Slots V) :
    Halts I out.constants (decode out.code).1 ⟨e.pos, args.reverse ++ (self.toList ++ base), slots⟩ r ↔
      Returns I st f.body (enterFrame f self args slots) r := by
  rw [structuredFrame, Bool.and_eq_true] at hs
  obtain ⟨xs, hfinal, -, hcode, hfuncs, hbodies⟩ := compile_final hc
  have hcompilable := hbodies d (List.mem_of_getElem? hd)
  obtain ⟨f', hf', hidle⟩ := hcompilable
  obtain rfl : f = f' := Option.some.inj (hf.symm.trans hf')
  obtain ⟨k, hk, hat⟩ := codeAt_func hd (framed_funcCode ⟨f, hf, hidle⟩).idle 0 0
  -- the position of the function is that of its place
  have hpos : e.pos = posAt (xs .code) k := by
    have hentry : (e.name, some e.pos) = ((st.func d.symbol).fullName, (xs .code)[k]?.map Instruction.pos) := by
      have := congrArg (·[i]?) hfuncs
      simpa [List.getElem?_map, he, hk] using this
    obtain ⟨x, hx, hxe⟩ := Option.map_eq_some_iff.mp (Prod.mk.inj hentry).2.symm
    rw [← hxe, (hfinal .code).placed.pos hx]
  have hframe : CodeAt (programCode (st, m) p .code) k 0 0
      (frameCode (st, m) d.line (st.func d.symbol).owner.isSome f) := by
    simpa only [funcCode, hf, programCode] using hat
  obtain ⟨start, hbody, hleads⟩ := leads_frame I base slots (hfinal .code) hs.2 hself hargs hframe
  have hrun : Halts I out.constants (decode out.code).1 ⟨e.pos, args.reverse ++ (self.toList ++ base), slots⟩ r ↔
      ∃ n, Ends I out.constants (xs .code) n k (args.reverse ++ (self.toList ++ base)) slots r := by
    rw [Halts, hcode, (hfinal .code).decode, hpos]
    rfl
  rw [hrun, hleads.halts_iff]
  exact halts_body (c := (st, m)) (hfinal .code) hs.1 hidle hbody

/-- Integers as values, where zero counts as false. -/
def integers : Interpretation Int where
  constant c := c.int
  zero _ := 0
  truth a := a ≠ 0
  neg a := -a
  not a := if a = 0 then 1 else 0
  add a b := a + b
  sub a b := a - b
  mul a b := a * b
  div a b := a / b
  mod a b := a % b
  lt a b := if a < b then 1 else 0
  le a b := if a ≤ b then 1 else 0
  gt a b := if b < a then 1 else 0
  ge a b := if b ≤ a then 1 else 0
  eq a b := if a = b then 1 else 0
  ne a b := if a = b then 0 else 1

/-- The frame of a function that counts its argument down and returns what is left. -/
def countdownFrame : Frame :=
  let n : LocalVar := ⟨"n", some .int, 0, false⟩
  let read : Expr := .call ⟨2, .readVar n, "n", some .int, default, none, []⟩
  let one : Expr := .literal 3 (.int 1) .int
  let less : Expr := .binary 3 .sub (some .int) read one
  let write : Expr := .call ⟨3, .writeVar n, "n", some .int, default, none, [less]⟩
  { slots := 1, params := [⟨1, n, none⟩], line := 1
    body := [.block (.whileLoop 2 read (.group 2 .seq [.expr write]) none), .ret 4 1 [read]] }

/-- A program with that function. -/
def countdown : Typed.Program := ⟨"m", [.func ⟨1, ⟨0⟩, some countdownFrame⟩]⟩

theorem compile_countdown_preserves_meaning : ∃ out e, compile .empty default countdown = .ok out ∧
    out.funcs[0]? = some e ∧ ∀ r, Halts integers out.constants (decode out.code).1 ⟨e.pos, [3], fun _ => 0⟩ r ↔
      Returns integers .empty countdownFrame.body (Function.update (fun _ => 0) 0 3) r := by
  have hok : (compile .empty default countdown).toOption.any (fun out => out.funcs.length = 1) = true := by
    decide +kernel
  cases h : compile .empty default countdown with
  | error x => simp [h, Except.toOption] at hok
  | ok out =>
    have hlen : 0 < out.funcs.length := by
      have hone : out.funcs.length = 1 := by simpa [h, Except.toOption] using hok
      omega
    refine ⟨out, out.funcs[0], rfl, List.getElem?_eq_getElem hlen, fun r => ?_⟩
    exact compile_preserves_meaning integers h rfl rfl (by decide) (List.getElem?_eq_getElem hlen) none [3] []
      (fun _ => 0) rfl rfl r

end Weft.Bytecode
