import Weft.Proofs.Bytecode.Emission

/-!
# Every tree emits its code

By induction over typed trees, a computation of the compiler that ends emits the code of its tree.
-/

namespace Weft.Bytecode

open Typed (Expr Chain Call Append Lambda Frame VarDecl Stmt Block Arm)

section Accesses

variable {s : Section} {l l' : Lowering} {c : Store × Module} {line : Nat} {u : PUnit} {kids : List Piece}

theorem emits_global {g : GlobalId} {own imported : Opcode} (hown : own.pool = none)
    (himp : imported.pool = some 0) (h : Runs (Lower.global s line g own imported c) l u l') :
    Emits s l l' (globalCode c line g own imported) := by
  unfold Lower.global at h
  simp only [Lower.runs_store_bind, Lower.runs_moduleName_bind] at h
  unfold globalCode
  by_cases hm : (c.1.global g).module = "" ∨ (c.1.global g).module = c.2.name
  · rw [if_pos hm] at h
    simp only [if_pos hm]
    exact emits_put h hown
  · rw [if_neg hm] at h
    simp only [if_neg hm]
    obtain ⟨_, _, h1, h2⟩ := Lower.runs_bind.mp h
    obtain ⟨k, rfl, hu⟩ := used_constant h1
    exact emits_put_const hu h2 himp rfl

theorem emits_callFunc {f : FuncId} {bits : Int} {args : Lower PUnit}
    (ha : ∀ {l l'}, Runs (args c) l u l' → Emits s l l' kids)
    (h : Runs (Lower.callFunc s line f bits args c) l u l') :
    Emits s l l' (callFuncCode c line f bits kids) := by
  unfold Lower.callFunc at h
  rw [Lower.runs_store_bind] at h
  unfold callFuncCode
  by_cases hn : (c.1.func f).native = true
  · simp only [hn, if_true] at h ⊢
    obtain ⟨_, _, h1, h2⟩ := Lower.runs_bind.mp h
    exact (ha h1).trans (emits_put h2 rfl)
  · simp only [hn, if_false, Bool.false_eq_true] at h ⊢
    obtain ⟨_, _, h1, h⟩ := Lower.runs_bind.mp h
    obtain ⟨get, _, h2, h⟩ := Lower.runs_bind.mp h
    obtain ⟨_, _, h3, h⟩ := Lower.runs_bind.mp h
    obtain ⟨call, _, h4, h⟩ := Lower.runs_bind.mp h
    obtain ⟨k, rfl, hu⟩ := used_constant h1
    obtain ⟨rfl, he2⟩ := emits_emit_const [0] hu h2 rfl rfl
    obtain ⟨rfl, he4⟩ := emits_emit h4 rfl
    have he3 := ha h3
    have hall := he2.trans (he3.trans he4)
    simp only [List.singleton_append] at hall
    rw [Lower.runs_moduleName_bind] at h
    by_cases hm : (c.1.func f).module = c.2.name
    · rw [if_pos hm] at h
      rw [Lower.runs_modify.mp h]
      simp only [if_pos hm]
      refine hall.note ⟨rfl, rfl⟩ ⟨rfl, rfl⟩ rfl rfl ?_ ?_
      · simp only [he3.size, he2.size, List.length_singleton]
        omega
      · have hget := operands_emit h2
        rw [Assembly.instr] at hget ⊢
        have hlt₂ : l.next < l.next + 1 := Nat.lt_succ_self _
        have hlt₃ : l.next < l.next + 1 + kids.length := by omega
        rw [he4.old _ (by rw [he3.size, he2.size]; exact hlt₃), he3.old _ (by rw [he2.size]; exact hlt₂), hget]
        rfl
    · rw [if_neg hm] at h
      obtain ⟨-, rfl⟩ := Lower.runs_pure.mp h
      simp only [if_neg hm]
      exact hall

theorem emits_access {a : Typed.Access} {bits : Int} {children : Lower PUnit}
    (hc : ∀ {l l'}, Runs (children c) l u l' → Emits s l l' kids)
    (h : Runs (Lower.access s line a bits children c) l u l') :
    Emits s l l' (accessCode c line a bits kids) := by
  unfold Lower.access at h
  rw [Lower.runs_store_bind] at h
  -- after the children stands one instruction without a constant
  have after : ∀ {op : Opcode} {vs : List Int}, op.pool = none →
      Runs ((children >>= fun _ => Lower.put s op line vs) c) l u l' →
      Emits s l l' (kids ++ [Piece.plain op line vs]) := by
    intro op vs hp h
    obtain ⟨_, _, h1, h2⟩ := Lower.runs_bind.mp h
    exact (hc h1).trans (emits_put h2 hp)
  cases a with
  | readVar v => exact emits_put h rfl
  | writeVar v => exact after rfl h
  | varRef v => exact emits_put h rfl
  | readGlobal g => exact emits_global rfl rfl h
  | writeGlobal g =>
    obtain ⟨_, _, h1, h2⟩ := Lower.runs_bind.mp h
    exact (hc h1).trans (emits_global rfl rfl h2)
  | readField f =>
    unfold accessCode
    by_cases hn : (c.1.field f).native = true
    · simp only [hn, if_true] at h ⊢
      exact emits_put h rfl
    · simp only [hn, if_false, Bool.false_eq_true] at h ⊢
      exact emits_put h rfl
  | readNative slot => exact emits_put h rfl
  | writeField f => exact after rfl h
  | initField f => exact after rfl h
  | func f => exact emits_callFunc hc h
  | funcRef f =>
    unfold accessCode
    by_cases hn : (c.1.func f).native = true
    · simp only [hn, if_true] at h ⊢
      exact emits_put h rfl
    · simp only [hn, if_false, Bool.false_eq_true] at h ⊢
      obtain ⟨_, _, h1, h2⟩ := Lower.runs_bind.mp h
      obtain ⟨k, rfl, hu⟩ := used_constant h1
      exact emits_put_const hu h2 rfl rfl
  | method f =>
    unfold accessCode
    obtain ⟨_, _, h1, h⟩ := Lower.runs_bind.mp h
    by_cases hn : (c.1.func f).native = true
    · simp only [hn, if_true] at h ⊢
      exact (hc h1).trans (emits_put h rfl)
    · simp only [hn, if_false, Bool.false_eq_true] at h ⊢
      obtain ⟨_, _, h2, h3⟩ := Lower.runs_bind.mp h
      obtain ⟨k, rfl, hu⟩ := used_constant h2
      exact (hc h1).trans (emits_put_const hu h3 rfl rfl)
  | methodNative slot => exact after rfl h
  | methodVirtual f => exact after rfl h
  | methodIface f =>
    unfold accessCode
    obtain ⟨_, _, h1, h⟩ := Lower.runs_bind.mp h
    rcases ho : (c.1.func f).owner with _ | ⟨⟩ | ⟨i⟩ | ⟨⟩
    case some.iface =>
      simp only [ho, ifaceConst?] at h ⊢
      obtain ⟨_, _, h2, h3⟩ := Lower.runs_bind.mp h
      obtain ⟨k, v, rfl, hv, hu⟩ := used_typeConstant h2
      rw [hv]
      exact (hc h1).trans (emits_put_const hu h3 rfl rfl)
    all_goals
      simp only [ho] at h
      exact absurd h Lower.runs_throw
  | funcPtr => exact after rfl h
  | arrayGet => exact after rfl h
  | arraySet => exact after rfl h
  | mapGet => exact after rfl h
  | mapSet => exact after rfl h

end Accesses

section Trees

variable {c : Store × Module} {u : PUnit}

private theorem emits_upvals {s : Section} {line : Nat} {ups : List Typed.Upval} {l l' : Lowering}
    (h : Runs (ups.forM (fun v => Lower.put s .useUpval line
      [(v.src : Int), v.dst, if v.copied then 0 else 1]) c) l u l') :
    Emits s l l' (ups.map fun v => .plain .useUpval line [(v.src : Int), v.dst, if v.copied then 0 else 1]) := by
  rw [Lower.forM_apply] at h
  induction ups generalizing l with
  | nil =>
    rw [runs_forM_nil.mp h]
    exact .refl s l
  | cons v ups ih =>
    obtain ⟨l₁, h1, h2⟩ := runs_forM_cons.mp h
    exact (emits_put h1 rfl).trans (ih h2)

private theorem emits_pops {s : Section} {line n : Nat} {l l' : Lowering}
    (h : Runs ((List.replicate n ()).forM (fun _ => Lower.put s .pop line []) c) l u l') :
    Emits s l l' (List.replicate n (.plain .pop line [])) := by
  rw [Lower.forM_apply] at h
  induction n generalizing l with
  | zero =>
    rw [runs_forM_nil.mp h]
    exact .refl s l
  | succ n ih =>
    obtain ⟨l₁, h1, h2⟩ := runs_forM_cons.mp h
    exact (emits_put h1 rfl).trans (ih h2)

/-- Code that ends in a mark which an instruction before it is about. -/
private theorem emits_skip {s : Section} {op : Opcode} {line line' n m : Nat} {vs : List Int} {i : Int}
    {a b : List Piece} {l l₁ l₂ l₃ l₄ : Lowering} (ha : Emits s l l₁ a)
    (h1 : Emits s l₁ l₂ (.plain op line vs :: b)) (hn : n = l₁.next)
    (h2 : Runs (Lower.mark s line' c) l₂ m l₃) (h3 : Runs (Lower.offset s n m i c) l₃ u l₄)
    (hi : i = (Piece.plain op line vs).offsetIndex) :
    Emits s l l₄ (a ++ Piece.leading op line vs (.ahead (b.length + 1)) :: (b ++ [Piece.mark line'])) := by
  obtain ⟨rfl, he⟩ := emits_mark h2
  have hall := ha.trans (h1.trans he)
  refine Emits.aim (b := b ++ [Piece.mark line']) (by simpa using hall) h3 ?_ ?_ hi
  · rw [hn, ha.size]
  · rw [h1.size, hn]
    simp

/-- The branches of a condition before their jumps to its end lead there. -/
def armsOpen (c : Store × Module) (under : Bool) (line : Nat) (more : Bool) : List Arm → List Piece
  | [] => []
  | ⟨test, body⟩ :: as =>
    armCode line test.line (exprCode c test) (blockCode c under body)
      (leaveCode (more || !as.isEmpty) body.line none) ++ armsOpen c under line more as

/-- The jumps to the end of a condition. -/
def armsExits (c : Store × Module) (under : Bool) (line : Nat) (more : Bool) (n : Nat) :
    List Arm → List Nat
  | [] => []
  | ⟨test, body⟩ :: as =>
    let before := (exprCode c test).length + 1 + (blockCode c under body).length
    let leave := leaveCode (more || !as.isEmpty) body.line none
    (leave.map fun _ => n + before) ++ armsExits c under line more (n + before + leave.length + 1) as

private theorem length_armsOpen (under : Bool) (line : Nat) (more : Bool) (rest : Nat) (as : List Arm) :
    (armsOpen c under line more as).length = (armsCode c under line more rest as).length := by
  induction as with
  | nil => rfl
  | cons arm as ih =>
    obtain ⟨test, body⟩ := arm
    simp only [armsOpen, armsCode, List.length_append, ih, armCode, leaveCode]
    split <;> simp

/-- The jumps to the end of a condition get their goals. -/
private theorem emits_leave_arms {s : Section} {under : Bool} {line stop : Nat} {more : Bool} {x b : List Piece}
    {l l₁ l₂ : Lowering} (as : List Arm)
    (h : Emits s l l₁ (x ++ armsOpen c under line more as ++ (b ++ [Piece.mark line])))
    (hr : Runs ((armsExits c under line more (l.next + x.length) as).forM fun j =>
      Lower.offset s j stop 0 c) l₁ u l₂)
    (hstop : stop = l.next + x.length + (armsOpen c under line more as).length + b.length) :
    Emits s l l₂ (x ++ armsCode c under line more b.length as ++ (b ++ [Piece.mark line])) := by
  induction as generalizing x l₁ with
  | nil =>
    rw [runs_forM_nil.mp hr]
    exact h
  | cons arm as ih =>
    obtain ⟨test, body⟩ := arm
    have hlen := length_armsOpen (c := c) under line more b.length as
    rw [armsOpen] at h hstop
    rw [armsExits] at hr
    rw [armsCode]
    by_cases hl : (more || !as.isEmpty) = true
    · simp only [leaveCode, hl, if_true, List.map_cons, List.map_nil, List.singleton_append,
        List.length_singleton] at h hr hstop ⊢
      obtain ⟨l₃, h1, h2⟩ := runs_forM_cons.mp hr
      -- the jump of this branch leads over the other branches to the end
      let front := x ++ (exprCode c test ++ Piece.leading .jumpZ test.line [0]
        (.ahead ((blockCode c under body).length + 1 + 1)) :: blockCode c under body)
      let back := Piece.mark line :: (armsOpen c under line more as ++ (b ++ [Piece.mark line]))
      have haim : Emits s l l₃ (front ++ Piece.leading .jump body.line [0]
          (.ahead ((armsCode c under line more b.length as).length + b.length + 2)) :: back) := by
        have hplain : Emits s l l₁ (front ++ Piece.plain .jump body.line [0] :: back) := by
          simpa [armCode, front, back, Piece.plain] using h
        refine hplain.aim h1 ?_ ?_ rfl
        · simp [front]
          omega
        · rw [hstop]
          simp [armCode]
          omega
      have := ih (x := x ++ armCode line test.line (exprCode c test) (blockCode c under body)
        [⟨.jump, [0], body.line, none,
          some (.ahead ((armsCode c under line more b.length as).length + b.length + 2)), none⟩])
        (by simpa [armCode, front, back, Piece.leading] using haim)
        (by
          have hn : l.next + (x ++ armCode line test.line (exprCode c test) (blockCode c under body)
              [⟨.jump, [0], body.line, none,
                some (.ahead ((armsCode c under line more b.length as).length + b.length + 2)), none⟩]).length =
              l.next + x.length + ((exprCode c test).length + 1 + (blockCode c under body).length) + 1 + 1 := by
            simp [armCode]
            omega
          rw [hn]
          exact h2)
        (by
          rw [hstop]
          simp [armCode]
          omega)
      simpa using this
    · simp only [leaveCode, hl, if_false, Bool.false_eq_true, List.map_nil, List.nil_append,
        List.length_nil, Nat.add_zero] at h hr hstop ⊢
      have := ih (x := x ++ armCode line test.line (exprCode c test) (blockCode c under body) [])
        (by simpa using h)
        (by
          have hn : l.next + (x ++ armCode line test.line (exprCode c test) (blockCode c under body) []).length =
              l.next + x.length + ((exprCode c test).length + 1 + (blockCode c under body).length) + 1 := by
            simp [armCode]
            omega
          rw [hn]
          exact hr)
        (by
          rw [hstop]
          simp [armCode]
          omega)
      simpa using this

/-- The code before a body does not end in a return. -/
theorem not_return_before {s : Section} {line slots first : Nat} (ps : List VarDecl)
    {rest : List Piece} {l l' : Lowering} (hrest : ∀ q ∈ rest, q.op.isReturn = false)
    (h : Puts s l l' (Piece.plain .initFrame line [(slots : Int)] :: (paramsCode c first 0 ps ++ rest))) :
    ∀ n, (l'.asm.stream s).order.back? = some n → (l'.asm.instr n).op.isReturn = false := by
  intro n hn
  have harg : ∀ q ∈ (paramsCode c first 0 ps).getLast?, q.op.isReturn = false := by
    intro q hq
    have hpiece : ∀ line v, (argPiece line v).op.isReturn = false := by
      intro line v
      cases hv : v.ref <;> simp [argPiece, Piece.plain, hv, Opcode.isReturn]
    cases ps with
    | nil => simp [paramsCode] at hq
    | cons p rest =>
      obtain ⟨line, v, init⟩ := p
      cases init with
      | none =>
        obtain rfl : argPiece line v = q := by simpa [paramsCode] using hq
        exact hpiece line v
      | some x =>
        obtain rfl : argPiece line v = q := by simpa [paramsCode, List.getLast?_cons] using hq
        exact hpiece line v
  obtain ⟨q, hq⟩ : ∃ q, (Piece.plain .initFrame line [(slots : Int)] ::
      (paramsCode c first 0 ps ++ rest)).getLast? = some q := by
    simp [List.getLast?_cons]
  obtain ⟨k, hk, hop⟩ := h.back hq
  obtain rfl : k = n := by
    rw [hn] at hk
    exact (Option.some.inj hk).symm
  rw [hop]
  rw [List.getLast?_cons, List.getLast?_append] at hq
  cases hr : rest.getLast? with
  | some r =>
    simp only [hr, Option.some_or, Option.getD_some, Option.some.injEq] at hq
    rw [← hq]
    exact hrest r (List.mem_of_getLast? hr)
  | none =>
    simp only [hr, Option.none_or, Option.some.injEq] at hq
    cases hp : (paramsCode c first 0 ps).getLast? with
    | some r =>
      simp only [hp, Option.getD_some] at hq
      rw [← hq]
      exact harg r (by rw [hp]; rfl)
    | none =>
      simp only [hp, Option.getD_none] at hq
      rw [← hq]
      rfl

/-- A loop that tests before its body, from the jump back on. -/
private theorem emits_while {s : Section} {line top jz next : Nat} {test body post : List Piece}
    {l l₂ l₃ l₄ l' : Lowering} (ht : Emits s l l₂ (.mark line :: test))
    (hj : Emits s l₂ l₃ [Piece.plain .jumpZ line [0]])
    (hb : Emits s { l₃ with loops := ⟨[], []⟩ :: l₃.loops } l₄ (body ++ Piece.mark line :: post))
    (h : Runs ((do
      let back ← Lower.emit s .jump line [0]
      Lower.offset s back top 0
      let exit ← Lower.mark s line
      Lower.offset s jz exit 0
      Lower.leaveLoop s exit next : Lower PUnit) c) l₄ u l')
    (htop : top = l.next) (hjz : jz = l₂.next) (hnext : next = l₃.next + body.length) :
    Emits s l l' (whileCode line test body post) := by
  obtain ⟨back, _, h1, h⟩ := Lower.runs_bind.mp h
  obtain ⟨_, l₅, h2, h⟩ := Lower.runs_bind.mp h
  obtain ⟨exit, l₆, h3, h⟩ := Lower.runs_bind.mp h
  obtain ⟨_, l₇, h4, h5⟩ := Lower.runs_bind.mp h
  obtain ⟨rfl, he1⟩ := emits_emit h1 rfl
  obtain ⟨rfl, he3⟩ := emits_mark h3
  have hfront := ht.trans hj
  have hl₂ := ht.size
  have hl₃ := hj.size
  have hl₄ : l₄.next = l₃.next + (body ++ Piece.mark line :: post).length := hb.size
  simp only [List.length_cons, List.length_nil, List.length_append] at hl₂ hl₃ hl₄
  have hjump := (hb.trans he1).aim (d := -(test.length + body.length + post.length + 3 : Int)) h2
    (by rw [hb.size]) (by omega) rfl
  have hl₅ : l₅.next = l₃.next + _ := hjump.size
  simp only [List.length_cons, List.length_nil, List.length_append] at hl₅
  have hback := hjump.trans he3
  have hwhole := hfront.toPuts.trans (hback.toPuts.reloop l₃.loops l₆.loops)
  have haim := Puts.aim (a := .mark line :: test) (d := (body.length + post.length + 3 : Int))
    (by simpa using hwhole) h4 (by simp; omega) (by omega) rfl
  have hloops : l₇.loops = l₆.loops := by rw [runs_lowerOffset h4]
  have hleave := Emits.leave (e := body.length + post.length + 2) (k := body.length)
    (a := Piece.mark line :: test ++ [Piece.leading .jumpZ line [0] (.ahead (body.length + post.length + 3))])
    (by simpa using haim) (hfront.loops.congr fun g k hg => pending_aim hg)
    (by
      have hw : Waiting l₃.next _ _ _ := hback.loops
      rw [hloops]
      have hn : l.next + (Piece.mark line :: test ++
          [Piece.leading .jumpZ line [0] (.ahead (body.length + post.length + 3))]).length = l₃.next := by
        simp
        omega
      rw [hn]
      simpa using hw) h5 (by simp; omega) (by simp; omega)
  simpa [whileCode] using hleave

/-- A loop that tests after its body, from the jump out of it on. -/
private theorem emits_do {s : Section} {line top next : Nat} {test body : List Piece}
    {l l₁ l₂ l' : Lowering} (hm : Emits s l l₁ [Piece.mark line])
    (hb : Emits s { l₁ with loops := ⟨[], []⟩ :: l₁.loops } l₂ (body ++ Piece.mark line :: test))
    (h : Runs ((do
      let jz ← Lower.emit s .jumpZ line [0]
      let back ← Lower.emit s .jump line [0]
      Lower.offset s back top 0
      let exit ← Lower.mark s line
      Lower.offset s jz exit 0
      Lower.leaveLoop s exit next : Lower PUnit) c) l₂ u l')
    (htop : top = l.next) (hnext : next = l₁.next + body.length) :
    Emits s l l' (doCode line body test) := by
  obtain ⟨jz, l₃, h0, h⟩ := Lower.runs_bind.mp h
  obtain ⟨back, l₄, h1, h⟩ := Lower.runs_bind.mp h
  obtain ⟨_, l₅, h2, h⟩ := Lower.runs_bind.mp h
  obtain ⟨exit, l₆, h3, h⟩ := Lower.runs_bind.mp h
  obtain ⟨_, l₇, h4, h5⟩ := Lower.runs_bind.mp h
  obtain ⟨rfl, he0⟩ := emits_emit h0 rfl
  obtain ⟨rfl, he1⟩ := emits_emit h1 rfl
  obtain ⟨rfl, he3⟩ := emits_mark h3
  have hl₁ := hm.size
  have hl₂ : l₂.next = l₁.next + (body ++ Piece.mark line :: test).length := hb.size
  have hl₃ := he0.size
  simp only [List.length_cons, List.length_nil, List.length_append] at hl₁ hl₂ hl₃
  have hjump := ((hb.trans he0).trans he1).aim (d := -(body.length + test.length + 3 : Int)) h2
    (by rw [(hb.trans he0).size]) (by omega) rfl
  have hl₅ : l₅.next = l₁.next + _ := hjump.size
  simp only [List.length_cons, List.length_nil, List.length_append] at hl₅
  have hback := hjump.trans he3
  have hloop := Emits.aim (a := body ++ Piece.mark line :: test) (d := 2) (by simpa using hback) h4
    (by rw [hb.size]) (by omega) rfl
  have hleave := Emits.leave (e := body.length + test.length + 3) (k := body.length)
    (hm.toPuts.trans (hloop.toPuts.reloop l₁.loops l₇.loops)) hm.loops
    (by rw [List.length_singleton, ← hl₁]; exact hloop.loops) h5 (by simp; omega) (by simp; omega)
  simpa [doCode] using hleave

mutual

theorem emits_expr {s : Section} {l l' : Lowering} :
    (x : Expr) → Runs (Lower.expr s x c) l () l' → Emits s l l' (exprCode c x)
  | .literal line v _, h => by
    simp only [Lower.expr] at h
    obtain ⟨_, _, h1, h2⟩ := Lower.runs_bind.mp h
    obtain ⟨k, rfl, hu⟩ := used_constant h1
    exact emits_put_const hu h2 rfl rfl
  | .unary line op _ x, h => by
    simp only [Lower.expr] at h
    obtain ⟨_, _, h1, h2⟩ := Lower.runs_bind.mp h
    exact (emits_expr x h1).trans (emits_put h2 (by cases op <;> rfl))
  | .binary line op _ x y, h => by
    simp only [Lower.expr] at h
    obtain ⟨_, _, h1, h⟩ := Lower.runs_bind.mp h
    have hx := emits_expr x h1
    have both : ∀ {op : Opcode} {l : Lowering}, op.pool = none →
        Runs ((Lower.expr s y >>= fun _ => Lower.put s op line []) c) l () l' →
        Emits s l l' (exprCode c y ++ [Piece.plain op line []]) := by
      intro op l hp h
      obtain ⟨_, _, h2, h3⟩ := Lower.runs_bind.mp h
      exact (emits_expr y h2).trans (emits_put h3 hp)
    have skip : ∀ {op : Opcode}, op.pool = none → op.offsetOperand? = some 0 → ∀ {l₁ : Lowering},
        Emits s l l₁ (exprCode c x) →
        Runs ((do
          let j ← Lower.emit s op line [0]
          Lower.expr s y
          Lower.offset s j (← Lower.mark s line) 0 : Lower PUnit) c) l₁ () l' →
        Emits s l l' (exprCode c x ++
          Piece.leading op line [0] (.ahead ((exprCode c y).length + 1)) :: (exprCode c y ++ [Piece.mark line])) := by
      intro op hp ho l₁ hx h
      obtain ⟨j, _, h2, h⟩ := Lower.runs_bind.mp h
      obtain ⟨_, _, h3, h⟩ := Lower.runs_bind.mp h
      obtain ⟨m, _, h4, h5⟩ := Lower.runs_bind.mp h
      obtain ⟨rfl, he⟩ := emits_emit h2 hp
      exact emits_skip hx (he.trans (emits_expr y h3)) rfl h4 h5 (by simp [Piece.offsetIndex, Piece.plain, ho])
    rw [exprCode]
    cases op
    case and => exact skip rfl rfl hx h
    case or => exact skip rfl rfl hx h
    all_goals
      rw [if_neg (by decide), List.append_assoc]
      exact hx.trans (both rfl h)
  | .chain ⟨_, _, _, links⟩, h => by
    simp only [Lower.expr] at h
    exact emits_exprs links h
  | .call x, h => by
    simp only [Lower.expr] at h
    exact emits_call x h
  | .cast line kind t x, h => by
    simp only [Lower.expr] at h
    obtain ⟨_, _, h1, h⟩ := Lower.runs_bind.mp h
    obtain ⟨_, _, h2, h3⟩ := Lower.runs_bind.mp h
    obtain ⟨k, v, rfl, hv, hu⟩ := used_typeConstant h2
    rw [exprCode, hv]
    exact (emits_expr x h1).trans (emits_put_const hu h3 (by cases kind <;> rfl) rfl)
  | .new line t inits, h => by
    simp only [Lower.expr] at h
    obtain ⟨_, _, h1, h⟩ := Lower.runs_bind.mp h
    obtain ⟨_, _, h2, h3⟩ := Lower.runs_bind.mp h
    obtain ⟨k, v, rfl, hv, hu⟩ := used_typeConstant h1
    rw [exprCode, hv]
    exact (emits_put_const hu h2 rfl rfl).trans (emits_calls inits h3)
  | .collection line t items, h => by
    simp only [Lower.expr] at h
    obtain ⟨_, _, h1, h⟩ := Lower.runs_bind.mp h
    obtain ⟨_, _, h2, h3⟩ := Lower.runs_bind.mp h
    obtain ⟨k, v, rfl, hv, hu⟩ := used_typeConstant h1
    rw [exprCode, hv]
    exact (emits_put_const hu h2 rfl rfl).trans (emits_appends items h3)
  | .lambda fn, h => by
    simp only [Lower.expr] at h
    exact emits_lambda fn h

theorem emits_exprs {s : Section} {l l' : Lowering} :
    (xs : List Expr) → Runs (Lower.exprs s xs c) l () l' → Emits s l l' (exprsCode c xs)
  | [], h => by
    obtain ⟨-, rfl⟩ := Lower.runs_pure.mp h
    exact .refl s l'
  | x :: xs, h => by
    simp only [Lower.exprs] at h
    obtain ⟨_, _, h1, h2⟩ := Lower.runs_bind.mp h
    exact (emits_expr x h1).trans (emits_exprs xs h2)

theorem emits_call {s : Section} {l l' : Lowering} :
    (x : Call) → Runs (Lower.call s x c) l () l' → Emits s l l' (callCode c x)
  | ⟨line, a, _, _, args, _, children⟩, h => by
    simp only [Lower.call] at h
    exact emits_access (fun h => emits_exprs children h) h

theorem emits_calls {s : Section} {l l' : Lowering} :
    (xs : List Call) → Runs (Lower.calls s xs c) l () l' → Emits s l l' (callsCode c xs)
  | [], h => by
    obtain ⟨-, rfl⟩ := Lower.runs_pure.mp h
    exact .refl s l'
  | x :: xs, h => by
    simp only [Lower.calls] at h
    obtain ⟨_, _, h1, h2⟩ := Lower.runs_bind.mp h
    exact (emits_call x h1).trans (emits_calls xs h2)

theorem emits_appends {s : Section} {l l' : Lowering} :
    (xs : List Append) → Runs (Lower.appends s xs c) l () l' → Emits s l l' (appendsCode c xs)
  | [], h => by
    obtain ⟨-, rfl⟩ := Lower.runs_pure.mp h
    exact .refl s l'
  | .element line x :: rest, h => by
    simp only [Lower.appends] at h
    obtain ⟨_, _, h1, h⟩ := Lower.runs_bind.mp h
    obtain ⟨_, _, h2, h3⟩ := Lower.runs_bind.mp h
    exact (emits_expr x h1).trans ((emits_put h2 rfl).trans (emits_appends rest h3))
  | .entry line k v :: rest, h => by
    simp only [Lower.appends] at h
    obtain ⟨_, _, h1, h⟩ := Lower.runs_bind.mp h
    obtain ⟨_, _, h2, h⟩ := Lower.runs_bind.mp h
    obtain ⟨_, _, h3, h4⟩ := Lower.runs_bind.mp h
    exact ((emits_expr k h1).trans (emits_expr v h2)).trans
      ((emits_put h3 rfl).trans (emits_appends rest h4))

theorem emits_lambda {s : Section} {l l' : Lowering} :
    (x : Lambda) → Runs (Lower.lambda s x c) l () l' → Emits s l l' (lambdaCode c x)
  | ⟨line, _, upvals, ⟨slots, ps, bodyLine, body⟩⟩, h => by
    simp only [Lower.lambda] at h
    obtain ⟨head, _, h1, h⟩ := Lower.runs_bind.mp h
    obtain ⟨_, _, h2, h⟩ := Lower.runs_bind.mp h
    obtain ⟨_, _, h3, h⟩ := Lower.runs_bind.mp h
    obtain ⟨_, _, h4, h⟩ := Lower.runs_bind.mp h
    obtain ⟨m, _, h5, h⟩ := Lower.runs_bind.mp h
    obtain ⟨_, _, h6, h7⟩ := Lower.runs_bind.mp h
    obtain ⟨rfl, he1⟩ := emits_emit h1 rfl
    have hframe := (emits_put h2 rfl).trans (emits_params ps h3)
    have hbefore := hframe.toPuts
    rw [List.singleton_append, ← List.append_nil (paramsCode _ _ _ _)] at hbefore
    have hbody := (emits_closed (fun h => emits_stmts body h)
      (not_return_before ps (by simp) hbefore) h4).1
    have hskip := emits_skip (.refl s l) (he1.trans (hframe.trans hbody)) rfl h5 h6 rfl
    have hall := hskip.trans (emits_upvals h7)
    rw [lambdaCode]
    simpa using hall

theorem emits_params {s : Section} {first i : Nat} {l l' : Lowering} :
    (ps : List VarDecl) → Runs (Lower.params s first i ps c) l () l' → Emits s l l' (paramsCode c first i ps)
  | [], h => by
    obtain ⟨-, rfl⟩ := Lower.runs_pure.mp h
    exact .refl s l'
  | ⟨line, v, none⟩ :: rest, h => by
    simp only [Lower.params] at h
    obtain ⟨_, _, h1, h2⟩ := Lower.runs_bind.mp h
    exact (emits_params rest h1).trans (emits_put h2 (by cases v.ref <;> rfl))
  | ⟨line, v, some x⟩ :: rest, h => by
    simp only [Lower.params] at h
    obtain ⟨_, _, h1, h⟩ := Lower.runs_bind.mp h
    obtain ⟨d, _, h2, h⟩ := Lower.runs_bind.mp h
    obtain ⟨_, _, h3, h⟩ := Lower.runs_bind.mp h
    obtain ⟨m, _, h4, h⟩ := Lower.runs_bind.mp h
    obtain ⟨_, _, h5, h6⟩ := Lower.runs_bind.mp h
    obtain ⟨rfl, he⟩ := emits_emit h2 rfl
    have hskip := emits_skip (emits_params rest h1) (he.trans (emits_expr x h3)) rfl h4 h5 rfl
    have hall := hskip.trans (emits_put h6 (by cases v.ref <;> rfl))
    rw [paramsCode]
    simpa [argPiece] using hall

theorem emits_stmt {s : Section} {under : Bool} {l l' : Lowering} :
    (x : Stmt) → Runs (Lower.stmt s under x c) l () l' → Emits s l l' (stmtCode c under x)
  | .expr x, h => by
    simp only [Lower.stmt] at h
    exact emits_expr x h
  | .discard line n x, h => by
    simp only [Lower.stmt] at h
    obtain ⟨_, _, h1, h2⟩ := Lower.runs_bind.mp h
    exact (emits_expr x h1).trans (emits_pops h2)
  | .var ⟨line, v, none⟩, h => by
    simp only [Lower.stmt] at h
    obtain ⟨_, _, h1, h2⟩ := Lower.runs_bind.mp h
    obtain ⟨k, w, rfl, hv, hu⟩ := used_typeConstant h1
    rw [stmtCode, hv]
    exact emits_put_const hu h2 rfl rfl
  | .var ⟨line, v, some x⟩, h => by
    simp only [Lower.stmt] at h
    obtain ⟨_, _, h1, h2⟩ := Lower.runs_bind.mp h
    exact (emits_expr x h1).trans (emits_put h2 rfl)
  | .ret line n values, h => by
    simp only [Lower.stmt] at h
    obtain ⟨_, _, h1, h2⟩ := Lower.runs_bind.mp h
    rw [stmtCode]
    by_cases hn : n = 0
    · rw [if_pos hn] at h2 ⊢
      exact (emits_exprs values h1).trans (emits_put h2 rfl)
    · rw [if_neg hn] at h2 ⊢
      exact (emits_exprs values h1).trans (emits_put h2 rfl)
  | .brk line, h => by
    simp only [Lower.stmt] at h
    refine emits_wait (.inl rfl) (.inl rfl) ?_ h
    intro n v b
    simp
  | .cont line, h => by
    simp only [Lower.stmt] at h
    refine emits_wait (.inr rfl) (.inr rfl) ?_ h
    intro n v b
    simp
  | .yield line, h => by
    simp only [Lower.stmt] at h
    exact emits_put h rfl
  | .block b, h => by
    simp only [Lower.stmt] at h
    exact emits_block b h

theorem emits_stmts {s : Section} {under : Bool} {l l' : Lowering} :
    (xs : List Stmt) → Runs (Lower.stmts s under xs c) l () l' → Emits s l l' (stmtsCode c under xs)
  | [], h => by
    obtain ⟨-, rfl⟩ := Lower.runs_pure.mp h
    exact .refl s l'
  | x :: xs, h => by
    simp only [Lower.stmts] at h
    obtain ⟨_, _, h1, h2⟩ := Lower.runs_bind.mp h
    exact (emits_stmt x h1).trans (emits_stmts xs h2)

theorem emits_branches {s : Section} {l l' : Lowering} :
    (xs : List Stmt) → Runs (Lower.branches s xs c) l () l' → Emits s l l' (branchesCode c xs)
  | [], h => by
    obtain ⟨-, rfl⟩ := Lower.runs_pure.mp h
    exact .refl s l'
  | x :: xs, h => by
    simp only [Lower.branches] at h
    rw [branchesCode]
    by_cases hx : isSeqOrDefer x = true
    · rw [if_pos hx] at h ⊢
      obtain ⟨_, _, h1, h2⟩ := Lower.runs_bind.mp h
      exact (emits_stmt x h1).trans (emits_branches xs h2)
    · rw [if_neg hx] at h ⊢
      obtain ⟨head, _, h1, h⟩ := Lower.runs_bind.mp h
      obtain ⟨_, _, h2, h⟩ := Lower.runs_bind.mp h
      obtain ⟨stop, _, h3, h⟩ := Lower.runs_bind.mp h
      obtain ⟨_, _, h4, h5⟩ := Lower.runs_bind.mp h
      obtain ⟨rfl, he⟩ := emits_emit h1 rfl
      have hskip := emits_skip (.refl s l) (he.trans (emits_stmt x h2)) rfl h3 h4 rfl
      exact Emits.trans (by simpa [groupCode] using hskip) (emits_branches xs h5)

theorem emits_block {s : Section} {under : Bool} {l l' : Lowering} :
    (b : Block) → Runs (Lower.block s under b c) l () l' → Emits s l l' (blockCode c under b)
  | .group line kind ss, h => by
    simp only [Lower.block] at h
    obtain ⟨head, _, h1, h⟩ := Lower.runs_bind.mp h
    obtain ⟨rfl, he⟩ := emits_emit h1 rfl
    have finish : ∀ {body : List Piece} {l₁ : Lowering},
        Emits s l l₁ (.plain .block line [Lower.kindNumber kind, 0] :: body) →
        Runs ((do
          let stop ← Lower.mark s line
          if keepsHeader under kind ss then Lower.offset s l.next stop 1
          else Lower.assemble (Assemble.replace l.next .mark []) : Lower PUnit) c) l₁ () l' →
        Emits s l l' (groupCode (keepsHeader under kind ss) line (Lower.kindNumber kind) body) := by
      intro body l₁ hbody h
      obtain ⟨stop, _, h3, h4⟩ := Lower.runs_bind.mp h
      by_cases hk : keepsHeader under kind ss = true
      · rw [if_pos hk] at h4
        have hskip := emits_skip (.refl s l) hbody rfl h3 h4 rfl
        simpa [groupCode, hk] using hskip
      · rw [if_neg hk] at h4
        obtain ⟨rfl, hm⟩ := emits_mark h3
        have := (hbody.trans hm).elide h4 rfl
        simpa [groupCode, hk] using this
    rw [blockCode]
    by_cases hp : kind.isParallel = true
    · rw [if_pos hp] at h ⊢
      obtain ⟨_, _, h2, h3⟩ := Lower.runs_bind.mp h
      exact finish (he.trans (emits_branches ss h2)) h3
    · rw [if_neg hp] at h ⊢
      obtain ⟨_, _, h2, h3⟩ := Lower.runs_bind.mp h
      exact finish (he.trans (emits_stmts ss h2)) h3
  | .cond line as none, h => by
    simp only [Lower.block] at h
    obtain ⟨exits, _, h1, h⟩ := Lower.runs_bind.mp h
    obtain ⟨stop, _, h2, h3⟩ := Lower.runs_bind.mp h
    obtain ⟨ha, rfl⟩ := emits_arms as h1
    obtain ⟨rfl, hm⟩ := emits_mark h2
    rw [Lower.forM_apply] at h3
    have := emits_leave_arms (x := []) (b := []) as (by simpa using ha.trans hm) (by simpa using h3)
      (by simp [ha.size])
    simpa [blockCode] using this
  | .cond line as (some b), h => by
    simp only [Lower.block] at h
    obtain ⟨exits, _, h1, h⟩ := Lower.runs_bind.mp h
    obtain ⟨_, _, h2, h⟩ := Lower.runs_bind.mp h
    obtain ⟨stop, _, h3, h4⟩ := Lower.runs_bind.mp h
    obtain ⟨ha, rfl⟩ := emits_arms as h1
    have hb := emits_block b h2
    obtain ⟨rfl, hm⟩ := emits_mark h3
    rw [Lower.forM_apply] at h4
    have := emits_leave_arms (x := []) (b := blockCode c under b) as
      (by simpa using ha.trans (hb.trans hm)) (by simpa using h4) (by simp [ha.size, hb.size])
    simpa [blockCode] using this
  | .whileLoop line test body none, h => by
    simp only [Lower.block] at h
    obtain ⟨top, _, h1, h⟩ := Lower.runs_bind.mp h
    obtain ⟨_, _, h2, h⟩ := Lower.runs_bind.mp h
    obtain ⟨jz, _, h3, h⟩ := Lower.runs_bind.mp h
    obtain ⟨_, _, h4, h⟩ := Lower.runs_bind.mp h
    obtain ⟨next, _, h5, h⟩ := Lower.runs_bind.mp h
    obtain ⟨rfl, he1⟩ := emits_mark h1
    obtain ⟨rfl, he3⟩ := emits_emit h3 rfl
    obtain ⟨rfl, he5⟩ := emits_mark h5
    have hb := emits_block body (Lower.runs_modify_bind.mp h4)
    exact emits_while (he1.trans (emits_expr test h2)) he3 (hb.trans he5) h rfl rfl hb.size
  | .whileLoop line test body (some post), h => by
    simp only [Lower.block] at h
    obtain ⟨top, _, h1, h⟩ := Lower.runs_bind.mp h
    obtain ⟨_, _, h2, h⟩ := Lower.runs_bind.mp h
    obtain ⟨jz, _, h3, h⟩ := Lower.runs_bind.mp h
    obtain ⟨_, _, h4, h⟩ := Lower.runs_bind.mp h
    obtain ⟨next, _, h5, h⟩ := Lower.runs_bind.mp h
    obtain ⟨_, _, h6, h⟩ := Lower.runs_bind.mp h
    obtain ⟨rfl, he1⟩ := emits_mark h1
    obtain ⟨rfl, he3⟩ := emits_emit h3 rfl
    obtain ⟨rfl, he5⟩ := emits_mark h5
    have hb := emits_block body (Lower.runs_modify_bind.mp h4)
    exact emits_while (he1.trans (emits_expr test h2)) he3 (hb.trans (he5.trans (emits_block post h6))) h
      rfl rfl hb.size
  | .doLoop line body test, h => by
    simp only [Lower.block] at h
    obtain ⟨top, _, h1, h⟩ := Lower.runs_bind.mp h
    obtain ⟨_, _, h2, h⟩ := Lower.runs_bind.mp h
    obtain ⟨next, _, h3, h⟩ := Lower.runs_bind.mp h
    obtain ⟨_, _, h4, h⟩ := Lower.runs_bind.mp h
    obtain ⟨rfl, he1⟩ := emits_mark h1
    obtain ⟨rfl, he3⟩ := emits_mark h3
    have hb := emits_block body (Lower.runs_modify_bind.mp h2)
    exact emits_do he1 (hb.trans (he3.trans (emits_expr test h4))) h rfl hb.size

theorem emits_arms {s : Section} {under : Bool} {line : Nat} {more : Bool} {l l' : Lowering}
    {exits : List Nat} : (as : List Arm) → Runs (Lower.arms s under line more as c) l exits l' →
    Emits s l l' (armsOpen c under line more as) ∧ exits = armsExits c under line more l.next as
  | [], h => by
    obtain ⟨rfl, rfl⟩ := Lower.runs_pure.mp h
    exact ⟨.refl s l', rfl⟩
  | ⟨test, body⟩ :: rest, h => by
    simp only [Lower.arms] at h
    obtain ⟨_, l₁, h1, h⟩ := Lower.runs_bind.mp h
    obtain ⟨jz, l₂, h2, h⟩ := Lower.runs_bind.mp h
    obtain ⟨_, l₃, h3, h⟩ := Lower.runs_bind.mp h
    obtain ⟨rfl, he2⟩ := emits_emit h2 rfl
    have hfront := he2.trans (emits_block body h3)
    have tail : ∀ (leave : List Piece) {first : List Nat} {l₄ : Lowering},
        Emits s l₁ l₄ (Piece.plain .jumpZ test.line [0] :: (blockCode c under body ++ leave)) →
        Runs ((do
          let exits ← pure first
          Lower.offset s l₁.next (← Lower.mark s line) 0
          return exits ++ (← Lower.arms s under line more rest) : Lower (List Nat)) c) l₄ exits l' →
        Emits s l l' (armCode line test.line (exprCode c test) (blockCode c under body) leave ++
          armsOpen c under line more rest) ∧
        exits = first ++ armsExits c under line more
          (l.next + (armCode line test.line (exprCode c test) (blockCode c under body) leave).length) rest := by
      intro leave first l₄ hleave h
      simp only [pure_bind] at h
      obtain ⟨m, _, h4, h⟩ := Lower.runs_bind.mp h
      obtain ⟨_, _, h5, h⟩ := Lower.runs_bind.mp h
      obtain ⟨others, _, h6, h⟩ := Lower.runs_bind.mp h
      obtain ⟨rfl, rfl⟩ := Lower.runs_pure.mp h
      have harm := emits_skip (emits_expr test h1) hleave rfl h4 h5 rfl
      obtain ⟨ha, rfl⟩ := emits_arms rest h6
      refine ⟨Emits.trans (by simpa [armCode] using harm) ha, ?_⟩
      rw [harm.size]
      simp [armCode]
    rw [armsOpen, armsExits]
    by_cases hl : (more || !rest.isEmpty) = true
    · rw [if_pos hl] at h
      obtain ⟨j, _, h4, h⟩ := Lower.runs_bind.mp h
      obtain ⟨rfl, he4⟩ := emits_emit h4 rfl
      obtain ⟨ha, hex⟩ := tail _ (by simpa using hfront.trans he4) h
      refine ⟨by simpa [leaveCode, hl, Piece.plain] using ha, ?_⟩
      rw [hex]
      simp only [leaveCode, hl, if_true, List.map_cons, List.map_nil]
      have hn : l₃.next = l.next + ((exprCode c test).length + 1 + (blockCode c under body).length) := by
        rw [hfront.size, (emits_expr test h1).size]
        simp
        omega
      have hlen : l.next + (armCode line test.line (exprCode c test) (blockCode c under body)
          [.plain .jump body.line [0]]).length =
          l.next + ((exprCode c test).length + 1 + (blockCode c under body).length) + 1 + 1 := by
        simp [armCode]
        omega
      rw [hn, hlen]
      rfl
    · rw [if_neg hl] at h
      obtain ⟨ha, hex⟩ := tail [] (by simpa using hfront) h
      refine ⟨by simpa [leaveCode, hl] using ha, ?_⟩
      rw [hex]
      have hlen : l.next + (armCode line test.line (exprCode c test) (blockCode c under body) []).length =
          l.next + ((exprCode c test).length + 1 + (blockCode c under body).length) + 1 := by
        simp [armCode]
        omega
      simp only [leaveCode, hl, if_false, Bool.false_eq_true, List.map_nil, hlen, List.length_nil,
        Nat.add_zero]

end

end Trees

end Weft.Bytecode
