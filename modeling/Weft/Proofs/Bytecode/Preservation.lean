import Weft.Proofs.Bytecode.Execution

/-!
# Compiled structured code means what its tree means

The code of a part of a body is found in the instructions of a module. Running it does what the part does, and
when the machine leaves the frame, every part that it entered has a meaning.
-/

namespace Weft.Bytecode

open Typed (Expr Chain Call Frame VarDecl Stmt Block Arm)

/-! ## Parts of a body -/

mutual

/-- Structured code has no parallel blocks. -/
theorem not_hasParallel : (s : Stmt) → structured s = true → hasParallel s = false
  | .block b, h => by
    rw [structured] at h
    rw [hasParallel]
    exact not_blockHasParallel b h
  | .expr _, _ | .discard .., _ | .var _, _ | .ret .., _ | .brk _, _ | .cont _, _ | .yield _, _ => by
    simp [hasParallel]

theorem not_blockHasParallel : (b : Block) → structuredBlock b = true → blockHasParallel b = false
  | .group _ kind ss, h => by
    simp only [structuredBlock, Bool.and_eq_true, decide_eq_true_eq] at h
    rw [blockHasParallel, h.1, not_someParallel ss h.2]
    rfl
  | .cond _ as none, h => by
    simp only [structuredBlock] at h
    rw [blockHasParallel, not_armsHaveParallel as h]
  | .cond _ as (some b), h => by
    simp only [structuredBlock, Bool.and_eq_true] at h
    rw [blockHasParallel, not_armsHaveParallel as h.1, not_blockHasParallel b h.2]
    rfl
  | .whileLoop _ _ b none, h => by
    simp only [structuredBlock, Bool.and_eq_true] at h
    rw [blockHasParallel, not_blockHasParallel b h.2]
  | .whileLoop _ _ b (some post), h => by
    simp only [structuredBlock, Bool.and_eq_true] at h
    rw [blockHasParallel, not_blockHasParallel b h.1.2, not_blockHasParallel post h.2]
    rfl
  | .doLoop _ b _, h => by
    simp only [structuredBlock, Bool.and_eq_true] at h
    rw [blockHasParallel, not_blockHasParallel b h.1]

theorem not_someParallel : (ss : List Stmt) → structuredAll ss = true → someParallel ss = false
  | [], _ => by rw [someParallel]
  | s :: ss, h => by
    rw [structuredAll, Bool.and_eq_true] at h
    rw [someParallel, not_hasParallel s h.1, not_someParallel ss h.2]
    rfl

theorem not_armsHaveParallel : (as : List Arm) → structuredArms as = true → armsHaveParallel as = false
  | [], _ => by rw [armsHaveParallel]
  | ⟨_, b⟩ :: as, h => by
    simp only [structuredArms, Bool.and_eq_true] at h
    rw [armsHaveParallel, not_blockHasParallel b h.1.2, not_armsHaveParallel as h.2]
    rfl

end

theorem not_isDefer {s : Stmt} (h : structured s = true) : isDefer s = false := by
  unfold isDefer
  split
  · simp [structured, structuredBlock] at h
  · rfl

/-- Structured sequences need no header. -/
theorem not_keepsHeader {ss : List Stmt} (h : structuredAll ss = true) : keepsHeader false .seq ss = false := by
  have hdefer : ss.any isDefer = false := by
    induction ss with
    | nil => rfl
    | cons s ss ih =>
      rw [structuredAll, Bool.and_eq_true] at h
      rw [List.any_cons, not_isDefer h.1, ih h.2]
      rfl
  simp [keepsHeader, not_someParallel ss h, hdefer]

/-- The code of a block that may be missing. -/
def otherCode (c : Store × Module) : Option Block → List Piece
  | none => []
  | some b => blockCode c false b

/-- The code of a part. The part of a loop after its body starts with the mark where the loop is continued. -/
def Part.code (c : Store × Module) : Part → List Piece
  | .stmt s => stmtCode c false s
  | .stmts ss => stmtsCode c false ss
  | .block b => blockCode c false b
  | .arms line as other =>
    armsCode c false line other.isSome (otherCode c other).length as ++ (otherCode c other ++ [Piece.mark line])
  | .post line b => Piece.mark line :: otherCode c b

/-- Whether a part is structured. -/
def Part.structured : Part → Bool
  | .stmt s => Bytecode.structured s
  | .stmts ss => structuredAll ss
  | .block b => structuredBlock b
  | .arms _ as other => structuredArms as && other.all structuredBlock
  | .post _ b => b.all structuredBlock

section Blocks

variable {c : Store × Module} {line : Nat}

theorem code_group {ss : List Stmt} (h : structuredAll ss = true) :
    (Part.block (.group line .seq ss)).code c = Piece.mark line :: ((Part.stmts ss).code c ++ [Piece.mark line]) := by
  simp only [Part.code, blockCode, not_keepsHeader h]
  rfl

theorem code_cond {as : List Arm} {other : Option Block} :
    (Part.block (.cond line as other)).code c = (Part.arms line as other).code c := by
  cases other with
  | none => simp [Part.code, blockCode, otherCode]
  | some b => simp [Part.code, blockCode, otherCode]

theorem code_while {test : Expr} {body : Block} {post : Option Block} :
    (Part.block (.whileLoop line test body post)).code c =
      whileCode line (exprCode c test) (blockCode c false body) (otherCode c post) := by
  cases post with
  | none => simp [Part.code, blockCode, otherCode]
  | some b => simp [Part.code, blockCode, otherCode]

theorem code_do {test : Expr} {body : Block} : (Part.block (.doLoop line body test)).code c =
    doCode line (blockCode c false body) (exprCode c test) := by
  simp only [Part.code, blockCode]

theorem code_arms_cons {test : Expr} {body : Block} {as : List Arm} {other : Option Block} :
    (Part.arms line (⟨test, body⟩ :: as) other).code c =
      armCode line test.line (exprCode c test) (blockCode c false body)
        (leaveCode (other.isSome || !as.isEmpty) body.line
          (some (.ahead ((armsCode c false line other.isSome (otherCode c other).length as).length +
            (otherCode c other).length + 2)))) ++ (Part.arms line as other).code c := by
  simp [Part.code, armsCode]

end Blocks

/-! ## Where the parts of blocks stand -/

section Layouts

variable {V : Type} {I : Interpretation V} {c : Store × Module} {cs : List Constant} {W : List Piece}
  {xs : List Instruction} {line k exit next : Nat} {test : Expr} {body : Block}

/-- A loop that tests before its body. The body stands at a start, the part after it where the loop is
continued, and the code goes on after the stop. -/
structure WhileAt (I : Interpretation V) (c : Store × Module) (cs : List Constant) (W : List Piece)
    (xs : List Instruction) (line k start again stop : Nat) (test : Expr) (body : Block)
    (post : Option Block) : Prop where
  tests : ∀ {m a m₁ σ}, Evaluates I test m a m₁ →
    Leads I cs xs k σ m (if I.truth a then start else stop) σ m₁
  runs : CodeAt W start stop again ((Part.block body).code c)
  continued : again = start + ((Part.block body).code c).length
  goes : CodeAt W again stop again ((Part.post line post).code c)
  back : ∀ {σ m}, Leaps I cs xs (again + ((Part.post line post).code c).length) σ m k σ m
  ends : ∀ {σ m}, Leads I cs xs stop σ m (stop + 1) σ m

theorem CodeAt.whileAt (hf : Final cs W xs) {post : Option Block}
    (h : CodeAt W k exit next ((Part.block (.whileLoop line test body post)).code c)) :
    ∃ start again stop, WhileAt I c cs W xs line k start again stop test body post ∧
      stop + 1 = k + ((Part.block (.whileLoop line test body post)).code c).length := by
  rw [code_while, whileCode] at h ⊢
  let t := (exprCode c test).length
  let b := (blockCode c false body).length
  let p := (otherCode c post).length
  have hjump : CodeAt W (k + 1 + t) exit next (_ :: _) := h.right (by simp [t]; omega)
  have htail : CodeAt W (k + t + 2) exit next _ := hjump.tail (by omega)
  have hloop : CodeAt W (k + t + 2) (k + t + b + p + 4) (k + t + 2 + b) _ := htail.loop (by omega) rfl
  have hback : CodeAt W (k + t + 2 + b + (p + 1)) _ _ (_ :: _) := hloop.right (by simp [b, p]; omega)
  have hlast : CodeAt W (k + t + b + p + 4) _ _ (_ :: _) := hback.tail (by omega)
  have hpost : ((Part.post line post).code c).length = p + 1 := by simp [Part.code, p]
  refine ⟨k + t + 2, k + t + 2 + b, k + t + b + p + 4,
    ⟨?_, hloop.left.left, rfl, hloop.left.right rfl, ?_, ?_⟩, ?_⟩
  · intro m a m₁ σ ha
    have htest := leads_expr (σ := σ) hf test (h.left.tail rfl) ha rfl
    have hz := leads_jumpZ (I := I) (m := m₁) (a := a) (σ := σ) hf hjump.head
      (j := k + t + b + p + 4) (by omega)
    have hk : k + t + 2 = k + 1 + t + 1 := by omega
    rw [hk]
    exact (leads_mark hf h.left.head).trans (htest.trans hz)
  · intro σ m
    rw [hpost]
    exact leaps_always hf hback.head (.inl rfl) (by omega)
  · intro σ m
    exact leads_mark hf hlast.head
  · simp [t, b, p, settleLoop]
    omega

/-- A loop that tests after its body. The test stands where the loop is continued. -/
structure DoAt (I : Interpretation V) (c : Store × Module) (cs : List Constant) (W : List Piece)
    (xs : List Instruction) (k start again stop : Nat) (test : Expr) (body : Block) : Prop where
  starts : ∀ {σ m}, Leads I cs xs k σ m start σ m
  runs : CodeAt W start stop again ((Part.block body).code c)
  continued : again = start + ((Part.block body).code c).length
  tests : ∀ {m a m₁ σ}, Evaluates I test m a m₁ → ∃ back,
    Leads I cs xs again σ m (if I.truth a then back else stop) σ m₁ ∧
    ∀ {τ m₂}, Leaps I cs xs back τ m₂ k τ m₂
  ends : ∀ {σ m}, Leads I cs xs stop σ m (stop + 1) σ m

theorem CodeAt.doAt (hf : Final cs W xs)
    (h : CodeAt W k exit next ((Part.block (.doLoop line body test)).code c)) :
    ∃ start again stop, DoAt I c cs W xs k start again stop test body ∧
      stop + 1 = k + ((Part.block (.doLoop line body test)).code c).length := by
  rw [code_do, doCode] at h ⊢
  let t := (exprCode c test).length
  let b := (blockCode c false body).length
  have htail : CodeAt W (k + 1) exit next _ := h.tail rfl
  have hloop : CodeAt W (k + 1) (k + b + t + 4) (k + 1 + b) _ := htail.loop (by omega) rfl
  have hnext : CodeAt W (k + 1 + b) _ _ (_ :: _) := hloop.left.right rfl
  have htest : CodeAt W (k + b + 2) _ _ _ := hnext.tail (by omega)
  have hjump : CodeAt W (k + b + 2 + t) _ _ (_ :: _) := hloop.right (by simp [b, t]; omega)
  have hback : CodeAt W (k + b + 2 + t + 1) _ _ (_ :: _) := hjump.tail rfl
  have hlast : CodeAt W (k + b + t + 4) _ _ (_ :: _) := hback.tail (by omega)
  refine ⟨k + 1, k + 1 + b, k + b + t + 4, ⟨leads_mark hf h.head, hloop.left.left, rfl, ?_, ?_⟩, ?_⟩
  · intro m a m₁ σ ha
    refine ⟨k + b + 2 + t + 1, ?_, ?_⟩
    · have hmark : Leads I cs xs (k + 1 + b) σ m (k + b + 2) σ m := by
        have hk : k + b + 2 = k + 1 + b + 1 := by omega
        rw [hk]
        exact leads_mark hf hnext.head
      have hz := leads_jumpZ (I := I) (m := m₁) (a := a) (σ := σ) hf hjump.head
        (j := k + b + t + 4) (by omega)
      exact hmark.trans ((leads_expr hf test htest ha rfl).trans hz)
    · intro τ m₂
      exact leaps_always hf hback.head (.inl rfl) (by omega)
  · intro σ m
    exact leads_mark hf hlast.head
  · simp [t, b, settleLoop]
    omega

/-- The first branch of a condition before the others. After its body control goes on past the whole
condition. -/
structure ArmAt (I : Interpretation V) (c : Store × Module) (cs : List Constant) (W : List Piece)
    (xs : List Instruction) (line k exit next start stop others : Nat) (test : Expr) (body : Block)
    (as : List Arm) (other : Option Block) : Prop where
  tests : ∀ {m a m₁ σ}, Evaluates I test m a m₁ →
    Leads I cs xs k σ m (if I.truth a then start else others) σ m₁
  runs : CodeAt W start exit next ((Part.block body).code c)
  leaves : ∀ {σ m}, Leads I cs xs (start + ((Part.block body).code c).length) σ m stop σ m
  rest : CodeAt W others exit next ((Part.arms line as other).code c)
  ends : others + ((Part.arms line as other).code c).length = stop

theorem CodeAt.armAt (hf : Final cs W xs) {as : List Arm} {other : Option Block}
    (h : CodeAt W k exit next ((Part.arms line (⟨test, body⟩ :: as) other).code c)) :
    ∃ start others, ArmAt I c cs W xs line k exit next start
      (k + ((Part.arms line (⟨test, body⟩ :: as) other).code c).length) others test body as other := by
  rw [code_arms_cons] at h ⊢
  let t := (exprCode c test).length
  let b := (blockCode c false body).length
  let w := (leaveCode (other.isSome || !as.isEmpty) body.line (some (.ahead
    ((armsCode c false line other.isSome (otherCode c other).length as).length +
      (otherCode c other).length + 2)))).length
  have harm := h.left
  rw [armCode] at harm
  have hjump : CodeAt W (k + t) exit next (_ :: _) := harm.right rfl
  have hbody : CodeAt W (k + t + 1) exit next _ := hjump.tail rfl
  have hleave : CodeAt W (k + t + 1 + b) exit next _ := hbody.left.right rfl
  have hmark : CodeAt W (k + t + 1 + b + w) exit next (_ :: _) := hbody.right (by simp [b, w]; omega)
  have hrest : CodeAt W (k + t + 1 + b + w + 1) exit next _ := h.right (by simp [armCode, t, b, w]; omega)
  have hlen : k + t + 1 + b + w + 1 + ((Part.arms line as other).code c).length =
      k + (armCode line test.line (exprCode c test) (blockCode c false body) (leaveCode
        (other.isSome || !as.isEmpty) body.line (some (.ahead
          ((armsCode c false line other.isSome (otherCode c other).length as).length +
            (otherCode c other).length + 2)))) ++ (Part.arms line as other).code c).length := by
    simp only [List.length_append, armCode, List.length_cons, List.length_nil, t, b, w]
    omega
  have hskip : ∀ {σ m}, Leads I cs xs (k + t + 1 + b + w) σ m (k + t + 1 + b + w + 1) σ m :=
    leads_mark hf hmark.head
  refine ⟨k + t + 1, k + t + 1 + b + w + 1, ⟨?_, hbody.left.left, ?_, hrest, hlen⟩⟩
  · intro m a m₁ σ ha
    have htest := leads_expr (σ := σ) hf test harm.left ha rfl
    have hz := leads_jumpZ (I := I) (m := m₁) (a := a) (σ := σ) hf hjump.head
      (j := k + t + 1 + b + w) (by omega)
    refine htest.trans (hz.trans ?_)
    cases I.truth a with
    | true => exact .refl
    | false => exact hskip
  · intro σ m
    rw [← hlen]
    -- the last mark of the whole condition
    have hend : ∀ {σ m}, Leads I cs xs (k + t + 1 + b + w +
        (armsCode c false line other.isSome (otherCode c other).length as).length +
        (otherCode c other).length + 1) σ m
        (k + t + 1 + b + w + 1 + ((Part.arms line as other).code c).length) σ m := by
      intro σ m
      rw [Part.code] at hrest
      have hlast : CodeAt W (k + t + 1 + b + w +
        (armsCode c false line other.isSome (otherCode c other).length as).length +
        (otherCode c other).length + 1) exit next (_ :: _) := (hrest.right rfl).right (by omega)
      have hk : k + t + 1 + b + w + 1 + ((Part.arms line as other).code c).length =
          k + t + 1 + b + w + (armsCode c false line other.isSome (otherCode c other).length as).length +
            (otherCode c other).length + 1 + 1 := by
        simp only [Part.code, List.length_append, List.length_cons, List.length_nil]
        omega
      rw [hk]
      exact leads_mark hf hlast.head
    by_cases hl : (other.isSome || !as.isEmpty) = true
    · have hw : w = 1 := by simp [w, leaveCode, hl]
      rw [leaveCode, if_pos hl] at hleave
      have hgo := leaps_always (I := I) (m := m) (σ := σ) hf hleave.head (.inl rfl)
        (j := k + t + 1 + b + w + (armsCode c false line other.isSome (otherCode c other).length as).length +
          (otherCode c other).length + 1) (by omega)
      exact hgo.leads.trans hend
    · have hw : w = 0 := by simp [w, leaveCode, hl]
      obtain ⟨rfl, rfl⟩ : other = none ∧ as = [] := by
        cases other with
        | some _ => simp at hl
        | none =>
          cases as with
          | nil => exact ⟨rfl, rfl⟩
          | cons _ _ => simp at hl
      rw [hw] at hskip hend ⊢
      exact hskip.trans hend

end Layouts

/-! ## What a part does, its code does -/

section Simulation

variable {V : Type} {I : Interpretation V} {c : Store × Module} {cs : List Constant} {W : List Piece}
  {xs : List Instruction} {part : Part} {k k₁ stop stop' exit exit' next next' : Nat} {σ σ₁ τ : List V}
  {m m₁ m' : Slots V} {o : Outcome V}

/-- Where the machine comes when a part ends: after the part, to an end of the loop around it, or out of the
frame. -/
def Reaches (I : Interpretation V) (cs : List Constant) (xs : List Instruction) (k : Nat) (σ : List V)
    (m : Slots V) (stop exit next : Nat) (o : Outcome V) (τ : List V) (m' : Slots V) : Prop :=
  match o with
  | .normal => Leads I cs xs k σ m stop τ m'
  | .brk => Leads I cs xs k σ m exit τ m'
  | .cont => Leaps I cs xs k σ m next τ m'
  | .ret vs => Stops I cs xs k σ m (vs, m')

theorem Leads.reaches (h : Leads I cs xs k σ m k₁ σ₁ m₁)
    (h' : Reaches I cs xs k₁ σ₁ m₁ stop exit next o τ m') : Reaches I cs xs k σ m stop exit next o τ m' := by
  cases o with
  | ret vs => exact h.stops h'
  | cont => exact h.leaps h'
  | _ => exact h.trans h'

theorem Reaches.goOn (h : Reaches I cs xs k σ m stop exit next o τ m')
    (h' : ∀ {τ m'}, Leads I cs xs stop τ m' stop' τ m') : Reaches I cs xs k σ m stop' exit next o τ m' := by
  cases o with
  | normal => exact h.trans h'
  | _ => exact h

/-- A part that does not end normally comes to where it goes, whatever code follows it. -/
theorem Reaches.away (h : Reaches I cs xs k σ m stop exit next o τ m') (ho : o ≠ .normal) :
    Reaches I cs xs k σ m stop' exit next o τ m' := by
  cases o with
  | normal => exact absurd rfl ho
  | _ => exact h

/-- A loop that its body ends. -/
theorem Reaches.past (h : Reaches I cs xs k σ m stop exit next o τ m') (ho : o.resumes = false)
    (h' : ∀ {τ m'}, Leads I cs xs exit τ m' stop' τ m') :
    Reaches I cs xs k σ m stop' exit' next' o.past τ m' := by
  cases o with
  | brk => exact h.trans h'
  | ret vs => exact h
  | _ => simp [Outcome.resumes] at ho

/-- A loop that goes on after its body. -/
theorem Reaches.resume (h : Reaches I cs xs k σ m next exit next o τ m') (ho : o.resumes = true) :
    Leads I cs xs k σ m next τ m' := by
  cases o with
  | normal => exact h
  | cont => exact h.leads
  | _ => simp [Outcome.resumes] at ho

/-- The code of a structured part stands at a place. The part after the body of a loop stands where the loop is
continued. -/
structure InCode (c : Store × Module) (W : List Piece) (k exit next : Nat) (part : Part) : Prop where
  code : CodeAt W k exit next (part.code c)
  structured : part.structured = true
  continued : ∀ l b, part = .post l b → next = k

theorem inCode_block {b : Block} (h : CodeAt W k exit next ((Part.block b).code c))
    (hs : structuredBlock b = true) : InCode c W k exit next (.block b) := ⟨h, hs, by simp⟩

private theorem yieldsAll_of_all {xs : List Expr} (h : xs.all (fun x => yields x = some 1) = true) :
    yieldsAll xs = some xs.length := by
  induction xs with
  | nil => simp [yieldsAll]
  | cons x xs ih =>
    simp only [List.all_cons, Bool.and_eq_true, decide_eq_true_eq] at h
    rw [yieldsAll, h.1, ih h.2]
    simp [Nat.add_comm]

/-- A return leaves the frame with its values. -/
private theorem stops_ret (hf : Final cs W xs) {line n : Nat} {values : List Expr} {vs : List V}
    (h : InCode c W k exit next (.stmt (.ret line n values))) (he : evalExprs I values m = some (vs, m')) :
    Stops I cs xs k σ m (vs, m') := by
  have hs := h.structured
  simp only [Part.structured, structured, Bool.and_eq_true, decide_eq_true_eq] at hs
  obtain ⟨rfl, hall⟩ := hs
  obtain ⟨ws, m₁, hws, hlen⟩ := evalExprs_total (I := I) values m (yieldsAll_of_all hall)
  obtain ⟨rfl, rfl⟩ : ws = vs ∧ m₁ = m' := by simpa [he, eq_comm] using hws
  have hcode := h.code
  simp only [Part.code, stmtCode] at hcode
  have hlast := (hcode.right rfl).head
  refine (leads_exprs hf values hcode.left he rfl).stops ?_
  by_cases hzero : values.length = 0
  · rw [if_pos hzero] at hlast
    obtain rfl : ws = [] := List.length_eq_zero_iff.mp (hlen.trans hzero)
    refine .step ?_
    rw [step_plain hf hlast (by decide)]
    rfl
  · rw [if_neg hzero] at hlast
    refine .step ?_
    rw [step_plain hf hlast (by decide)]
    have hfit : values.length ≤ (ws.reverse ++ σ).length := by
      simp only [List.length_append, List.length_reverse]
      omega
    have htake : (ws.reverse ++ σ).take values.length = ws.reverse := by
      rw [← hlen, ← List.length_reverse, List.take_left]
    simp only [Decoded.effect]
    rw [if_pos (by omega), Int.toNat_natCast, htake, List.reverse_reverse]

section Fitting

variable {line : Nat}

theorem InCode.cons {s : Stmt} {ss : List Stmt} (h : InCode c W k exit next (.stmts (s :: ss))) :
    InCode c W k exit next (.stmt s) ∧
      InCode c W (k + ((Part.stmt s).code c).length) exit next (.stmts ss) ∧
      k + ((Part.stmts (s :: ss)).code c).length =
        k + ((Part.stmt s).code c).length + ((Part.stmts ss).code c).length := by
  have hcode := h.code
  have hs := h.structured
  simp only [Part.code, stmtsCode] at hcode
  simp only [Part.structured, structuredAll, Bool.and_eq_true] at hs
  refine ⟨⟨hcode.left, hs.1, by simp⟩, ⟨hcode.right rfl, hs.2, by simp⟩, ?_⟩
  simp [Part.code, stmtsCode, Nat.add_assoc]

theorem InCode.group {kind : Typed.Grouping} {ss : List Stmt} (hf : Final cs W xs)
    (h : InCode c W k exit next (.block (.group line kind ss))) :
    InCode c W (k + 1) exit next (.stmts ss) ∧ (∀ {σ m}, Leads I cs xs k σ m (k + 1) σ m) ∧
      ∀ {σ m}, Leads I cs xs (k + 1 + ((Part.stmts ss).code c).length) σ m
        (k + ((Part.block (.group line kind ss)).code c).length) σ m := by
  have hs := h.structured
  simp only [Part.structured, structuredBlock, Bool.and_eq_true, decide_eq_true_eq] at hs
  obtain ⟨rfl, hs⟩ := hs
  have hcode := h.code
  rw [code_group hs] at hcode ⊢
  have htail := hcode.tail rfl
  refine ⟨⟨htail.left, hs, by simp⟩, leads_mark hf hcode.head, ?_⟩
  intro σ m
  have hk : k + (Piece.mark line :: ((Part.stmts ss).code c ++ [Piece.mark line])).length =
      k + 1 + ((Part.stmts ss).code c).length + 1 := by
    simp only [List.length_append, List.length_cons, List.length_nil]
    omega
  rw [hk]
  exact leads_mark hf (htail.right rfl).head

theorem InCode.cond {as : List Arm} {other : Option Block} (h : InCode c W k exit next (.block (.cond line as other))) :
    InCode c W k exit next (.arms line as other) := by
  refine ⟨code_cond ▸ h.code, ?_, by simp⟩
  have hs := h.structured
  cases other with
  | none => simpa [Part.structured, structuredBlock] using hs
  | some b => simpa [Part.structured, structuredBlock] using hs

theorem InCode.arms {test : Expr} {body : Block} {as : List Arm} {other : Option Block}
    (h : InCode c W k exit next (.arms line (⟨test, body⟩ :: as) other)) :
    yields test = some 1 ∧ structuredBlock body = true ∧ (Part.arms line as other).structured = true := by
  have hs := h.structured
  simp only [Part.structured, structuredArms, Bool.and_eq_true, decide_eq_true_eq] at hs ⊢
  exact ⟨hs.1.1.1, hs.1.1.2, hs.1.2, hs.2⟩

theorem InCode.otherwise {b : Block} (hf : Final cs W xs) (h : InCode c W k exit next (.arms line [] (some b))) :
    InCode c W k exit next (.block b) ∧ ∀ {σ m}, Leads I cs xs (k + ((Part.block b).code c).length) σ m
      (k + ((Part.arms line [] (some b)).code c).length) σ m := by
  have hcode := h.code
  have hs := h.structured
  simp only [Part.code, armsCode, otherCode, List.nil_append] at hcode ⊢
  refine ⟨inCode_block hcode.left (by simpa [Part.structured, structuredArms] using hs), ?_⟩
  intro σ m
  have hk : k + (blockCode c false b ++ [Piece.mark line]).length = k + (blockCode c false b).length + 1 := by
    simp only [List.length_append, List.length_cons, List.length_nil]
    omega
  rw [hk]
  exact leads_mark hf (hcode.right rfl).head

theorem InCode.whileLoop {test : Expr} {body : Block} {post : Option Block}
    (h : InCode c W k exit next (.block (.whileLoop line test body post))) :
    yields test = some 1 ∧ structuredBlock body = true ∧ (Part.post line post).structured = true := by
  have hs := h.structured
  cases post with
  | none =>
    simp only [Part.structured, structuredBlock, Bool.and_eq_true, decide_eq_true_eq] at hs
    exact ⟨hs.1, hs.2, rfl⟩
  | some b =>
    simp only [Part.structured, structuredBlock, Bool.and_eq_true, decide_eq_true_eq] at hs
    exact ⟨hs.1.1, hs.1.2, hs.2⟩

theorem InCode.doLoop {test : Expr} {body : Block} (h : InCode c W k exit next (.block (.doLoop line body test))) :
    structuredBlock body = true ∧ yields test = some 1 := by
  have hs := h.structured
  simpa only [Part.structured, structuredBlock, Bool.and_eq_true, decide_eq_true_eq] using hs

theorem InCode.post {b : Block} (hf : Final cs W xs) (h : InCode c W k exit next (.post line (some b))) :
    InCode c W (k + 1) exit k (.block b) ∧ (∀ {σ m}, Leads I cs xs k σ m (k + 1) σ m) ∧
      k + ((Part.post line (some b)).code c).length = k + 1 + ((Part.block b).code c).length := by
  have hcode := h.code
  obtain rfl := h.continued line (some b) rfl
  have hs := h.structured
  simp only [Part.code, otherCode] at hcode ⊢
  refine ⟨inCode_block (hcode.tail rfl) (by simpa [Part.structured] using hs), leads_mark hf hcode.head, ?_⟩
  rw [List.length_cons]
  omega

theorem WhileAt.fits_body {start again : Nat} {test : Expr} {body : Block} {post : Option Block}
    (hw : WhileAt I c cs W xs line k start again stop test body post) (hs : structuredBlock body = true) :
    InCode c W start stop again (.block body) := inCode_block hw.runs hs

theorem WhileAt.fits_post {start again : Nat} {test : Expr} {body : Block} {post : Option Block}
    (hw : WhileAt I c cs W xs line k start again stop test body post)
    (hs : (Part.post line post).structured = true) : InCode c W again stop again (.post line post) :=
  ⟨hw.goes, hs, fun _ _ _ => rfl⟩

end Fitting

/-- The part after the body of a loop is not continued: it starts again. -/
theorem Exec.post_normal {st : Store} {line : Nat} {b : Option Block} {m m' : Slots V} {o : Outcome V}
    (h : Exec I st (.post line b) m o m') (ho : o.resumes = true) : o = .normal := by
  generalize hp : Part.post line b = p at h
  induction h with
  | postNone => rfl
  | @postDone _ _ _ o _ _ hne _ =>
    cases o with
    | normal => rfl
    | cont => exact absurd rfl hne
    | _ => simp [Outcome.resumes] at ho
  | postAgain _ _ _ ih => exact ih ho hp
  | _ => simp at hp

/-- The machine does what a part does. Values that statements leave on the stack stay there. -/
theorem Exec.reaches (hf : Final cs W xs) (h : Exec I c.1 part m o m') : ∀ {k exit next : Nat},
    InCode c W k exit next part → ∃ left, ∀ σ,
      Reaches I cs xs k σ m (k + (part.code c).length) exit next o (left ++ σ) m' := by
  induction h with
  | @expr x m vs m' he =>
    intro k exit next hfit
    have hcode := hfit.code
    simp only [Part.code, stmtCode] at hcode ⊢
    exact ⟨vs.reverse, fun σ => leads_expr hf x hcode he rfl⟩
  | @declare l v m t ht =>
    intro k exit next hfit
    have hcode := hfit.code
    simp only [Part.code, stmtCode] at hcode ⊢
    obtain ⟨t', i, ht', hc, hleads⟩ := leads_const I hf hcode.head (by decide) rfl
    obtain rfl : t = t' := Option.some.inj (ht.symm.trans ht')
    exact ⟨[], fun σ => hleads (by simp [Decoded.effect, hc])⟩
  | @init l v x m a m' he =>
    intro k exit next hfit
    have hcode := hfit.code
    simp only [Part.code, stmtCode] at hcode ⊢
    have hset := (hcode.right rfl).head
    refine ⟨[], fun σ => (leads_expr hf x hcode.left he rfl).trans ?_⟩
    rw [List.length_append, ← Nat.add_assoc]
    exact leads_plain hf hset (by decide) rfl
  | ret he =>
    intro k exit next hfit
    exact ⟨[], fun σ => stops_ret hf hfit he⟩
  | brk =>
    intro k exit next hfit
    have hcode := hfit.code
    simp only [Part.code, stmtCode] at hcode
    exact ⟨[], fun σ => (leaps_always hf hcode.head (.inr (.inl rfl)) (by omega)).leads⟩
  | cont =>
    intro k exit next hfit
    have hcode := hfit.code
    simp only [Part.code, stmtCode] at hcode
    exact ⟨[], fun σ => leaps_always hf hcode.head (.inr (.inr rfl)) (by omega)⟩
  | @block b m o m' _ ih =>
    intro k exit next hfit
    have hblock : InCode c W k exit next (.block b) := by
      refine inCode_block ?_ ?_
      · simpa only [Part.code, stmtCode] using hfit.code
      · simpa only [Part.structured, structured] using hfit.structured
    obtain ⟨left, hreach⟩ := ih hblock
    simp only [Part.code, stmtCode] at hreach ⊢
    exact ⟨left, hreach⟩
  | nil =>
    intro k exit next hfit
    exact ⟨[], fun σ => by simpa [Part.code, stmtsCode, Reaches] using Leads.refl⟩
  | cons _ _ ih₁ ih₂ =>
    intro k exit next hfit
    obtain ⟨hs, hss, hlen⟩ := hfit.cons
    obtain ⟨left₁, h₁⟩ := ih₁ hs
    obtain ⟨left₂, h₂⟩ := ih₂ hss
    refine ⟨left₂ ++ left₁, fun σ => ?_⟩
    rw [hlen, List.append_assoc]
    exact Leads.reaches (h₁ σ) (h₂ _)
  | leave _ ho ih =>
    intro k exit next hfit
    obtain ⟨left, h⟩ := ih hfit.cons.1
    exact ⟨left, fun σ => (h σ).away ho⟩
  | group _ ih =>
    intro k exit next hfit
    obtain ⟨hss, hfirst, hlast⟩ := hfit.group (I := I) hf
    obtain ⟨left, h⟩ := ih hss
    exact ⟨left, fun σ => (hfirst.reaches (h σ)).goOn hlast⟩
  | cond _ ih =>
    intro k exit next hfit
    rw [code_cond]
    exact ih hfit.cond
  | skip =>
    intro k exit next hfit
    have hcode := hfit.code
    simp only [Part.code, armsCode, otherCode, List.nil_append] at hcode ⊢
    exact ⟨[], fun σ => leads_mark hf hcode.head⟩
  | other _ ih =>
    intro k exit next hfit
    obtain ⟨hb, hlast⟩ := hfit.otherwise (I := I) hf
    obtain ⟨left, h⟩ := ih hb
    exact ⟨left, fun σ => (h σ).goOn hlast⟩
  | taken he ha _ ih =>
    intro k exit next hfit
    obtain ⟨start, others, harm⟩ := hfit.code.armAt (I := I) hf
    obtain ⟨left, h⟩ := ih (inCode_block harm.runs hfit.arms.2.1)
    refine ⟨left, fun σ => ?_⟩
    have htest := harm.tests (σ := σ) he
    rw [if_pos ha] at htest
    exact htest.reaches ((h σ).goOn harm.leaves)
  | passed he ha _ ih =>
    intro k exit next hfit
    obtain ⟨start, others, harm⟩ := hfit.code.armAt (I := I) hf
    obtain ⟨left, h⟩ := ih ⟨harm.rest, hfit.arms.2.2, by simp⟩
    refine ⟨left, fun σ => ?_⟩
    have htest := harm.tests (σ := σ) he
    rw [if_neg (by simp [ha])] at htest
    rw [← harm.ends]
    exact htest.reaches (h σ)
  | whileStop he ha =>
    intro k exit next hfit
    obtain ⟨start, again, stop, hw, hlen⟩ := hfit.code.whileAt (I := I) hf
    refine ⟨[], fun σ => ?_⟩
    have htest := hw.tests (σ := σ) he
    rw [if_neg (by simp [ha])] at htest
    rw [← hlen]
    exact htest.trans hw.ends
  | whileLeave he ha _ ho ih =>
    intro k exit next hfit
    obtain ⟨start, again, stop, hw, hlen⟩ := hfit.code.whileAt (I := I) hf
    obtain ⟨left, h⟩ := ih (hw.fits_body hfit.whileLoop.2.1)
    refine ⟨left, fun σ => ?_⟩
    have htest := hw.tests (σ := σ) he
    rw [if_pos ha] at htest
    rw [← hlen]
    exact htest.reaches ((h σ).past ho hw.ends)
  | whilePost he ha _ ho _ ho' ih₁ ih₂ =>
    intro k exit next hfit
    obtain ⟨start, again, stop, hw, hlen⟩ := hfit.code.whileAt (I := I) hf
    obtain ⟨left₁, h₁⟩ := ih₁ (hw.fits_body hfit.whileLoop.2.1)
    obtain ⟨left₂, h₂⟩ := ih₂ (hw.fits_post hfit.whileLoop.2.2)
    refine ⟨left₂ ++ left₁, fun σ => ?_⟩
    have htest := hw.tests (σ := σ) he
    have hbody := h₁ σ
    rw [if_pos ha] at htest
    rw [← hw.continued] at hbody
    rw [← hlen, List.append_assoc]
    exact (htest.trans (hbody.resume ho)).reaches ((h₂ _).past ho' hw.ends)
  | whileAgain he ha _ ho _ _ ih₁ ih₂ ih₃ =>
    intro k exit next hfit
    obtain ⟨start, again, stop, hw, hlen⟩ := hfit.code.whileAt (I := I) hf
    obtain ⟨left₁, h₁⟩ := ih₁ (hw.fits_body hfit.whileLoop.2.1)
    obtain ⟨left₂, h₂⟩ := ih₂ (hw.fits_post hfit.whileLoop.2.2)
    obtain ⟨left₃, h₃⟩ := ih₃ hfit
    refine ⟨left₃ ++ (left₂ ++ left₁), fun σ => ?_⟩
    have htest := hw.tests (σ := σ) he
    have hbody := h₁ σ
    rw [if_pos ha] at htest
    rw [← hw.continued] at hbody
    rw [List.append_assoc, List.append_assoc]
    exact ((htest.trans (hbody.resume ho)).trans ((h₂ _).trans hw.back.leads)).reaches (h₃ _)
  | doLeave _ ho ih =>
    intro k exit next hfit
    obtain ⟨start, again, stop, hd, hlen⟩ := hfit.code.doAt (I := I) hf
    obtain ⟨left, h⟩ := ih (inCode_block hd.runs hfit.doLoop.1)
    refine ⟨left, fun σ => ?_⟩
    rw [← hlen]
    exact hd.starts.reaches ((h σ).past ho hd.ends)
  | doStop _ ho he ha ih =>
    intro k exit next hfit
    obtain ⟨start, again, stop, hd, hlen⟩ := hfit.code.doAt (I := I) hf
    obtain ⟨left, h⟩ := ih (inCode_block hd.runs hfit.doLoop.1)
    refine ⟨left, fun σ => ?_⟩
    have hbody := h σ
    rw [← hd.continued] at hbody
    obtain ⟨back, htest, -⟩ := hd.tests (σ := left ++ σ) he
    rw [if_neg (by simp [ha])] at htest
    rw [← hlen]
    exact (hd.starts.trans (hbody.resume ho)).trans (htest.trans hd.ends)
  | doAgain _ ho he ha _ ih₁ ih₂ =>
    intro k exit next hfit
    obtain ⟨start, again, stop, hd, hlen⟩ := hfit.code.doAt (I := I) hf
    obtain ⟨left₁, h₁⟩ := ih₁ (inCode_block hd.runs hfit.doLoop.1)
    obtain ⟨left₂, h₂⟩ := ih₂ hfit
    refine ⟨left₂ ++ left₁, fun σ => ?_⟩
    have hbody := h₁ σ
    rw [← hd.continued] at hbody
    obtain ⟨back, htest, hback⟩ := hd.tests (σ := left₁ ++ σ) he
    rw [if_pos ha] at htest
    rw [List.append_assoc]
    exact ((hd.starts.trans (hbody.resume ho)).trans (htest.trans hback.leads)).reaches (h₂ _)
  | postNone =>
    intro k exit next hfit
    have hcode := hfit.code
    simp only [Part.code] at hcode ⊢
    exact ⟨[], fun σ => leads_mark hf hcode.head⟩
  | postDone _ ho ih =>
    intro k exit next hfit
    obtain ⟨hb, hfirst, hlen⟩ := hfit.post (I := I) hf
    obtain rfl := hfit.continued _ _ rfl
    obtain ⟨left, h⟩ := ih hb
    refine ⟨left, fun σ => ?_⟩
    rw [hlen]
    exact hfirst.reaches (h σ)
  | postAgain _ _ ih₁ ih₂ =>
    intro k exit next hfit
    obtain ⟨hb, hfirst, hlen⟩ := hfit.post (I := I) hf
    obtain ⟨left₁, h₁⟩ := ih₁ hb
    obtain ⟨left₂, h₂⟩ := ih₂ hfit
    refine ⟨left₂ ++ left₁, fun σ => ?_⟩
    rw [List.append_assoc]
    exact (hfirst.trans (h₁ σ).leads).reaches (h₂ _)

/-- When the machine leaves the frame, the part it stands at has a meaning. The number of steps bounds the
rounds of loops. -/
theorem exec_of_ends (hf : Final cs W xs) {r : List V × Slots V} (n : Nat) : (part : Part) →
    ∀ {k exit next : Nat} {σ : List V} {m : Slots V}, InCode c W k exit next part → Ends I cs xs n k σ m r →
      ∃ o m', Exec I c.1 part m o m'
  | .stmt (.expr x), k, exit, next, σ, m, hfit, he => by
    have hs := hfit.structured
    simp only [Part.structured, structured] at hs
    obtain ⟨i, hi⟩ := Option.isSome_iff_exists.mp hs
    obtain ⟨vs, m', hv, -⟩ := evalExpr_total (I := I) x m hi
    exact ⟨_, _, .expr hv⟩
  | .stmt (.var ⟨l, v, none⟩), k, exit, next, σ, m, hfit, he => by
    have hcode := hfit.code
    simp only [Part.code, stmtCode] at hcode
    obtain ⟨t, i, ht, -⟩ := leads_const I hf hcode.head (by decide) rfl
    exact ⟨_, _, .declare ht⟩
  | .stmt (.var ⟨l, v, some x⟩), k, exit, next, σ, m, hfit, he => by
    have hs := hfit.structured
    simp only [Part.structured, structured, decide_eq_true_eq] at hs
    obtain ⟨a, m', ha⟩ := evalExpr_single (I := I) x m hs
    exact ⟨_, _, .init ha⟩
  | .stmt (.ret l i values), k, exit, next, σ, m, hfit, he => by
    have hs := hfit.structured
    simp only [Part.structured, structured, Bool.and_eq_true, decide_eq_true_eq] at hs
    obtain ⟨vs, m', hv, -⟩ := evalExprs_total (I := I) values m (yieldsAll_of_all hs.2)
    exact ⟨_, _, .ret hv⟩
  | .stmt (.brk l), k, exit, next, σ, m, hfit, he => ⟨_, _, .brk⟩
  | .stmt (.cont l), k, exit, next, σ, m, hfit, he => ⟨_, _, .cont⟩
  | .stmt (.block b), k, exit, next, σ, m, hfit, he => by
    have hblock : InCode c W k exit next (.block b) := by
      refine inCode_block ?_ ?_
      · simpa only [Part.code, stmtCode] using hfit.code
      · simpa only [Part.structured, structured] using hfit.structured
    obtain ⟨o, m', h⟩ := exec_of_ends hf n (.block b) hblock he
    exact ⟨o, m', .block h⟩
  | .stmts [], k, exit, next, σ, m, hfit, he => ⟨_, _, .nil⟩
  | .stmts (s :: ss), k, exit, next, σ, m, hfit, he => by
    obtain ⟨hs, hss, -⟩ := hfit.cons
    obtain ⟨o, m₁, h₁⟩ := exec_of_ends hf n (.stmt s) hs he
    by_cases ho : o = .normal
    · subst ho
      obtain ⟨left, hreach⟩ := h₁.reaches hf hs
      obtain ⟨n', hn, he'⟩ := Leads.ends (hreach σ) he
      obtain ⟨o, m₂, h₂⟩ := exec_of_ends hf n' (.stmts ss) hss he'
      exact ⟨o, m₂, .cons h₁ h₂⟩
    · exact ⟨o, m₁, .leave h₁ ho⟩
  | .block (.group l kind ss), k, exit, next, σ, m, hfit, he => by
    obtain ⟨hss, hfirst, -⟩ := hfit.group (I := I) hf
    obtain ⟨n', hn, he'⟩ := hfirst.ends he
    obtain ⟨o, m', h⟩ := exec_of_ends hf n' (.stmts ss) hss he'
    exact ⟨o, m', .group h⟩
  | .block (.cond l as other), k, exit, next, σ, m, hfit, he => by
    obtain ⟨o, m', h⟩ := exec_of_ends hf n (.arms l as other) hfit.cond he
    exact ⟨o, m', .cond h⟩
  | .arms l [] none, k, exit, next, σ, m, hfit, he => ⟨_, _, .skip⟩
  | .arms l [] (some b), k, exit, next, σ, m, hfit, he => by
    obtain ⟨o, m', h⟩ := exec_of_ends hf n (.block b) (hfit.otherwise (I := I) hf).1 he
    exact ⟨o, m', .other h⟩
  | .arms l (⟨test, body⟩ :: as) other, k, exit, next, σ, m, hfit, he => by
    obtain ⟨htest, hbody, hrest⟩ := hfit.arms
    obtain ⟨start, others, harm⟩ := hfit.code.armAt (I := I) hf
    obtain ⟨a, m₁, hv⟩ := evalExpr_single (I := I) test m htest
    obtain ⟨n', hn, he'⟩ := (harm.tests hv).ends he
    cases ha : I.truth a with
    | true =>
      rw [if_pos ha] at he'
      obtain ⟨o, m', h⟩ := exec_of_ends hf n' (.block body) (inCode_block harm.runs hbody) he'
      exact ⟨o, m', .taken hv ha h⟩
    | false =>
      rw [if_neg (by simp [ha])] at he'
      obtain ⟨o, m', h⟩ := exec_of_ends hf n' (.arms l as other) ⟨harm.rest, hrest, by simp⟩ he'
      exact ⟨o, m', .passed hv ha h⟩
  | .block (.whileLoop l test body post), k, exit, next, σ, m, hfit, he => by
    obtain ⟨htest, hbody, hpost⟩ := hfit.whileLoop
    obtain ⟨start, again, stop, hw, -⟩ := hfit.code.whileAt (I := I) hf
    obtain ⟨a, m₁, hv⟩ := evalExpr_single (I := I) test m htest
    obtain ⟨n₁, hn₁, he₁⟩ := (hw.tests hv).ends he
    cases ha : I.truth a with
    | false => exact ⟨_, _, .whileStop hv ha⟩
    | true =>
      rw [if_pos ha] at he₁
      obtain ⟨o, m₂, h₁⟩ := exec_of_ends hf n₁ (.block body) (hw.fits_body hbody) he₁
      cases ho : o.resumes with
      | false => exact ⟨_, _, .whileLeave hv ha h₁ ho⟩
      | true =>
        obtain ⟨left, hreach⟩ := h₁.reaches hf (hw.fits_body hbody)
        rw [← hw.continued] at hreach
        obtain ⟨n₂, hn₂, he₂⟩ := ((hreach _).resume ho).ends he₁
        obtain ⟨o', m₃, h₂⟩ := exec_of_ends hf n₂ (.post l post) (hw.fits_post hpost) he₂
        cases ho' : o'.resumes with
        | false => exact ⟨_, _, .whilePost hv ha h₁ ho h₂ ho'⟩
        | true =>
          obtain rfl : o' = .normal := h₂.post_normal ho'
          obtain ⟨left', hreach'⟩ := h₂.reaches hf (hw.fits_post hpost)
          obtain ⟨n₃, hn₃, he₃⟩ := Leads.ends (hreach' _) he₂
          obtain ⟨n₄, hn₄, he₄⟩ := hw.back.ends he₃
          obtain ⟨o'', m₄, h₃⟩ := exec_of_ends hf n₄ (.block (.whileLoop l test body post)) hfit he₄
          exact ⟨o'', m₄, .whileAgain hv ha h₁ ho h₂ h₃⟩
  | .block (.doLoop l body test), k, exit, next, σ, m, hfit, he => by
    obtain ⟨hbody, htest⟩ := hfit.doLoop
    obtain ⟨start, again, stop, hd, -⟩ := hfit.code.doAt (I := I) hf
    obtain ⟨n₁, hn₁, he₁⟩ := hd.starts.ends he
    obtain ⟨o, m₁, h₁⟩ := exec_of_ends hf n₁ (.block body) (inCode_block hd.runs hbody) he₁
    cases ho : o.resumes with
    | false => exact ⟨_, _, .doLeave h₁ ho⟩
    | true =>
      obtain ⟨left, hreach⟩ := h₁.reaches hf (inCode_block hd.runs hbody)
      rw [← hd.continued] at hreach
      obtain ⟨n₂, hn₂, he₂⟩ := ((hreach _).resume ho).ends he₁
      obtain ⟨a, m₂, hv⟩ := evalExpr_single (I := I) test m₁ htest
      obtain ⟨back, hgo, hback⟩ := hd.tests (σ := left ++ σ) hv
      obtain ⟨n₃, hn₃, he₃⟩ := hgo.ends he₂
      cases ha : I.truth a with
      | false => exact ⟨_, _, .doStop h₁ ho hv ha⟩
      | true =>
        rw [if_pos ha] at he₃
        obtain ⟨n₄, hn₄, he₄⟩ := hback.ends he₃
        obtain ⟨o', m₃, h₂⟩ := exec_of_ends hf n₄ (.block (.doLoop l body test)) hfit he₄
        exact ⟨o', m₃, .doAgain h₁ ho hv ha h₂⟩
  | .post l none, k, exit, next, σ, m, hfit, he => ⟨_, _, .postNone⟩
  | .post l (some b), k, exit, next, σ, m, hfit, he => by
    obtain ⟨hb, hfirst, -⟩ := hfit.post (I := I) hf
    obtain ⟨n₁, hn₁, he₁⟩ := hfirst.ends he
    obtain ⟨o, m₁, h₁⟩ := exec_of_ends hf n₁ (.block b) hb he₁
    by_cases ho : o = .cont
    · subst ho
      obtain ⟨left, hreach⟩ := h₁.reaches hf hb
      obtain ⟨n₂, hn₂, he₂⟩ := Leaps.ends (hreach σ) he₁
      obtain ⟨o, m₂, h₂⟩ := exec_of_ends hf n₂ (.post l (some b)) hfit he₂
      exact ⟨o, m₂, .postAgain h₁ h₂⟩
    · exact ⟨o, m₁, .postDone h₁ ho⟩
termination_by part => (n, sizeOf part)
decreasing_by
  all_goals first
    | exact Prod.Lex.left _ _ (by omega)
    | exact Prod.Lex.right' _ (by omega) (by simp <;> omega)

end Simulation

end Weft.Bytecode
