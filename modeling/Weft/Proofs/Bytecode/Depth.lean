import Weft.Proofs.Bytecode.Finish

/-!
# Depths of the operand stack

Every instruction moves the depth of the operand stack by what it takes and gives. Code flows from one
depth to another if its instructions can be given depths that agree along all edges between them, whatever
stands around the code.
-/

namespace Weft.Bytecode

/-! ## Effects of instructions -/

/-- The number of arguments in the low bits of the operand of a call. -/
def argumentCount (v : Int) : Nat := (v % 64).toNat

namespace Opcode

/-- How many values an instruction takes from the stack. The operand that counts is the last one. What an
instruction changes in place, it takes and gives back. -/
def takes (v : Int) : Opcode → Nat
  | pop | setVar | argVar | argRef | setGlobal | setImported | getField | not | neg | typeCast | typeAs
  | typeIs | useUpval => 1
  | add | sub | mul | div | mod | lt | le | gt | ge | eq | ne | setField | initField | arrayGet | mapGet
  | arrayAdd => 2
  | arraySet | mapSet | mapAdd => 3
  | call | callNative => argumentCount v
  | callMethod | callMember | callVirtual | callInterface | callPtr => argumentCount v + 1
  | _ => 0

/-- How many values an instruction puts on the stack. A call puts there those of its callee. -/
def gives (callee : Nat) : Opcode → Nat
  | constant | add | sub | mul | div | mod | lt | le | gt | ge | eq | ne | not | neg | getVar | refVar
  | getGlobal | getImported | getField | initField | arrayGet | mapGet | arrayAdd | mapAdd | new | typeCast
  | typeAs | typeIs | getFunc | getFuncNative | useUpval => 1
  | call | callNative | callMethod | callMember | callVirtual | callInterface | callPtr => callee
  | _ => 0

/-- How an instruction moves the depth: from the depth before it to that of the instruction after it and
that of the instruction to which it leads. A frame is left with exactly the returned values. A default is
computed in place of the argument that was not passed. The body of a lambda is a frame of its own. -/
def Moves (v : Int) (count before next goal : Nat) : Opcode → Prop
  | ret => before = 0
  | returnVal => (before : Int) = v
  | jump | brk | cont => goal = before
  | jumpZ => before = next + 1 ∧ goal = next
  | jumpPeekZ | jumpPeekNZ | defArg => before = next + 1 ∧ goal = before
  | lambda => next = count ∧ goal = before + 1
  | op => op.takes v ≤ before ∧ next = before - op.takes v + op.gives count

/-- Whether the effect of an instruction depends on a count that is not in the code: the values of a callee
or the parameters of a lambda. -/
def isOpen (op : Opcode) : Bool := op.isCall || op = lambda

end Opcode

namespace Piece

/-- The operand that decides how many values an instruction takes. -/
def argument (q : Piece) : Int := q.operands.getLast?.getD 0

/-- How far away an instruction leads. -/
def distance (q : Piece) : Int :=
  match q.goal with
  | some (.ahead d) => d
  | _ => 0

/-- How an instruction moves the depth after the calls of some functions are made direct. -/
structure Moves (direct : FuncId → Prop) (q : Piece) (count before next goal : Nat) : Prop where
  same : ¬q.Calls direct → q.op.Moves q.argument count before next goal
  got : q.Calls direct → q.op = .getFunc → next = before
  called : q.Calls direct → q.op = .callPtr → Opcode.call.Moves q.argument count before next goal

/-- Whether the depths and counts of places agree with an instruction at a place. A jump that waits for an
end of the loop is made at the depth of the loop. Only instructions with an offset lead somewhere. -/
structure Fits (direct : FuncId → Prop) (loop : Nat) (f : Int → Nat × Nat) (k : Int) (q : Piece) : Prop where
  leads : q.goal ≠ none → q.op.offsetOperand? ≠ none
  waits : q.Waits → (q.op = .brk ∨ q.op = .cont) ∧ (f k).1 = loop
  moves : ¬q.Waits → q.Moves direct (f k).2 (f k).1 (f (k + 1)).1 (f (k + q.distance)).1

end Piece

/-! ## Code at a place -/

section Places

variable {direct : FuncId → Prop} {loop : Nat} {f : Int → Nat × Nat} {o : Int} {a b code : List Piece}
  {q : Piece}

/-- Whether the depths and counts of places agree with code that starts at a place. -/
def Fits (direct : FuncId → Prop) (loop : Nat) (f : Int → Nat × Nat) (o : Int) (code : List Piece) : Prop :=
  ∀ (i : Nat) q, code[i]? = some q → q.Fits direct loop f (o + i)

theorem fits_append : Fits direct loop f o (a ++ b) ↔
    Fits direct loop f o a ∧ Fits direct loop f (o + a.length) b := by
  constructor
  · intro h
    refine ⟨fun i q hq => h i q (getElem?_append_cases.mpr (.inl hq)), fun i q hq => ?_⟩
    have := h (a.length + i) q (getElem?_append_cases.mpr (.inr ⟨i, rfl, hq⟩))
    rwa [Int.natCast_add, ← Int.add_assoc] at this
  · rintro ⟨ha, hb⟩ i q hq
    rcases getElem?_append_cases.mp hq with hl | ⟨j, rfl, hr⟩
    · exact ha i q hl
    · rw [Int.natCast_add, ← Int.add_assoc]
      exact hb j q hr

theorem fits_one : Fits direct loop f o [q] ↔ q.Fits direct loop f o := by
  constructor
  · intro h
    simpa using h 0 q rfl
  · intro h i r hr
    obtain ⟨rfl, rfl⟩ : i = 0 ∧ q = r := by
      cases i with
      | zero => exact ⟨rfl, by simpa using hr⟩
      | succ i => simp at hr
    simpa using h

theorem fits_cons : Fits direct loop f o (q :: b) ↔ q.Fits direct loop f o ∧ Fits direct loop f (o + 1) b := by
  rw [← List.singleton_append, fits_append, fits_one]
  rfl

/-- The ends of a loop are at the depth of the loop. -/
theorem Fits.settle {outer e k : Nat} (h : Fits direct loop f o code) (he : (f (o + e)).1 = loop)
    (hk : (f (o + k)).1 = loop) : Fits direct outer f o (settleLoop e k code) := by
  intro i q hq
  obtain ⟨r, hr, rfl⟩ := getElem?_settleLoop.mp hq
  have hfit := h i r hr
  have hleads : (r.settle e k i).goal ≠ none → (r.settle e k i).op.offsetOperand? ≠ none := by
    have hop : (r.settle e k i).op = r.op := by
      unfold Piece.settle
      split <;> rfl
    intro hg
    rw [hop]
    refine hfit.leads fun hr => hg ?_
    rw [settle_of_not_waits (by simp [Piece.Waits, hr]), hr]
  refine ⟨hleads, fun hw => absurd hw not_waits_settle, fun _ => ?_⟩
  -- a jump that waits leads to one of the ends
  have jump : ∀ {m : Nat} {q : Piece}, q.op = r.op → q.goal = some (.ahead ((m : Int) - i)) →
      (f (o + m)).1 = loop → r.Waits → q.Moves direct (f (o + i)).2 (f (o + i)).1 (f (o + i + 1)).1
        (f (o + i + q.distance)).1 := by
    intro m q hop hg hm hw
    obtain ⟨hbrk, hloop⟩ := hfit.waits hw
    have hgoal : o + i + q.distance = o + m := by
      simp only [Piece.distance, hg]
      omega
    rw [hgoal, hm, hloop]
    rcases hbrk with hbrk | hbrk
    · constructor <;> simp [hop, hbrk, Opcode.Moves]
    · constructor <;> simp [hop, hbrk, Opcode.Moves]
  by_cases hw : r.Waits
  · rcases hw with hg | hg
    · exact jump (by rw [goal_settle_exit hg]) (by rw [goal_settle_exit hg]) he (.inl hg)
    · exact jump (by rw [goal_settle_next hg]) (by rw [goal_settle_next hg]) hk (.inr hg)
  · rw [settle_of_not_waits hw]
    exact hfit.moves hw

/-- Outside of loops, a jump that waits leads to itself. -/
theorem Fits.alone {outer : Nat} (h : Fits direct loop f o code) :
    Fits direct outer f o (code.map Piece.alone) := by
  intro i q hq
  rw [List.getElem?_map, Option.map_eq_some_iff] at hq
  obtain ⟨r, hr, rfl⟩ := hq
  have hfit := h i r hr
  by_cases hw : r.Waits
  · obtain ⟨hbrk, -⟩ := hfit.waits hw
    have hself : r.alone = { r with goal := some (.ahead 0) } := by
      rcases hw with hg | hg
      · simp [Piece.alone, hg]
      · simp [Piece.alone, hg]
    rw [hself]
    refine ⟨fun _ => ?_, by simp [Piece.Waits], fun _ => ?_⟩
    · exact hfit.leads (by rcases hw with hg | hg <;> simp [hg])
    simp only [Piece.distance, Int.add_zero]
    rcases hbrk with hbrk | hbrk
    · constructor <;> simp [hbrk, Opcode.Moves]
    · constructor <;> simp [hbrk, Opcode.Moves]
  · rw [alone_of_not_waits hw]
    exact ⟨hfit.leads, fun hw' => absurd hw' hw, hfit.moves⟩

end Places

/-! ## Flows -/

/-- Whether the depths and counts of places from one on are those of a list, with a depth after them. -/
def Along (f : Int → Nat × Nat) (o : Int) (ds : List (Nat × Nat)) (last : Nat) : Prop :=
  (∀ (i : Nat) d, ds[i]? = some d → f (o + i) = d) ∧ (f (o + ds.length)).1 = last

/-- The first of some depths, or the one after them. -/
def firstDepth (ds : List (Nat × Nat)) (last : Nat) : Nat := (ds.head?.map Prod.fst).getD last

/-- The counts of instructions whose effect depends on one. -/
def openCounts (ops : List Opcode) (ds : List (Nat × Nat)) : List Nat :=
  ((ops.zip ds).filter fun e => e.1.isOpen).map fun e => e.2.2

/-- Depths and counts of code that flows from one depth to another, with the counts of its calls and lambdas.
Nothing else about the places around the code matters. -/
structure Depths (direct : FuncId → Prop) (loop : Nat) (code : List Piece) (counts : List Nat) (a b : Nat)
    (ds : List (Nat × Nat)) : Prop where
  length : ds.length = code.length
  counts : openCounts (code.map Piece.op) ds = counts
  first : firstDepth ds b = a
  fits : ∀ f o, Along f o ds b → Fits direct loop f o code

/-- Whether code flows from one depth to another. -/
def Flow (direct : FuncId → Prop) (loop : Nat) (code : List Piece) (counts : List Nat) (a b : Nat) : Prop :=
  ∃ ds, Depths direct loop code counts a b ds

section Along

variable {f : Int → Nat × Nat} {o : Int} {ds es : List (Nat × Nat)} {d : Nat × Nat} {m n : Nat}

theorem along_nil : Along f o [] n ↔ (f o).1 = n := by simp [Along]

theorem along_cons : Along f o (d :: ds) n ↔ f o = d ∧ Along f (o + 1) ds n := by
  have hlen : o + 1 + (ds.length : Int) = o + (d :: ds).length := by
    simp only [List.length_cons]
    omega
  constructor
  · rintro ⟨hall, hlast⟩
    refine ⟨by simpa using hall 0 d rfl, ?_, by rwa [hlen]⟩
    intro i e he
    have := hall (i + 1) e (by simpa using he)
    rwa [Int.natCast_add, show o + ((i : Int) + (1 : Nat)) = o + 1 + i by omega] at this
  · rintro ⟨hd, hall, hlast⟩
    refine ⟨?_, by rwa [hlen] at hlast⟩
    intro i e he
    cases i with
    | zero =>
      obtain rfl : d = e := by simpa using he
      simpa using hd
    | succ i =>
      have := hall i e (by simpa using he)
      rwa [Int.natCast_add, show o + ((i : Int) + (1 : Nat)) = o + 1 + i by omega]

/-- The first depth of a list is that of the place where it starts. -/
theorem Along.first (h : Along f o ds n) : (f o).1 = firstDepth ds n := by
  cases ds with
  | nil => exact along_nil.mp h
  | cons d ds =>
    rw [(along_cons.mp h).1]
    rfl

theorem along_append (hm : firstDepth es n = m) :
    Along f o (ds ++ es) n ↔ Along f o ds m ∧ Along f (o + ds.length) es n := by
  induction ds generalizing o with
  | nil =>
    simp only [List.nil_append, along_nil, List.length_nil, Int.natCast_zero, Int.add_zero]
    exact ⟨fun h => ⟨h.first.trans hm, h⟩, fun h => h.2⟩
  | cons d ds ih =>
    rw [List.cons_append, along_cons, along_cons, ih, and_assoc]
    have : o + 1 + (ds.length : Int) = o + (d :: ds).length := by
      simp only [List.length_cons]
      omega
    rw [this]

end Along

theorem openCounts_append {ops ops' : List Opcode} {ds es : List (Nat × Nat)} (h : ds.length = ops.length) :
    openCounts (ops ++ ops') (ds ++ es) = openCounts ops ds ++ openCounts ops' es := by
  simp [openCounts, List.zip_append h.symm]

theorem openCounts_cons {op : Opcode} {ops : List Opcode} {d : Nat × Nat} {ds : List (Nat × Nat)} :
    openCounts (op :: ops) (d :: ds) = (if op.isOpen then [d.2] else []) ++ openCounts ops ds := by
  by_cases h : op.isOpen = true
  · simp [openCounts, h]
  · simp [openCounts, h]

theorem firstDepth_append {ds es : List (Nat × Nat)} {n : Nat} :
    firstDepth (ds ++ es) n = firstDepth ds (firstDepth es n) := by
  cases ds <;> rfl

namespace Depths

variable {direct : FuncId → Prop} {loop : Nat} {a b : List Piece} {q : Piece} {ns ms : List Nat}
  {k m n : Nat} {ds es : List (Nat × Nat)}

theorem append (h : Depths direct loop a ns k m ds) (h' : Depths direct loop b ms m n es) :
    Depths direct loop (a ++ b) (ns ++ ms) k n (ds ++ es) where
  length := by simp [h.length, h'.length]
  counts := by
    rw [List.map_append, openCounts_append (by simp [h.length]), h.counts, h'.counts]
  first := by rw [firstDepth_append, h'.first, h.first]
  fits := by
    intro f o hf
    obtain ⟨ha, hb⟩ := (along_append h'.first).mp hf
    rw [fits_append, ← h.length]
    exact ⟨h.fits f o ha, h'.fits f _ hb⟩

/-- An instruction that leads to the end of the code after it, if anywhere. -/
theorem cons (h : Depths direct loop b ns m n es) (count : Nat) (hw : ¬q.Waits)
    (hgoal : q.goal = none ∨ q.goal = some (.ahead (b.length + 1)) ∧ q.op.offsetOperand? ≠ none)
    (hq : ∀ g, (q.goal ≠ none → g = n) → q.Moves direct count k m g) :
    Depths direct loop (q :: b) ((if q.op.isOpen then [count] else []) ++ ns) k n ((k, count) :: es) where
  length := by simp [h.length]
  counts := by rw [List.map_cons, openCounts_cons, h.counts]
  first := rfl
  fits := by
    intro f o hf
    obtain ⟨ho, hrest⟩ := along_cons.mp hf
    rw [fits_cons]
    have hleads : q.goal ≠ none → q.op.offsetOperand? ≠ none := by
      rcases hgoal with hg | ⟨-, hop⟩
      · exact fun hne => absurd hg hne
      · exact fun _ => hop
    refine ⟨⟨hleads, fun hw' => absurd hw' hw, fun _ => ?_⟩, h.fits f _ hrest⟩
    have hnext := hrest.first.trans h.first
    rw [ho, hnext]
    refine hq _ fun hne => ?_
    rcases hgoal with hg | ⟨hg, -⟩
    · exact absurd hg hne
    · simp only [Piece.distance, hg]
      have hlast := hrest.2
      rw [h.length] at hlast
      rwa [show o + ((b.length : Int) + 1) = o + 1 + b.length by omega]

end Depths

/-! ### Single instructions -/

theorem not_calls_of_callee {direct : FuncId → Prop} {q : Piece} (h : q.callee = none) : ¬q.Calls direct := by
  rintro ⟨f, hf, -⟩
  simp [h] at hf

theorem Piece.Moves.ofOp {direct : FuncId → Prop} {q : Piece} {count before next goal : Nat}
    (hq : q.callee = none) (h : q.op.Moves q.argument count before next goal) :
    q.Moves direct count before next goal :=
  ⟨fun _ => h, fun hc => absurd hc (not_calls_of_callee hq), fun hc => absurd hc (not_calls_of_callee hq)⟩

namespace Flow

variable {direct : FuncId → Prop} {loop : Nat} {a b : List Piece} {q : Piece} {ns ms : List Nat}
  {op : Opcode} {line : Nat} {vs : List Int} {v : Option Constant} {k m n count : Nat}

theorem nil : Flow direct loop [] [] n n :=
  ⟨[], rfl, rfl, rfl, fun f o _ i q hq => by simp at hq⟩

theorem append (h : Flow direct loop a ns k m) (h' : Flow direct loop b ms m n) :
    Flow direct loop (a ++ b) (ns ++ ms) k n := by
  obtain ⟨ds, hd⟩ := h
  obtain ⟨es, he⟩ := h'
  exact ⟨ds ++ es, hd.append he⟩

theorem cons (hq : Flow direct loop [q] ns k m) (h : Flow direct loop b ms m n) :
    Flow direct loop (q :: b) (ns ++ ms) k n := hq.append h

/-- One instruction that leads nowhere. -/
theorem one (count : Nat) (hg : q.goal = none) (hq : ∀ g, q.Moves direct count k m g) :
    Flow direct loop [q] (if q.op.isOpen then [count] else []) k m := by
  have hnil : Depths direct loop [] [] m m [] := ⟨rfl, rfl, rfl, fun f o _ i q hq => by simp at hq⟩
  have := hnil.cons count (q := q) (by simp [Piece.Waits, hg]) (.inl hg) (fun g _ => hq g)
  rw [List.append_nil] at this
  exact ⟨_, this⟩

theorem plain (ho : op.isOpen = false) (hm : ∀ g, op.Moves (vs.getLast?.getD 0) 0 k m g) :
    Flow direct loop [.plain op line vs] [] k m := by
  have h : Flow direct loop [.plain op line vs] (if op.isOpen then [0] else []) k m :=
    one 0 rfl fun g => .ofOp rfl (hm g)
  rwa [if_neg (by simp [ho])] at h

theorem withConst (ho : op.isOpen = false) (hm : ∀ g, op.Moves (vs.getLast?.getD 0) 0 k m g) :
    Flow direct loop [.withConst op line vs v] [] k m := by
  have h : Flow direct loop [.withConst op line vs v] (if op.isOpen then [0] else []) k m :=
    one 0 rfl fun g => .ofOp rfl (hm g)
  rwa [if_neg (by simp [ho])] at h

theorem callPlain (ho : op.isOpen = true) (hm : ∀ g, op.Moves (vs.getLast?.getD 0) count k m g) :
    Flow direct loop [.plain op line vs] [count] k m := by
  have h : Flow direct loop [.plain op line vs] (if op.isOpen then [count] else []) k m :=
    one count rfl fun g => .ofOp rfl (hm g)
  rwa [if_pos (by simp [ho])] at h

theorem callConst (ho : op.isOpen = true) (hm : ∀ g, op.Moves (vs.getLast?.getD 0) count k m g) :
    Flow direct loop [.withConst op line vs v] [count] k m := by
  have h : Flow direct loop [.withConst op line vs v] (if op.isOpen then [count] else []) k m :=
    one count rfl fun g => .ofOp rfl (hm g)
  rwa [if_pos (by simp [ho])] at h

theorem mark : Flow direct loop [.mark line] [] n n := plain rfl fun _ => by simp [Opcode.Moves, Opcode.takes, Opcode.gives]

/-- An instruction that leads to the end of the code after it. -/
theorem leading (h : Flow direct loop b ns m n) (ho : op.isOpen = false) (hl : op.offsetOperand?.isSome = true)
    (hm : op.Moves (vs.getLast?.getD 0) 0 k m n) :
    Flow direct loop (.leading op line vs (.ahead (b.length + 1)) :: b) ns k n := by
  obtain ⟨es, he⟩ := h
  have := he.cons 0 (q := .leading op line vs (.ahead (b.length + 1))) (k := k)
    (by simp [Piece.Waits, Piece.leading]) (.inr ⟨rfl, Option.isSome_iff_ne_none.mp hl⟩)
    (fun g hg => by
      obtain rfl := hg (by simp [Piece.leading])
      exact .ofOp rfl hm)
  rw [if_neg (by simp [Piece.leading, ho])] at this
  exact ⟨_, this⟩

/-- A lambda is pushed, and its body skipped. -/
theorem lambda (h : Flow direct loop b ns count (n + 1)) :
    Flow direct loop (.leading .lambda line [0] (.ahead (b.length + 1)) :: b) (count :: ns) n (n + 1) := by
  obtain ⟨es, he⟩ := h
  exact ⟨_, he.cons count (by simp [Piece.Waits, Piece.leading]) (.inr ⟨rfl, Option.isSome_iff_ne_none.mp rfl⟩) (fun g hg => by
    obtain rfl := hg (by simp [Piece.leading])
    exact .ofOp rfl ⟨rfl, rfl⟩)⟩

/-- A jump to an end of the loop. -/
theorem wait {g : Goal} (hop : op = .brk ∨ op = .cont) (hg : g = .exit ∨ g = .next) :
    Flow direct loop [.leading op line vs g] [] loop loop := by
  have hopen : op.isOpen = false := by rcases hop with rfl | rfl <;> rfl
  refine ⟨[(loop, 0)], rfl, by simp [openCounts, Piece.leading, hopen], rfl, ?_⟩
  intro f o hf
  rw [fits_one]
  have hat := (along_cons.mp hf).1
  have hleads : op.offsetOperand?.isSome = true := by rcases hop with rfl | rfl <;> rfl
  refine ⟨fun _ => Option.isSome_iff_ne_none.mp hleads, fun _ => ⟨hop, by rw [hat]⟩, fun hw => absurd ?_ hw⟩
  rcases hg with rfl | rfl
  · exact .inl rfl
  · exact .inr rfl

/-- Outside of loops, the depth of the loop does not matter. -/
theorem alone {outer : Nat} (h : Flow direct loop a ns k n) :
    Flow direct outer (a.map Piece.alone) ns k n := by
  obtain ⟨ds, hd⟩ := h
  have hops : (a.map Piece.alone).map Piece.op = a.map Piece.op := by
    rw [List.map_map]
    apply List.map_congr_left
    intro q _
    unfold Function.comp Piece.alone
    split <;> rfl
  exact ⟨ds, by simpa using hd.length, by rw [hops]; exact hd.counts, hd.first,
    fun f o hf => (hd.fits f o hf).alone⟩

/-- Code of a frame that flows back to the empty stack may be closed. Nothing comes after it. -/
theorem close {outer : Nat} (h : Flow direct loop a ns 0 0)
    (hin : ∀ {i : Nat} {q d}, a[i]? = some q → q.goal = some (.ahead d) → 0 ≤ i + d ∧ i + d < a.length) :
    Flow direct outer (closeCode line a) ns 0 n := by
  unfold closeCode
  by_cases hr : (a.getLast?.any fun q => q.op.isReturn) = true
  · rw [if_pos hr, List.append_nil]
    suffices h' : Flow direct loop a ns 0 n from h'.alone
    obtain ⟨ds, hd⟩ := h
    have hne : ds ≠ [] := by
      rintro rfl
      have : a = [] := by simpa using hd.length.symm
      simp [this] at hr
    have hfirst : firstDepth ds n = firstDepth ds 0 := by
      cases ds with
      | nil => exact absurd rfl hne
      | cons => rfl
    refine ⟨ds, hd.length, hd.counts, hfirst.trans hd.first, ?_⟩
    intro f o hf i q hq
    have hlt := (List.getElem?_eq_some_iff.mp hq).1
    -- the place after the code may have any depth
    let f' := Function.update f (o + a.length) (0, 0)
    have hsame : ∀ {j : Int}, j ≠ o + a.length → f' j = f j := fun h => Function.update_of_ne h _ _
    have hfits : Fits direct loop f' o a := by
      refine hd.fits f' o ⟨?_, ?_⟩
      · intro j d hj
        have := (List.getElem?_eq_some_iff.mp hj).1
        rw [hsame (by have := hd.length; omega)]
        exact hf.1 j d hj
      · rw [hd.length]
        simp [f']
    obtain ⟨hleads, hwaits, hmoves⟩ := hfits i q hq
    rw [hsame (by omega)] at hwaits hmoves
    refine ⟨hleads, hwaits, fun hw => ?_⟩
    have hm := hmoves hw
    have hgoal : f' (o + i + q.distance) = f (o + i + q.distance) := by
      apply hsame
      unfold Piece.distance
      split
      · next d hd =>
        have := hin hq hd
        omega
      · omega
    rw [hgoal] at hm
    by_cases hlast : i + 1 = a.length
    · have hret : q.op.isReturn = true := by
        rw [List.getLast?_eq_getElem?, show a.length - 1 = i by omega, hq] at hr
        simpa using hr
      refine ⟨fun hc => ?_, fun _ hop => ?_, fun _ hop => ?_⟩
      · have := hm.same hc
        revert this hret
        cases q.op <;> simp [Opcode.Moves, Opcode.isReturn]
      · simp [hop, Opcode.isReturn] at hret
      · simp [hop, Opcode.isReturn] at hret
    · rwa [hsame (by omega)] at hm
  · rw [if_neg hr]
    have hret : Flow direct outer [.plain .ret line []] [] 0 n := plain rfl fun _ => rfl
    simpa using h.alone.append hret

/-! ### Loops and branches -/

private theorem map_op_settleLoop {e k : Nat} : (settleLoop e k a).map Piece.op = a.map Piece.op := by
  apply List.ext_getElem?
  intro i
  simp only [List.getElem?_map, settleLoop, List.getElem?_mapIdx, Option.map_map]
  congr 1
  funext q
  simp only [Function.comp, Piece.settle]
  split <;> rfl

private theorem length_settleLoop {e k : Nat} : (settleLoop e k a).length = a.length := by
  simp [settleLoop]

private theorem fits_mark {f : Int → Nat × Nat} {o : Int} (h : (f (o + 1)).1 = (f o).1) :
    (Piece.mark line).Fits direct loop f o :=
  ⟨fun hg => absurd rfl hg, by simp [Piece.Waits, Piece.mark, Piece.plain],
    fun _ => .ofOp rfl ⟨Nat.zero_le _, h⟩⟩

private theorem fits_leading {f : Int → Nat × Nat} {o d : Int} (hl : op.offsetOperand?.isSome = true)
    (h : op.Moves (vs.getLast?.getD 0) (f o).2 (f o).1 (f (o + 1)).1 (f (o + d)).1) :
    (Piece.leading op line vs (.ahead d)).Fits direct loop f o :=
  ⟨fun _ => Option.isSome_iff_ne_none.mp hl, by simp [Piece.Waits, Piece.leading], fun _ => .ofOp rfl h⟩

theorem whileLoop {test body post : List Piece} {ts bs ps : List Nat} {outer : Nat}
    (ht : Flow direct outer test ts n (n + 1)) (hb : Flow direct n body bs n n)
    (hp : Flow direct n post ps n n) :
    Flow direct outer (whileCode line test body post) (ts ++ bs ++ ps) n n := by
  obtain ⟨dt, ht⟩ := ht
  obtain ⟨db, hb⟩ := hb
  obtain ⟨dp, hp⟩ := hp
  refine ⟨(n, 0) :: (dt ++ (n + 1, 0) :: (db ++ (n, 0) :: (dp ++ [(n, 0), (n, 0)]))), ?_, ?_, rfl, ?_⟩
  · simp [whileCode, length_settleLoop, ht.length, hb.length, hp.length]
  · simp [whileCode, map_op_settleLoop, openCounts_append, openCounts_cons, ht.length, hb.length, hp.length,
      ht.counts, hb.counts, hp.counts, Piece.mark, Piece.plain, Piece.leading, Opcode.isOpen, Opcode.isCall]
    rfl
  · intro f o hf
    obtain ⟨htop, hf⟩ := along_cons.mp hf
    obtain ⟨htest, hf⟩ := (along_append rfl).mp hf
    obtain ⟨hjz, hf⟩ := along_cons.mp hf
    obtain ⟨hbody, hf⟩ := (along_append rfl).mp hf
    obtain ⟨hnext, hf⟩ := along_cons.mp hf
    obtain ⟨hpost, hf⟩ := (along_append rfl).mp hf
    obtain ⟨hback, hf⟩ := along_cons.mp hf
    obtain ⟨hexit, hf⟩ := along_cons.mp hf
    rw [along_nil] at hf
    have hfirst := htest.first.trans ht.first
    have hbfirst := hbody.first.trans hb.first
    have hpfirst := hpost.first.trans hp.first
    rw [ht.length] at *
    rw [hb.length] at *
    rw [hp.length] at *
    have hstart : o + ((Piece.mark line :: test).length : Int) = o + 1 + test.length := by
      rw [List.length_cons]
      omega
    unfold whileCode
    rw [fits_append, hstart, fits_cons, fits_cons]
    refine ⟨⟨fits_mark (by rw [hfirst, htop]), ht.fits f _ htest⟩, fits_leading rfl ?_, ?_⟩
    · have hgoal : o + 1 + test.length + (body.length + post.length + 3) =
          o + 1 + test.length + 1 + body.length + 1 + post.length + 1 := by omega
      rw [hjz, hbfirst, hgoal, hexit]
      exact ⟨rfl, rfl⟩
    · have hend : o + 1 + test.length + 1 + ((body.length + post.length + 2 : Nat) : Int) =
          o + 1 + test.length + 1 + body.length + 1 + post.length + 1 := by omega
      have hlen : o + 1 + test.length + 1 + ((body ++ Piece.mark line :: post).length : Int) =
          o + 1 + test.length + 1 + body.length + 1 + post.length := by
        rw [List.length_append, List.length_cons]
        omega
      have htop' : o + 1 + test.length + 1 + body.length + 1 + post.length +
          -(test.length + body.length + post.length + 3 : Int) = o := by omega
      refine Fits.settle ?_ (by rw [hend, hexit]) (by rw [hnext])
      rw [fits_append, fits_append, fits_cons, hlen, fits_cons, fits_one]
      refine ⟨⟨hb.fits f _ hbody, fits_mark (by rw [hpfirst, hnext]), hp.fits f _ hpost⟩, fits_leading rfl ?_,
        fits_mark (by rw [hf, hexit])⟩
      rw [htop', htop, hback]
      exact rfl

theorem doLoop {test body : List Piece} {ts bs : List Nat} {outer : Nat}
    (hb : Flow direct n body bs n n) (ht : Flow direct n test ts n (n + 1)) :
    Flow direct outer (doCode line body test) (bs ++ ts) n n := by
  obtain ⟨db, hb⟩ := hb
  obtain ⟨dt, ht⟩ := ht
  refine ⟨(n, 0) :: (db ++ (n, 0) :: (dt ++ [(n + 1, 0), (n, 0), (n, 0)])), ?_, ?_, rfl, ?_⟩
  · simp [doCode, length_settleLoop, ht.length, hb.length]
  · simp [doCode, map_op_settleLoop, openCounts_append, openCounts_cons, ht.length, hb.length,
      ht.counts, hb.counts, Piece.mark, Piece.plain, Piece.leading, Opcode.isOpen, Opcode.isCall]
    rfl
  · intro f o hf
    obtain ⟨htop, hf⟩ := along_cons.mp hf
    obtain ⟨hbody, hf⟩ := (along_append rfl).mp hf
    obtain ⟨hnext, hf⟩ := along_cons.mp hf
    obtain ⟨htest, hf⟩ := (along_append rfl).mp hf
    obtain ⟨hjz, hf⟩ := along_cons.mp hf
    obtain ⟨hback, hf⟩ := along_cons.mp hf
    obtain ⟨hexit, hf⟩ := along_cons.mp hf
    rw [along_nil] at hf
    have hbfirst := hbody.first.trans hb.first
    have htfirst := htest.first.trans ht.first
    rw [hb.length] at *
    rw [ht.length] at *
    have hend : o + 1 + ((body.length + test.length + 3 : Nat) : Int) =
        o + 1 + body.length + 1 + test.length + 1 + 1 := by omega
    have hlen : o + 1 + ((body ++ Piece.mark line :: test).length : Int) =
        o + 1 + body.length + 1 + test.length := by
      rw [List.length_append, List.length_cons]
      omega
    have hgoal : o + 1 + body.length + 1 + test.length + 2 =
        o + 1 + body.length + 1 + test.length + 1 + 1 := by omega
    have htop' : o + 1 + body.length + 1 + test.length + 1 +
        -(body.length + test.length + 3 : Int) = o := by omega
    unfold doCode
    rw [fits_cons]
    refine ⟨fits_mark (by rw [hbfirst, htop]), Fits.settle ?_ (by rw [hend, hexit]) (by rw [hnext])⟩
    rw [fits_append, fits_append, fits_cons, hlen, fits_cons, fits_cons, fits_one]
    refine ⟨⟨hb.fits f _ hbody, fits_mark (by rw [htfirst, hnext]), ht.fits f _ htest⟩, fits_leading rfl ?_,
      fits_leading rfl ?_, fits_mark (by rw [hf, hexit])⟩
    · rw [hjz, hback, hgoal, hexit]
      exact ⟨rfl, rfl⟩
    · rw [htop', htop, hback]
      exact rfl

/-- One branch of a condition and what follows it up to the end of the condition. A branch that does not
end there leads to it. -/
theorem arm {test body others : List Piece} {ts bs os : List Nat} {testLine bodyLine : Nat} {leaves : Bool}
    (ht : Flow direct loop test ts n (n + 1)) (hb : Flow direct loop body bs n n)
    (ho : Flow direct loop others os n n) :
    Flow direct loop (armCode line testLine test body
      (leaveCode leaves bodyLine (some (.ahead (others.length + 2)))) ++ others) (ts ++ bs ++ os) n n := by
  cases leaves with
  | false =>
    have hjump : Flow direct loop (.leading .jumpZ testLine [0] (.ahead (body.length + 1)) :: body) bs (n + 1) n :=
      hb.leading rfl rfl ⟨rfl, rfl⟩
    have hmark : Flow direct loop [.mark line] [] n n := mark
    simpa [armCode, leaveCode] using ((ht.append hjump).append hmark).append ho
  | true =>
    -- the two jumps cross: one skips the other, which leads to the end
    obtain ⟨dt, ht⟩ := ht
    obtain ⟨db, hb⟩ := hb
    obtain ⟨do', ho⟩ := ho
    refine ⟨dt ++ (n + 1, 0) :: (db ++ (n, 0) :: (n, 0) :: do'), ?_, ?_, ?_, ?_⟩
    · simp [armCode, leaveCode, ht.length, hb.length, ho.length]
    · simp [armCode, leaveCode, openCounts_append, openCounts_cons, ht.length, hb.length,
        ht.counts, hb.counts, ho.counts, Piece.mark, Piece.plain, Piece.leading, Opcode.isOpen, Opcode.isCall]
    · rw [firstDepth_append]
      exact ht.first
    · intro f o hf
      obtain ⟨htest, hf⟩ := (along_append rfl).mp hf
      obtain ⟨hjz, hf⟩ := along_cons.mp hf
      obtain ⟨hbody, hf⟩ := (along_append rfl).mp hf
      obtain ⟨hleave, hf⟩ := along_cons.mp hf
      obtain ⟨hmark, hf⟩ := along_cons.mp hf
      have hbfirst := hbody.first.trans hb.first
      have hofirst := hf.first.trans ho.first
      have hend := hf.2
      rw [ht.length] at *
      rw [hb.length] at *
      rw [ho.length] at *
      have hskip : o + test.length + (body.length + (1 : Nat) + 1) = o + test.length + 1 + body.length + 1 := by
        omega
      have hgoal : o + test.length + 1 + body.length + (others.length + 2) =
          o + test.length + 1 + body.length + 1 + 1 + others.length := by omega
      have hcode : armCode line testLine test body
          (leaveCode true bodyLine (some (.ahead (others.length + 2)))) ++ others =
          test ++ (Piece.leading .jumpZ testLine [0] (.ahead (body.length + (1 : Nat) + 1)) ::
            (body ++ (Piece.leading .jump bodyLine [0] (.ahead (others.length + 2)) ::
              (Piece.mark line :: others)))) := by
        simp [armCode, leaveCode, Piece.leading]
      rw [hcode, fits_append, fits_cons, fits_append, fits_cons, fits_cons]
      refine ⟨ht.fits f _ htest, fits_leading rfl ?_, hb.fits f _ hbody, fits_leading rfl ?_,
        fits_mark (by rw [hofirst, hmark]), ho.fits f _ hf⟩
      · rw [hjz, hbfirst, hskip, hmark]
        exact ⟨rfl, rfl⟩
      · rw [hgoal, hend, hleave]
        exact rfl

end Flow

end Weft.Bytecode
