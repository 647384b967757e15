import Weft.Proofs.Bytecode.Streams

/-!
# Lines of positions

The lines of a resolved stream have an entry wherever the line of the encoded instructions changes. Marks have no entry,
though they have lines of their own, and every byte of an instruction is found on the line of the instruction.
-/

namespace Weft.Bytecode

/-! ## Looking up -/

section Lookup

variable {last pos : Int} {e : LinePos} {ls : List LinePos}

/-- The line of a position, if a line holds before the first entry. -/
def lineFrom (last : Int) (ls : List LinePos) (pos : Int) : Int :=
  ((ls.takeWhile fun l => l.pos ≤ pos).getLast?.map LinePos.line).getD last

theorem lineFrom_of_lt (h : ∀ e ∈ ls, pos < e.pos) : lineFrom last ls pos = last := by
  cases ls with
  | nil => rfl
  | cons e ls =>
    have he : ¬e.pos ≤ pos := Int.not_le.mpr (h e List.mem_cons_self)
    rw [lineFrom, List.takeWhile_cons_of_neg (by simpa using he)]
    rfl

theorem lineFrom_cons (h : e.pos ≤ pos) : lineFrom last (e :: ls) pos = lineFrom e.line ls pos := by
  rw [lineFrom, lineFrom, List.takeWhile_cons_of_pos (by simpa using h), List.getLast?_cons]
  cases (ls.takeWhile fun l => l.pos ≤ pos).getLast? <;> rfl

/-- A line that does not hold before the first entry is that of an entry. -/
theorem lineAt_of_lineFrom {line : Int} (h : lineFrom last ls pos = line) (hne : line ≠ last) : lineAt ls pos = line := by
  unfold lineAt
  unfold lineFrom at h
  cases hlast : (ls.takeWhile fun l => l.pos ≤ pos).getLast? with
  | none =>
    rw [hlast] at h
    exact absurd h.symm hne
  | some l =>
    rw [hlast] at h
    exact h

end Lookup

/-! ## Lines of placed instructions -/

section Placed

variable {p last : Int} {xs before after : List Instruction} {x : Instruction}

/-- An entry is the position of an instruction. -/
theorem le_of_mem_lineMap {e : LinePos} (h : Placed p xs) (he : e ∈ lineMap last xs) : p ≤ e.pos := by
  induction xs generalizing p last with
  | nil => cases he
  | cons x xs ih =>
    obtain ⟨rfl, hrest⟩ := h
    rw [lineMap] at he
    split at he
    · have := ih hrest he
      omega
    · rcases List.mem_cons.mp he with rfl | he
      · exact Int.le_refl _
      · have := ih hrest he
        omega

/-- The positions of the entries increase strictly, since only encoded instructions have entries. -/
theorem lineMap_increasing (h : Placed p xs) : (lineMap last xs).Pairwise fun e f => e.pos < f.pos := by
  induction xs generalizing p last with
  | nil => exact .nil
  | cons x xs ih =>
    obtain ⟨rfl, hrest⟩ := h
    rw [lineMap]
    split
    · exact ih hrest
    · next hx =>
      have hsize := Opcode.size_pos (not_or.mp hx).1
      refine List.pairwise_cons.mpr ⟨fun e he => ?_, ih hrest⟩
      have hle := le_of_mem_lineMap hrest he
      simp only
      omega

/-- Entries that follow each other have different lines, and the first another line than the last one before. -/
theorem lineMap_changes (pos last : Int) (xs : List Instruction) :
    (⟨pos, last⟩ :: lineMap last xs).IsChain fun e f => e.line ≠ f.line := by
  induction xs generalizing pos last with
  | nil => exact .singleton _
  | cons x xs ih =>
    rw [lineMap]
    split
    · exact ih pos last
    · next hx => exact .cons_cons (Ne.symm (not_or.mp hx).2) (ih x.pos x.line)

/-- A position inside an instruction is on the line of the instruction. -/
theorem lineFrom_lineMap {q : Int} (h : Placed p (before ++ x :: after)) (hle : x.pos ≤ q) (hlt : q < x.pos + x.op.size) :
    lineFrom last (lineMap last (before ++ x :: after)) q = x.line := by
  induction before generalizing p last with
  | nil =>
    obtain ⟨rfl, hrest⟩ := h
    have hmark : x.op ≠ .mark := by
      rintro hm
      rw [hm] at hlt
      exact absurd hlt (by simp [Opcode.size]; omega)
    have hbehind : ∀ l, ∀ e ∈ lineMap l after, q < e.pos := fun l e he => by
      have := le_of_mem_lineMap hrest he
      omega
    rw [List.nil_append, lineMap]
    split
    · next hx => rw [lineFrom_of_lt (hbehind last), hx.resolve_left hmark]
    · rw [lineFrom_cons (e := ⟨x.pos, x.line⟩) hle, lineFrom_of_lt (hbehind x.line)]
  | cons y before ih =>
    obtain ⟨rfl, hrest⟩ := h
    rw [List.cons_append, lineMap]
    split
    · exact ih hrest
    · have hpos := hrest.le (List.mem_append_right before List.mem_cons_self)
      rw [lineFrom_cons (e := ⟨y.pos, y.line⟩) (by simp only; omega)]
      exact ih hrest

end Placed

/-! ## Streams of any history -/

section Reached

open Assembly

variable {a b : Assembly} {s : Section}

theorem leaves_then {α β : Type} {I : Assembly → Prop} {m : Assemble α} {f : α → Assemble β}
    (hm : Leaves (fun _ b => I b) m a) (hf : ∀ x b, I b → Leaves (fun _ c => I c) (f x) b) :
    Leaves (fun _ c => I c) (m >>= f) a := by
  refine leaves_bind ?_
  unfold Leaves at hm ⊢
  rcases hr : m a with ⟨e | x, b⟩
  · rwa [hr] at hm
  · rw [hr] at hm
    exact hf x b hm

theorem leaves_place (ha : WellMade a) (pos : Int) (ns : List Nat) :
    Leaves (fun _ b => WellMade b) (Assemble.place pos ns) a := by
  induction ns generalizing pos a with
  | nil => exact ha
  | cons n ns ih =>
    rw [Assemble.place, leaves_get_bind, leaves_modify_bind]
    refine ih (ha.instrs (by simp) fun m => ?_) _
    by_cases hn : n < a.instrs.size
    · rw [instr_modify hn]
      split
      · exact ⟨(ha.sound n).count, (ha.sound n).fit⟩
      · exact ha.sound m
    · rw [instr_modify_out hn]
      exact ha.sound m

/-- A resolution keeps streams well made, also when it ends in a violation. -/
theorem leaves_resolve (ha : WellMade a) (s : Section) : Leaves (fun _ b => WellMade b) (Assemble.resolve s) a := by
  unfold Assemble.resolve
  rw [leaves_get_bind]
  by_cases hres : (a.stream s).resolved = true
  · rw [if_pos hres]
    exact ha
  · rw [if_neg hres, leaves_modify_bind]
    have hset : ∀ {n : Nat} {i v : Int} {b : Assembly}, WellMade b → Leaves (fun _ c => WellMade c) (Assemble.setOperand n i v) b :=
      fun hb => Assemble.leaves_setOperand (fun _ => hb) fun y hy => StreamCall.wellMade_setOperand hb hy
    have hmarked : WellMade (update s ({ · with resolved := true }) a) := ha.update fun _ => rfl
    refine leaves_then (leaves_place hmarked 0 _) fun _ b hb => ?_
    rw [forM_toList, forM_toList]
    refine leaves_then (leaves_forM (fun r _ c hc => ?_) hb) fun _ b hb => leaves_forM (fun q _ c hc => ?_) hb
    · rw [leaves_get_bind]
      exact hset hc
    · rw [leaves_get_bind]
      exact hset hc

/-- The states of streams after any calls and resolutions, also after those that ended in a violation. -/
inductive Assembly.Reached : Assembly → Prop where
  | empty : Reached .empty
  | call {a : Assembly} (h : Reached a) (c : StreamCall) : Reached (@Prod.snd (Except Violation Unit) Assembly (c.run a))
  | resolve {a : Assembly} (h : Reached a) (s : Section) :
    Reached (@Prod.snd (Except Violation Unit) Assembly (Assemble.resolve s a))

theorem Assembly.Reached.wellMade (h : a.Reached) : WellMade a := by
  induction h with
  | empty => exact wellMade_empty
  | call h c ih => exact c.leaves_wellMade ih
  | resolve h s ih => exact leaves_resolve ih s

theorem Session.reached (calls : List StreamCall) : (Session.of calls).asm.Reached := by
  have hfold : ∀ {h : Session}, h.asm.Reached → (calls.foldl call h).asm.Reached := by
    induction calls with
    | nil => exact id
    | cons c calls ih =>
      intro h hr
      refine ih ?_
      rw [call_asm]
      exact hr.call c
  exact hfold .empty

end Reached

/-! ## Lines of resolved streams -/

/-- **The lines of a resolved stream are exact.** After any history, a stream that is resolved has lines whose positions
increase strictly and of which no two that follow each other are the same. Every byte of an instruction, wherever it
stands in the code, is on the line of the instruction, if that is not negative. -/
theorem lines_exact {a b : Assembly} {s : Section} (ha : a.Reached) (h : Runs (Assemble.resolve s) a () b) :
    ∃ ls code, Runs (Assemble.lines s) b ls b ∧ Runs (Assemble.bytes s) b code b ∧
      (ls.Pairwise fun e f => e.pos < f.pos) ∧ (ls.IsChain fun e f => e.line ≠ f.line) ∧
      ∀ before x after, b.listing s = before ++ x :: after →
        code = before.flatMap Instruction.encode ++ x.encode ++ after.flatMap Instruction.encode ∧
        (0 ≤ x.line → ∀ k < x.encode.length, lineAt ls ((before.flatMap Instruction.encode).length + k) = x.line) := by
  have hr := Assemble.resolved_of_resolve ha.wellMade h
  refine ⟨lineMap (-1) (b.listing s), (b.listing s).flatMap Instruction.encode, ?_, ?_, lineMap_increasing hr.placed,
    (lineMap_changes 0 (-1) (b.listing s)).tail, fun before x after hsplit => ⟨?_, fun hline k hk => ?_⟩⟩
  · unfold Assemble.lines
    rw [runs_get_bind, hr.resolved]
    exact rfl
  · unfold Assemble.bytes
    rw [runs_get_bind, hr.resolved]
    exact rfl
  · simp [hsplit]
  · have hplaced := hr.placed
    have hsound := hr.sound
    rw [hsplit] at hplaced hsound ⊢
    rw [Instruction.length_encode (hsound x (by simp))] at hk
    have hpos : x.pos = (before.flatMap Instruction.encode).length := by
      rw [hplaced.pos (k := before.length) (by simp), posAt, List.take_left,
        length_flatMap_encode fun y hy => hsound y (List.mem_append_left _ hy)]
    rw [← hpos]
    exact lineAt_of_lineFrom (lineFrom_lineMap hplaced (by omega) (by omega)) (by omega)

/-- Two instructions on a line, a mark on the next, one on the line after and two on the first line again. -/
def returningCalls : List StreamCall :=
  [.emit .code Opcode.getVar.byte 3 [0], .emit .code Opcode.pop.byte 3 [], .mark .code 4,
    .emit .code Opcode.getVar.byte 5 [1], .emit .code Opcode.pop.byte 3 [], .emit .code Opcode.ret.byte 3 []]

/-- The state after the stream is resolved. -/
def returningResolved : Assembly :=
  @Prod.snd (Except Violation Unit) Assembly (Assemble.resolve .code (Session.of returningCalls).asm)

/-- The second byte behind the mark is on the line of its instruction, and the last byte on the line that returned. -/
theorem lines_returning_exact :
    (Session.of returningCalls).asm.Reached ∧
      Runs (Assemble.resolve .code) (Session.of returningCalls).asm () returningResolved ∧
      ∃ ls code, Runs (Assemble.lines .code) returningResolved ls returningResolved ∧
        Runs (Assemble.bytes .code) returningResolved code returningResolved ∧ code.length = 7 ∧
        lineAt ls 4 = 5 ∧ lineAt ls 6 = 3 := by
  have hreached := Session.reached returningCalls
  have hresolve : Runs (Assemble.resolve .code) (Session.of returningCalls).asm () returningResolved :=
    Prod.ext (by decide +kernel) rfl
  obtain ⟨ls, code, hlines, hbytes, -, -, hall⟩ := lines_exact hreached hresolve
  have hlisting : returningResolved.listing .code =
      [⟨.getVar, [0], 3, 0⟩, ⟨.pop, [], 3, 2⟩, ⟨.mark, [], 4, 3⟩, ⟨.getVar, [1], 5, 3⟩, ⟨.pop, [], 3, 5⟩, ⟨.ret, [], 3, 6⟩] := by
    decide +kernel
  obtain ⟨hcode, hinside⟩ := hall [⟨.getVar, [0], 3, 0⟩, ⟨.pop, [], 3, 2⟩, ⟨.mark, [], 4, 3⟩] ⟨.getVar, [1], 5, 3⟩
    [⟨.pop, [], 3, 5⟩, ⟨.ret, [], 3, 6⟩] hlisting
  obtain ⟨-, hlast⟩ := hall [⟨.getVar, [0], 3, 0⟩, ⟨.pop, [], 3, 2⟩, ⟨.mark, [], 4, 3⟩, ⟨.getVar, [1], 5, 3⟩, ⟨.pop, [], 3, 5⟩]
    ⟨.ret, [], 3, 6⟩ [] hlisting
  exact ⟨hreached, hresolve, ls, code, hlines, hbytes, by rw [hcode]; decide +kernel, hinside (by decide) 1 (by decide),
    hlast (by decide) 0 (by decide)⟩

end Weft.Bytecode
