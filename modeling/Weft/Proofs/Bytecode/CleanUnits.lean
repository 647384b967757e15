import Weft.Proofs.Analysis.AnswersUnits
import Weft.Proofs.Bytecode.Completes
import Weft.Proofs.Bytecode.Reaching
import Weft.Proofs.Tree.Words

/-!
# Units without problems

What holds of the code of units that are analyzed without problems: they compile, and their functions give their values.
-/

/-! ## Compiling units without problems

A unit that was analyzed without problems compiles, unless a number is too large for its place in the code.
-/

namespace Weft

namespace Analysis

/-- A unit before it is analyzed: a file that was read, or a module that was compiled before. -/
inductive FileUnit.Unread : FileUnit → Prop
  | read (file path : String) (src : Bytes) (m : Module) : Unread (.fresh file (Tree.parseFile path src).1 m)
  | cached (file : String) (record : NamespaceRecord) (imports : List String) (m : Module) :
    Unread (.cached file record imports m)

theorem FileUnit.Unread.clean {u : FileUnit} (h : u.Unread) : u.Clean := by
  cases h <;> exact ⟨rfl, rfl⟩

theorem FileUnit.Unread.bodied {u : FileUnit} (h : u.Unread) : u.Bodied := by
  cases h with
  | read file path src m => exact ⟨(Tree.parseFile_decls path src).2, by simp⟩
  | cached file record imports m => exact True.intro

end Analysis

namespace Bytecode

open Analysis

/-- If units are analyzed together without problems, each of their programs compiles, or a number is too large for
its operand. Sizes of frames, slots of variables, captured variables and default values always fit. -/
theorem compile_of_clean_run {registry : Registry} {resolver : Option Resolver} {units units' : List FileUnit}
    {s s' : Store} (hunits : ∀ u ∈ units, u.Unread) (hrun : run registry resolver units s = (units', s'))
    (hclean : ∀ u ∈ units', u.diags = []) {u : FileUnit} (hu : u ∈ units') {p : Typed.Program}
    (hp : u.program? = some p) :
    (∃ c, compile s' u.module p = .ok c) ∨ ∃ e, compile s' u.module p = .error e ∧ e.IsWidth := by
  have htrusted := trusted_run (fun u h => (hunits u h).clean) (fun u h => (hunits u h).bodied) hrun hclean u hu p hp
  cases hcompile : compile s' u.module p with
  | ok c => exact .inl ⟨c, rfl⟩
  | error e => exact .inr ⟨e, rfl, compile_isWidth htrusted hcompile⟩

/-! ## A unit of one function -/

namespace OneFunction

/-- A function that returns one. -/
def source : Bytes := Text.encode "func int f() { return 1; }"

/-- A place in the first line. -/
private def span (start stop : Nat) : Span := ⟨⟨start, 1, start + 1⟩, ⟨stop, 1, stop + 1⟩⟩

/-- The tree of the function. -/
def tree : Tree.File :=
  let body : Tree.Block := ⟨span 13 26, [.ret (span 15 24) [.int (span 22 23) 1]]⟩
  { path := "m.weft", span := span 0 26, imports := [],
    decls := [.func { span := span 0 26, fileLocal := false, coro := false, virtual := false, override := false,
                      name := "f", returns := [.named (span 5 8) ["int"]], params := [], body := some body }] }

/-- The builtin types, a module that sees them, and their symbols. -/
def start : (Registry × Module) × Store :=
  (do
    let r ← Registry.bare
    return (r, ← Module.new r "m" "m.weft") : Symbols (Registry × Module)).run .empty

/-- The unit of the function. -/
def unit : FileUnit := .fresh "m.weft" (Tree.parseFile "m.weft" source).1 start.1.2

theorem scan_source : Token.scan source =
    [⟨.kwFunc, "func", span 0 4⟩, ⟨.ident, "int", span 5 8⟩, ⟨.ident, "f", span 9 10⟩, ⟨.lparen, "(", span 10 11⟩,
      ⟨.rparen, ")", span 11 12⟩, ⟨.lbrace, "\x7b", span 13 14⟩, ⟨.kwReturn, "return", span 15 21⟩,
      ⟨.int, "1", span 22 23⟩, ⟨.semicolon, ";", span 23 24⟩, ⟨.rbrace, "\x7d", span 25 26⟩,
      ⟨.eof, "", span 26 26⟩] := by
  decide +kernel

theorem parseFile_source : (Tree.parseFile "m.weft" source).1 = tree := by
  unfold Tree.parseFile Tree.read Tree.Cursor.start
  rw [scan_source]
  rfl

theorem clean : ∀ u ∈ (run start.1.1 none [unit] start.2).1, u.diags = [] := by
  rw [unit, parseFile_source]
  decide +kernel

end OneFunction

/-- The unit of one function is analyzed without problems, so its program compiles but for widths. -/
theorem compile_oneFunction_of_clean_run :
    (∀ u ∈ [OneFunction.unit], u.Unread) ∧
      (∀ u ∈ (run OneFunction.start.1.1 none [OneFunction.unit] OneFunction.start.2).1, u.diags = []) ∧
      ∀ u ∈ (run OneFunction.start.1.1 none [OneFunction.unit] OneFunction.start.2).1, ∀ p, u.program? = some p →
        (∃ c, compile (run OneFunction.start.1.1 none [OneFunction.unit] OneFunction.start.2).2 u.module p = .ok c) ∨
          ∃ e, compile (run OneFunction.start.1.1 none [OneFunction.unit] OneFunction.start.2).2 u.module p = .error e ∧
            e.IsWidth := by
  have hunits : ∀ u ∈ [OneFunction.unit], u.Unread := by
    intro u hu
    obtain rfl := List.mem_singleton.mp hu
    exact .read _ _ _ _
  exact ⟨hunits, OneFunction.clean, fun u hu p hp => compile_of_clean_run hunits Prod.mk.eta.symm OneFunction.clean hu hp⟩

end Bytecode

end Weft

/-! ## Returns of accepted units

That a function returns on every path is decided on its tree, and a return without values ends every frame whose last
instruction is no return. In the code of units that are analyzed without problems control never reaches that return
where a function, a method or a lambda has values to give.
-/

namespace Weft.Bytecode

open Analysis
open Typed (Lambda returnsOf)

/-- **Functions that have values to give always give them.** When units are analyzed without problems, control reaches
no return without values in the frames of the functions, methods and lambdas of a compiled program whose type is not
void, and every return that it reaches gives as many values as the type has. -/
theorem run_alwaysReturns {registry : Registry} {resolver : Option Resolver} {units units' : List FileUnit}
    {s s' : Store} (hunits : ∀ u ∈ units, u.Unread) (hrun : run registry resolver units s = (units', s'))
    (hclean : ∀ u ∈ units', u.diags = []) {u : FileUnit} (hu : u ∈ units') {p : Typed.Program}
    (hp : u.program? = some p) {out : Compiled} (h : compile s' u.module p = .ok out) :
    List.Forall₂ (fun (d : Typed.FuncDecl) f => f.name = (s'.func d.symbol).fullName ∧
        (returnsOf s' d.symbol ≠ .void →
          AlwaysReturns out.code (returnsOf s' d.symbol).valueCount f.pos.toNat)) p.funcs out.funcs ∧
      ∀ part, List.Forall₂ (fun (fn : Lambda) d => fn.sig.returns ≠ .void →
          AlwaysReturns (out.bytes part) fn.sig.returns.valueCount (Decoded.next d))
        (p.lambdas part) ((decode (out.bytes part)).1.filter fun d => d.op = .lambda) := by
  have hanswers : p.Answers s' :=
    answers_run (fun u h => (hunits u h).clean) (fun u h => (hunits u h).bodied) hrun hclean u hu p hp
  obtain ⟨hfuncs, hlambdas⟩ := compile_alwaysReturns h
  constructor
  · refine ((List.forall₂_and_left _ _).mpr ⟨hanswers.funcs, hfuncs⟩).imp fun d f ⟨⟨frame, hframe, ha, _⟩, hname, hret⟩ =>
    ⟨hname, fun ht => hret frame _ hframe ha ht⟩
  · exact fun part => ((List.forall₂_and_left _ _).mpr ⟨hanswers.lambdas part, hlambdas part⟩).imp
      fun fn d ⟨hfn, hret⟩ => hret hfn.2

/-! ## A unit with a loop before its returns -/

namespace LeftLoop

/-- A function with a lambda, a loop that it leaves, a return and another loop. -/
def source : Bytes := Text.encode
  "func int f(bool x)\x7bvar g=func bool()\x7breturn x;\x7d;while(x)\x7bbreak;\x7dreturn 1;while(x)\x7b\x7d\x7d"

/-- A place in the first line. -/
private def span (start stop : Nat) : Span := ⟨⟨start, 1, start + 1⟩, ⟨stop, 1, stop + 1⟩⟩

/-- The unit of the function. -/
def unit : FileUnit := .fresh "m.weft" (Tree.parseFile "m.weft" source).1 OneFunction.start.1.2

/-- The unit after its analysis, and the symbols. -/
def analyzed : List FileUnit × Store := run OneFunction.start.1.1 none [unit] OneFunction.start.2

theorem scan_source : Token.scan source =
    [⟨.kwFunc, "func", span 0 4⟩, ⟨.ident, "int", span 5 8⟩, ⟨.ident, "f", span 9 10⟩, ⟨.lparen, "(", span 10 11⟩,
      ⟨.ident, "bool", span 11 15⟩, ⟨.ident, "x", span 16 17⟩, ⟨.rparen, ")", span 17 18⟩,
      ⟨.lbrace, "\x7b", span 18 19⟩, ⟨.kwVar, "var", span 19 22⟩, ⟨.ident, "g", span 23 24⟩,
      ⟨.assign, "=", span 24 25⟩, ⟨.kwFunc, "func", span 25 29⟩, ⟨.ident, "bool", span 30 34⟩,
      ⟨.lparen, "(", span 34 35⟩, ⟨.rparen, ")", span 35 36⟩, ⟨.lbrace, "\x7b", span 36 37⟩,
      ⟨.kwReturn, "return", span 37 43⟩, ⟨.ident, "x", span 44 45⟩, ⟨.semicolon, ";", span 45 46⟩,
      ⟨.rbrace, "\x7d", span 46 47⟩, ⟨.semicolon, ";", span 47 48⟩, ⟨.kwWhile, "while", span 48 53⟩,
      ⟨.lparen, "(", span 53 54⟩, ⟨.ident, "x", span 54 55⟩, ⟨.rparen, ")", span 55 56⟩,
      ⟨.lbrace, "\x7b", span 56 57⟩, ⟨.kwBreak, "break", span 57 62⟩, ⟨.semicolon, ";", span 62 63⟩,
      ⟨.rbrace, "\x7d", span 63 64⟩, ⟨.kwReturn, "return", span 64 70⟩, ⟨.int, "1", span 71 72⟩,
      ⟨.semicolon, ";", span 72 73⟩, ⟨.kwWhile, "while", span 73 78⟩, ⟨.lparen, "(", span 78 79⟩,
      ⟨.ident, "x", span 79 80⟩, ⟨.rparen, ")", span 80 81⟩, ⟨.lbrace, "\x7b", span 81 82⟩,
      ⟨.rbrace, "\x7d", span 82 83⟩, ⟨.rbrace, "\x7d", span 83 84⟩, ⟨.eof, "", span 84 84⟩] := by
  decide +kernel

theorem clean : ∀ u ∈ analyzed.1, u.diags = [] := by
  unfold analyzed unit Tree.parseFile Tree.read Tree.Cursor.start
  rw [scan_source]
  decide +kernel

theorem compiles : (analyzed.1.any fun u => u.program?.any fun p => (compile analyzed.2 u.module p).isOk) = true := by
  unfold analyzed unit Tree.parseFile Tree.read Tree.Cursor.start
  rw [scan_source]
  decide +kernel

end LeftLoop

/-- The unit with a loop before its returns compiles, its function always returns one value, and so does its lambda. -/
theorem run_leftLoop_alwaysReturns :
    (∀ u ∈ [LeftLoop.unit], u.Unread) ∧ (∀ u ∈ LeftLoop.analyzed.1, u.diags = []) ∧
      ∃ u ∈ LeftLoop.analyzed.1, ∃ p out, u.program? = some p ∧ compile LeftLoop.analyzed.2 u.module p = .ok out ∧
        List.Forall₂ (fun (d : Typed.FuncDecl) f => f.name = (LeftLoop.analyzed.2.func d.symbol).fullName ∧
            (returnsOf LeftLoop.analyzed.2 d.symbol ≠ .void →
              AlwaysReturns out.code (returnsOf LeftLoop.analyzed.2 d.symbol).valueCount f.pos.toNat)) p.funcs out.funcs ∧
          ∀ part, List.Forall₂ (fun (fn : Lambda) d => fn.sig.returns ≠ .void →
              AlwaysReturns (out.bytes part) fn.sig.returns.valueCount (Decoded.next d))
            (p.lambdas part) ((decode (out.bytes part)).1.filter fun d => d.op = .lambda) := by
  have hunits : ∀ u ∈ [LeftLoop.unit], u.Unread := by
    intro u hu
    obtain rfl := List.mem_singleton.mp hu
    exact .read _ _ _ _
  obtain ⟨u, hu, hcompiled⟩ := List.any_eq_true.mp LeftLoop.compiles
  cases hp : u.program? with
  | none => simp [hp] at hcompiled
  | some p =>
    rw [hp, Option.any_some] at hcompiled
    cases h : compile LeftLoop.analyzed.2 u.module p with
    | error e => simp [h, Except.isOk, Except.toBool] at hcompiled
    | ok out =>
      exact ⟨hunits, LeftLoop.clean, u, hu, p, out, hp, h, run_alwaysReturns hunits Prod.mk.eta.symm LeftLoop.clean hu hp h⟩

end Weft.Bytecode
