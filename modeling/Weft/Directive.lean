import Weft.Text.Classes

/-!
# Conditional lines

A line that reads `#if NAME` or `#if !NAME` after trimming opens a condition, `#else` inverts it and
`#endif` closes it. The lines of a condition that does not hold, and the directive lines themselves,
become empty, so the other lines keep their numbers.
-/

namespace Weft.Directive

/-- What a line asks for. -/
inductive Line where
  | opening (name : Bytes) (negated : Bool)
  | alternative
  | closing
  | plain
deriving DecidableEq, Repr

/-- Why the directives of a text do not nest. Line numbers count from one. -/
inductive Error where
  | strayElse (line : Nat)
  | secondElse (line : Nat)
  | strayEnd (line : Nat)
  | unclosed
deriving DecidableEq, Repr

/-- The text of an error. -/
def Error.message : Error → String
  | strayElse n => s!"line {n}: #else without #if"
  | secondElse n => s!"line {n}: duplicate #else"
  | strayEnd n => s!"line {n}: #endif without #if"
  | unclosed => "unterminated #if"

/-- An open condition: whether its present branch is kept, whether the text around it is, and whether
its `#else` has been seen. -/
structure Frame where
  active : Bool
  outer : Bool
  inverted : Bool
deriving DecidableEq, Repr

/-- Read one line. -/
def Line.ofBytes (line : Bytes) : Line :=
  let t := Text.trim line
  if (Text.encode "#if ").isPrefixOf t then
    match Text.trim (t.drop 4) with
    | 0x21 :: name => opening name true
    | name => opening name false
  else if t = Text.encode "#else" then alternative
  else if t = Text.encode "#endif" then closing
  else plain

/-- Whether the text inside the open conditions, innermost first, is kept. -/
def kept : List Frame → Bool
  | [] => true
  | f :: _ => f.active

/-- The kept text of the lines from number `n` on, under the conditions open there. -/
def lines (defined : Bytes → Bool) (n : Nat) (open_ : List Frame) :
    List Bytes → Except Error (List Bytes)
  | [] => if open_.isEmpty then .ok [] else .error .unclosed
  | line :: rest =>
    match Line.ofBytes line, open_ with
    | .opening name negated, _ =>
      let active := kept open_ && (defined name != negated)
      return [] :: (← lines defined (n + 1) (⟨active, kept open_, false⟩ :: open_) rest)
    | .alternative, [] => .error (.strayElse n)
    | .alternative, f :: outer =>
      if f.inverted then .error (.secondElse n)
      else return [] :: (← lines defined (n + 1) (⟨f.outer && !f.active, f.outer, true⟩ :: outer) rest)
    | .closing, [] => .error (.strayEnd n)
    | .closing, _ :: outer => return [] :: (← lines defined (n + 1) outer rest)
    | .plain, _ => return (if kept open_ then line else []) :: (← lines defined (n + 1) open_ rest)

/-- A line that is no directive is kept where the text around it is. -/
theorem lines_plain {defined : Bytes → Bool} {n : Nat} {fs : List Frame} {l : Bytes} {ls : List Bytes}
    (h : Line.ofBytes l = .plain) :
    lines defined n fs (l :: ls) = ((if kept fs then l else []) :: ·) <$> lines defined (n + 1) fs ls := by
  rw [lines.eq_def]
  simp only [h]
  rfl

/-- The lines of a text: the pieces between its newlines. -/
def splitLines : Bytes → List Bytes
  | [] => [[]]
  | b :: rest =>
    if b = 10 then [] :: splitLines rest
    else match splitLines rest with
      | [] => [[b]]
      | line :: more => (b :: line) :: more

/-- Lines joined by newlines. -/
def joinLines : List Bytes → Bytes
  | [] => []
  | [line] => line
  | line :: rest => line ++ 10 :: joinLines rest

/-- The text with its conditions applied, where `defined` says which names hold. -/
def apply (defined : Bytes → Bool) (src : Bytes) : Except Error Bytes :=
  if src.contains 0x23 then return joinLines (← lines defined 1 [] (splitLines src))
  else .ok src

end Weft.Directive
