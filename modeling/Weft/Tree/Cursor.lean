import Weft.Diagnostic
import Weft.Token.Lexer

/-!
# Reading a token list

A `Cursor` is a place in a token list together with the problems found so far. `Parse` is a reader that
moves the cursor and may give up after noting a problem. `guarded` turns giving up into skipping to a
place where reading can go on, and `attempt` turns it into leaving the cursor alone.
-/

namespace Weft.Tree

/-- Why a piece of text is not a program. -/
inductive SyntaxError where
  | lexical (message : String)
  | expected (kind : Kind) (got : Token)
  | expectedType (got : Token)
  | expectedFunc (got : Token)
  | expectedAssign (got : Token)
  | unexpected (got : Token)
  | afterType (got : Token)
  | classModifier
  | interfaceModifier
  | staticMember
  | compoundTargets
  | badInteger (text : String)
  | badFloat (text : String)
deriving DecidableEq, Repr

/-- The text of a problem. -/
def SyntaxError.message : SyntaxError → String
  | lexical m => m
  | expected k t => "expected " ++ k.name ++ ", got " ++ t.describe
  | expectedType t => "expected type, got " ++ t.describe
  | expectedFunc t => "expected 'func', got " ++ t.describe
  | expectedAssign t => "expected '=', got " ++ t.describe
  | unexpected t => "unexpected " ++ t.describe
  | afterType t => "unexpected " ++ t.describe ++ " after type"
  | classModifier => "invalid modifier on class"
  | interfaceModifier => "invalid modifier on interface method"
  | staticMember => "static class members are not supported"
  | compoundTargets => "compound assignment needs a single target"
  | badInteger s => "invalid integer literal " ++ s
  | badFloat s => "invalid float literal " ++ s

/-- A place in a token list: the tokens to come, the token that marks the end, how many tokens have been
read, where the last of them ended, and the problems found so far. -/
structure Cursor where
  file : String
  rest : List Token
  eof : Token
  index : Nat
  last : Option Pos
  problems : List Diagnostic
deriving Inhabited

namespace Cursor

/-- The token at the cursor. -/
def current (c : Cursor) : Token := c.rest.headD c.eof

/-- The token after the one at the cursor. -/
def following (c : Cursor) : Token := c.rest.tail.headD c.eof

/-- Move over one token; the end stays where it is. -/
def advance (c : Cursor) : Cursor :=
  match c.rest with
  | [] => c
  | t :: rest => { c with rest := rest, index := c.index + 1, last := some t.span.stop }

/-- Note a problem at a span. -/
def note (c : Cursor) (span : Span) (e : SyntaxError) : Cursor :=
  { c with problems := c.problems ++ [⟨.syntaxError, c.file, span.range, e.message⟩] }

/-- Skip up to and including the next semicolon, or up to the next closing brace or the end. A closing
brace that stands where reading started is skipped too, so that skipping always moves on. -/
def skip (start : Nat) (c : Cursor) : Cursor :=
  match _h : c.rest with
  | [] => c
  | t :: _ =>
    if t.kind = .semicolon then c.advance
    else if t.kind = .rbrace then (if c.index = start then c.advance else c)
    else skip start c.advance
termination_by c.rest.length
decreasing_by simp [advance, _h]

/-- The cursor at the start of a source text. Pieces of text that are no tokens are noted and left
out. -/
def start (file : String) (src : Bytes) : Cursor :=
  let tokens := Token.scan src
  let errors := tokens.filter (·.kind = .error)
  let words := tokens.filter (fun t => t.kind ≠ .error ∧ t.kind ≠ .eof)
  let eof := (tokens.find? (·.kind = .eof)).getD default
  { file, rest := words, eof, index := 0, last := none,
    problems := errors.map fun t =>
      ⟨.syntaxError, file, t.span.range, (SyntaxError.lexical t.text).message⟩ }

end Cursor

/-- A reader of tokens that may give up; the problems it noted stay noted. -/
abbrev Parse := OptionT (StateM Cursor)

namespace Parse

/-- The token at the cursor. -/
def current : Parse Token := return (← get).current

/-- Whether the token at the cursor has a kind. -/
def sees (k : Kind) : Parse Bool := return (← current).kind = k

/-- Whether the token after the one at the cursor has a kind. -/
def seesNext (k : Kind) : Parse Bool := return (← get).following.kind = k

/-- Move over one token. -/
def advance : Parse Unit := modify Cursor.advance

/-- Move over the token at the cursor if it has a kind. -/
def accept (k : Kind) : Parse Bool := do
  if ← sees k then
    advance
    return true
  else return false

/-- Note a problem at the token at the cursor and give up. -/
def fail {α : Type} (e : SyntaxError) : Parse α := do
  modify fun c => c.note c.current.span e
  failure

/-- Move over the token at the cursor, which must have a kind. -/
def expect (k : Kind) : Parse Token := do
  let t ← current
  if t.kind = k then
    advance
    return t
  else fail (.expected k t)

/-- Move over a name and give its text. -/
def expectName : Parse String := return (← expect .ident).text

/-- Where the token at the cursor starts. -/
def here : Parse Pos := return (← current).span.start

/-- The span from a place to the end of the last token read. -/
def spanFrom (start : Pos) : Parse Span := return ⟨start, (← get).last.getD start⟩

/-- Run a reader; if it gives up, skip to a place where reading can go on. -/
def guarded {α : Type} (p : Parse α) : Parse (Option α) := fun c =>
  match p c with
  | (some x, c') => (some (some x), c')
  | (none, c') => (some none, c'.skip c.index)

/-- Run a reader; if it gives up, stay where the cursor was, with the problems that were noted there. -/
def attempt {α : Type} (p : Parse α) : Parse (Option α) := fun c =>
  match p c with
  | (some x, c') => (some (some x), c')
  | (none, _) => (some none, c)

/-- Run a reader and go back to where the cursor was. -/
def lookahead {α : Type} (p : Parse α) : Parse (Option α) := fun c => (some (p c).1, c)

/-- How many rounds a loop can make that reads a token a round. -/
def rounds : Parse Nat := return (← get).rest.length + 1

/-- Repeat a reader until a token of one of some kinds, at most a number of times. -/
def repeatUntil {α : Type} (stop : List Kind) (p : Parse (Option α)) : Nat → Parse (List α)
  | 0 => return []
  | n + 1 => do
    if (← current).kind ∈ stop then return []
    match ← p with
    | some x => return x :: (← repeatUntil stop p n)
    | none => repeatUntil stop p n

/-- Items with commas between them up to a closing token; a comma may follow the last item. -/
def itemsUntil {α : Type} (close : Kind) (p : Parse α) : Nat → Parse (List α)
  | 0 => return []
  | n + 1 => do
    if ← sees close then return []
    let x ← p
    if ← accept .comma then return x :: (← itemsUntil close p n)
    return [x]

/-- One or more items with separators between them. -/
def items {α : Type} (separator : Kind) (p : Parse α) : Nat → Parse (List α)
  | 0 => return []
  | n + 1 => do
    let x ← p
    if ← accept separator then return x :: (← items separator p n)
    return [x]

/-- Every item of a block, going on after items that cannot be read. -/
def blockItems {α : Type} (p : Parse α) : Parse (List α) := do
  repeatUntil [.rbrace, .eof] (guarded p) (← rounds)

/-- Items with commas between them up to a closing token. -/
def listUntil {α : Type} (close : Kind) (p : Parse α) : Parse (List α) := do
  itemsUntil close p (← rounds)

/-- One or more items with commas between them. -/
def commaList {α : Type} (p : Parse α) : Parse (List α) := do items .comma p (← rounds)

end Parse

end Weft.Tree
