import Weft.Text.Classes
import Weft.Token

/-!
# Cutting source text into tokens

`Token.scan` lists the tokens of a source text, the last of which marks its end. Blanks and comments
separate tokens. A byte zero ends the text. Text that starts no token gives an error token, and reading
goes on behind it, so every text has a token list.
-/

namespace Weft

open Text (Glyph)

/-- The place after a glyph. -/
def Pos.step (p : Pos) (g : Glyph) : Pos :=
  if g.shown = '\n' then ⟨p.offset + g.width, p.line + 1, 1⟩
  else ⟨p.offset + g.width, p.line, p.column + g.width⟩

/-- The place after a list of glyphs. -/
def Pos.after (p : Pos) (gs : List Glyph) : Pos := gs.foldl Pos.step p

namespace Lexer

/-- Whether a character is one of the ten decimal digits. -/
def isDigit (c : Char) : Bool := '0' ≤ c && c ≤ '9'

/-- Whether a character is a hexadecimal digit. -/
def isHexDigit (c : Char) : Bool := isDigit c || ('a' ≤ c && c ≤ 'f') || ('A' ≤ c && c ≤ 'F')

/-- Whether a character may start a name. -/
def startsName (c : Char) : Bool := c = '_' || Text.isLetter c

/-- Whether a character may continue a name. -/
def continuesName (c : Char) : Bool := startsName c || isDigit c

/-- Whether a character separates tokens. -/
def isSeparator (c : Char) : Bool := c = ' ' || c = '\t' || c = '\n' || c = '\r'

/-- What starts at a character: a token with its text, or a comment. -/
inductive Found where
  | token (kind : Kind) (text : String)
  | comment
deriving DecidableEq, Repr

/-- What starts at a character and how many of the characters after the first belong to it. -/
structure Lexeme where
  found : Found
  extra : Nat
deriving DecidableEq, Repr

/-- How many characters at the start of a list satisfy a test. -/
def count (p : Char → Bool) (cs : List Char) : Nat := (cs.takeWhile p).length

/-- The number of characters up to and including the end of a block comment. -/
def commentEnd? : List Char → Option Nat
  | '*' :: '/' :: _ => some 2
  | _ :: cs => (commentEnd? cs).map (· + 1)
  | [] => none

/-- A symbol that an equals sign may lengthen. -/
def withEquals (c : Char) (single double : Kind) (cs : List Char) : Lexeme :=
  match cs with
  | '=' :: _ => ⟨.token double (String.ofList [c, '=']), 1⟩
  | _ => ⟨.token single (String.singleton c), 0⟩

/-- A character that starts no token. -/
def unexpected (c : Char) : Lexeme :=
  ⟨.token .error ("unexpected character: " ++ String.singleton c), 0⟩

/-- The character that a letter after a backslash stands for. -/
def escape? : Char → Option Char
  | 'n' => some '\n'
  | 't' => some '\t'
  | 'r' => some '\r'
  | '\\' => some '\\'
  | '"' => some '"'
  | _ => none

/-- The rest of a string after its opening quote, given how many characters and what text came before.
An escape that does not exist ends the token before the offending character; the end of the line or of
the text ends it there. -/
def stringRest (extra : Nat) (text : List Char) : List Char → Lexeme
  | '"' :: _ => ⟨.token .string (String.ofList text.reverse), extra + 1⟩
  | '\\' :: c :: cs =>
    match escape? c with
    | some e => stringRest (extra + 2) (e :: text) cs
    | none => ⟨.token .error ("invalid escape: \\" ++ String.singleton c), extra + 1⟩
  | ['\\'] => ⟨.token .error ("invalid escape: \\" ++ String.singleton (Char.ofNat 0)), extra + 1⟩
  | '\n' :: _ => ⟨.token .error "unterminated string", extra⟩
  | c :: cs => stringRest (extra + 1) (c :: text) cs
  | [] => ⟨.token .error "unterminated string", extra⟩

/-- How many characters of an exponent stand at the start of a list; its digits may be missing. -/
def exponentLength : List Char → Nat
  | e :: cs =>
    if e = 'e' ∨ e = 'E' then
      match cs with
      | s :: ds => if s = '+' ∨ s = '-' then 2 + count isDigit ds else 1 + count isDigit cs
      | [] => 1
    else 0
  | [] => 0

/-- How many characters of a fraction stand at the start of a list: a point followed by a digit. -/
def fractionLength : List Char → Nat
  | '.' :: d :: ds => if isDigit d then 2 + count isDigit ds else 0
  | _ => 0

/-- A number that starts with a digit, or with a point before a digit. -/
def number (c : Char) (cs : List Char) : Lexeme :=
  let hex := match cs with
    | x :: ds => if c = '0' ∧ (x = 'x' ∨ x = 'X') then some (1 + count isHexDigit ds) else none
    | [] => none
  match hex with
  | some n => ⟨.token .int (String.ofList (c :: cs.take n)), n⟩
  | none =>
    let all := c :: cs
    let whole := count isDigit all
    let fraction := fractionLength (all.drop whole)
    let exponent := exponentLength (all.drop (whole + fraction))
    let length := whole + fraction + exponent
    let kind := if fraction = 0 ∧ exponent = 0 then Kind.int else Kind.float
    ⟨.token kind (String.ofList (all.take length)), length - 1⟩

/-- A name or a reserved word. -/
def word (c : Char) (cs : List Char) : Lexeme :=
  let n := count continuesName cs
  let text := String.ofList (c :: cs.take n)
  ⟨.token ((Kind.ofWord? text).getD .ident) text, n⟩

/-- A token of one character. -/
def single (kind : Kind) (c : Char) : Lexeme := ⟨.token kind (String.singleton c), 0⟩

/-- What starts at a character that is no separator. -/
def lexeme (c : Char) (cs : List Char) : Lexeme :=
  match c, cs with
  | '/', '/' :: rest => ⟨.comment, 1 + count (· ≠ '\n') rest⟩
  | '/', '*' :: rest =>
    match commentEnd? rest with
    | some n => ⟨.comment, 1 + n⟩
    | none => ⟨.token .error "unterminated comment", 1 + rest.length⟩
  | '(', _ => single .lparen c
  | ')', _ => single .rparen c
  | '[', _ => single .lbracket c
  | ']', _ => single .rbracket c
  | '\x7b', _ => single .lbrace c
  | '\x7d', _ => single .rbrace c
  | ',', _ => single .comma c
  | ';', _ => single .semicolon c
  | ':', _ => single .colon c
  | '.', d :: _ => if isDigit d then number c cs else single .dot c
  | '.', [] => single .dot c
  | '=', _ => withEquals c .assign .eq cs
  | '+', _ => withEquals c .plus .plusAssign cs
  | '-', _ => withEquals c .minus .minusAssign cs
  | '*', _ => withEquals c .star .mulAssign cs
  | '/', _ => withEquals c .slash .divAssign cs
  | '%', _ => single .percent c
  | '!', _ => withEquals c .not .ne cs
  | '<', _ => withEquals c .lt .le cs
  | '>', _ => withEquals c .gt .ge cs
  | '&', '&' :: _ => ⟨.token .andAnd "&&", 1⟩
  | '|', '|' :: _ => ⟨.token .orOr "||", 1⟩
  | '"', _ => stringRest 0 [] cs
  | _, _ =>
    if isDigit c then number c cs
    else if startsName c then word c cs
    else unexpected c

/-- The tokens of the glyphs from a place on. The characters that the glyphs show are carried along, since
lexemes are read from characters and listing them anew at every token would take quadratic time. -/
def tokensAt (p : Pos) : List Glyph → List Char → List Token
  | [], _ => [⟨.eof, "", ⟨p, p⟩⟩]
  | g :: gs, shown =>
    if isSeparator g.shown then tokensAt (p.step g) gs (shown.drop 1)
    else
      let l := lexeme g.shown (shown.drop 1)
      let stop := p.after (g :: gs.take l.extra)
      let rest := gs.drop l.extra
      let shown := shown.drop (l.extra + 1)
      match l.found with
      | .comment => tokensAt stop rest shown
      | .token kind text => ⟨kind, text, ⟨p, stop⟩⟩ :: tokensAt stop rest shown
termination_by gs => gs.length
decreasing_by
  · simp
  · simp only [List.length_drop, List.length_cons]; omega
  · simp only [List.length_drop, List.length_cons]; omega

/-- The tokens of the glyphs from a place on. -/
def tokensFrom (p : Pos) (gs : List Glyph) : List Token := tokensAt p gs (gs.map Glyph.shown)

end Lexer

/-- The part of a source text before its first byte zero. -/
def readable (src : Bytes) : List Glyph := (Text.glyphs src).takeWhile (· ≠ .char (Char.ofNat 0))

/-- The tokens of a source text; the last one is its end. -/
def Token.scan (src : Bytes) : List Token := Lexer.tokensFrom .start (readable src)

end Weft
