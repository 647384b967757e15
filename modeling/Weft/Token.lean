import Weft.Position
import Weft.Text.Quoted

/-!
# Tokens

The words of the language: names, literals, punctuation, operators and reserved words. A piece of text
that is none of them becomes an error token whose literal is the message.
-/

namespace Weft

/-- The kinds of token. -/
inductive Kind where
  | eof | error
  | ident | int | float | string
  | lparen | rparen | lbracket | rbracket | lbrace | rbrace | comma | semicolon | colon | dot
  | assign | plusAssign | minusAssign | mulAssign | divAssign
  | plus | minus | star | slash | percent | eq | ne | lt | le | gt | ge | andAnd | orOr | not
  | kwNamespace | kwImport | kwFunc | kwCoro | kwClass | kwInterface | kwEnum | kwStatic
  | kwVirtual | kwOverride | kwVar | kwReturn | kwBreak | kwContinue | kwIf | kwElse | kwWhile
  | kwDo | kwFor | kwYield | kwParal | kwParalAll | kwSeq | kwDefer | kwNew | kwIs | kwAs | kwRef
  | kwNull | kwTrue | kwFalse | kwThis | kwBase
deriving DecidableEq, Repr, Inhabited

namespace Kind

/-- The reserved words with their kinds. -/
def reserved : List (String × Kind) :=
  [("namespace", kwNamespace), ("import", kwImport), ("func", kwFunc), ("coro", kwCoro),
   ("class", kwClass), ("interface", kwInterface), ("enum", kwEnum), ("static", kwStatic),
   ("virtual", kwVirtual), ("override", kwOverride), ("var", kwVar), ("return", kwReturn),
   ("break", kwBreak), ("continue", kwContinue), ("if", kwIf), ("else", kwElse),
   ("while", kwWhile), ("do", kwDo), ("for", kwFor), ("yield", kwYield), ("paral", kwParal),
   ("paral_all", kwParalAll), ("seq", kwSeq), ("defer", kwDefer), ("new", kwNew), ("is", kwIs),
   ("as", kwAs), ("ref", kwRef), ("null", kwNull), ("true", kwTrue), ("false", kwFalse),
   ("this", kwThis), ("base", kwBase)]

/-- The kinds that are not reserved words, with the names that messages use. -/
def unreserved : List (String × Kind) :=
  [("EOF", eof), ("ERROR", error), ("IDENT", ident), ("INT", int), ("FLOAT", float),
   ("STRING", string), ("(", lparen), (")", rparen), ("[", lbracket), ("]", rbracket),
   ("\x7b", lbrace), ("\x7d", rbrace), (",", comma), (";", semicolon), (":", colon), (".", dot),
   ("=", assign), ("+=", plusAssign), ("-=", minusAssign), ("*=", mulAssign), ("/=", divAssign),
   ("+", plus), ("-", minus), ("*", star), ("/", slash), ("%", percent), ("==", eq), ("!=", ne),
   ("<", lt), ("<=", le), (">", gt), (">=", ge), ("&&", andAnd), ("||", orOr), ("!", not)]

/-- Every kind with its name, in the order of the kinds' numbers. -/
def table : List (String × Kind) := unreserved ++ reserved

/-- The name of a kind in messages: the word or operator itself, or a class of words. -/
def name (k : Kind) : String :=
  match table.find? (fun e => e.2 = k) with
  | some e => e.1
  | none => ""

/-- The kind of a reserved word. -/
def ofWord? (w : String) : Option Kind := (reserved.find? (fun e => e.1 = w)).map Prod.snd

/-- Whether a word is reserved. -/
def isReserved (w : String) : Bool := (ofWord? w).isSome

/-- The name of the kind with a given number; numbers outside the table are shown as such. -/
def nameOfNumber (n : Int) : String :=
  if n < 0 then s!"Token({n})"
  else match table[n.toNat]? with
    | some e => e.1
    | none => s!"Token({n})"

end Kind

/-- A token with its text and its place. The text of a string token is its value without quotes and
escapes; the text of an error token is the message. -/
structure Token where
  kind : Kind
  text : String
  span : Span
deriving DecidableEq, Repr, Inhabited

namespace Token

/-- A token as it is listed: its kind and at most the first twenty bytes of its text. -/
def listing (t : Token) : String :=
  match t.kind with
  | .eof => "EOF"
  | .error => "ERROR(" ++ t.text ++ ")"
  | k =>
    if 20 < t.text.utf8ByteSize then
      k.name ++ "(" ++ Text.quoteBytes ((Text.encode t.text).take 20) ++ "...)"
    else k.name ++ "(" ++ Text.quote t.text ++ ")"

/-- A token as a message mentions it. -/
def describe (t : Token) : String :=
  match t.kind with
  | .ident | .int | .float => "'" ++ t.text ++ "'"
  | .string => Text.quote t.text
  | .eof => "end of file"
  | k => "'" ++ k.name ++ "'"

end Token

end Weft
