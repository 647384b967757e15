import Weft.Text.Glyph
import Weft.Text.Printable

/-!
# Quoted text

A quoted text stands between double quotes. Printable characters are shown as they are, the quote and
the backslash after a backslash, the seven common control characters by a letter, and everything else
by its number: two digits for a control character or an invalid byte, four or eight for a code point.
-/

namespace Weft.Text

/-- The last `n` hexadecimal digits of a number, most significant first. -/
def hexDigits : Nat → Nat → String
  | 0, _ => ""
  | n + 1, v => hexDigits n (v / 16) ++ String.singleton (Nat.digitChar (v % 16))

/-- A character inside a quoted text. -/
def quoteChar (c : Char) : String :=
  if c = '"' then "\\\""
  else if c = '\\' then "\\\\"
  else if isPrintable c then String.singleton c
  else match c.toNat with
    | 7 => "\\a"
    | 8 => "\\b"
    | 9 => "\\t"
    | 10 => "\\n"
    | 11 => "\\v"
    | 12 => "\\f"
    | 13 => "\\r"
    | n =>
      if n < 0x20 || n = 0x7F then "\\x" ++ hexDigits 2 n
      else if n < 0x10000 then "\\u" ++ hexDigits 4 n
      else "\\U" ++ hexDigits 8 n

/-- A glyph inside a quoted text. -/
def quoteGlyph : Glyph → String
  | .char c => quoteChar c
  | .invalid b => "\\x" ++ hexByte b

/-- A byte sequence as a quoted text. -/
def quoteBytes (b : Bytes) : String :=
  "\"" ++ String.join ((glyphs b).map quoteGlyph) ++ "\""

/-- A text as a quoted text. -/
def quote (s : String) : String :=
  "\"" ++ String.join (s.toList.map quoteChar) ++ "\""

end Weft.Text
