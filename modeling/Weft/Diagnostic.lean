import Weft.Position
import Weft.Text.Quoted

/-!
# Diagnostics

A diagnostic is a problem that a user is told about: its kind, the file and the place, and a message.
Every stage collects them in a list and goes on as far as it can.
-/

namespace Weft

/-- What kind of problem a diagnostic reports. Numbers beyond the four kinds in use are kept. -/
inductive Severity where
  | syntaxError
  | semanticError
  | buildError
  | symbolCollision
  | other (code : Int)
deriving DecidableEq, Repr, Inhabited

namespace Severity

/-- The kind with a number. -/
def ofNumber : Int → Severity
  | 0 => syntaxError
  | 1 => semanticError
  | 2 => buildError
  | 3 => symbolCollision
  | n => other n

/-- The name of a kind. -/
def name : Severity → String
  | syntaxError => "syntax error"
  | semanticError => "semantic error"
  | buildError => "build error"
  | symbolCollision => "symbol collision"
  | other n => s!"Kind({n})"

end Severity

/-- A problem that a user is told about. -/
structure Diagnostic where
  kind : Severity
  file : String
  range : Range
  message : String
deriving DecidableEq, Repr, Inhabited

namespace Diagnostic

/-- A diagnostic as one line: the place, if there is one, the kind and the message. -/
def text (d : Diagnostic) : String :=
  let place :=
    if d.file = "" then ""
    else if d.range.isEmpty then d.file ++ ": "
    else d.file ++ s!":{d.range.start.line}:{d.range.start.column}: "
  place ++ d.kind.name ++ ": " ++ d.message

/-- The text of a list of diagnostics, one a line. -/
def listText (ds : List Diagnostic) : String := "\n".intercalate (ds.map text)

/-- How many diagnostics of a list have a kind. -/
def count (kind : Severity) (ds : List Diagnostic) : Nat := (ds.filter (·.kind = kind)).length

/-- Whether a diagnostic may stand before another: by file, then line, then column. -/
def le (a b : Diagnostic) : Bool :=
  if a.file ≠ b.file then a.file < b.file
  else if a.range.start.line ≠ b.range.start.line then a.range.start.line < b.range.start.line
  else a.range.start.column ≤ b.range.start.column

/-- A list of diagnostics by file and place; those at one place keep their order. -/
def sort (ds : List Diagnostic) : List Diagnostic := ds.mergeSort le

end Diagnostic

end Weft

/-! ## Diagnostics as JSON lines

One object a line. The range is left out when a diagnostic points nowhere. Text is escaped so that it
can stand inside a web page: the angle brackets, the ampersand and the two Unicode line separators are
written by number.
-/

namespace Weft.Diagnostic

/-- A character inside a JSON string. -/
def jsonChar (c : Char) : String :=
  match c with
  | '"' => "\\\""
  | '\\' => "\\\\"
  | '\n' => "\\n"
  | '\r' => "\\r"
  | '\t' => "\\t"
  | c =>
    let n := c.toNat
    if n < 0x20 || c = '<' || c = '>' || c = '&' || n = 0x2028 || n = 0x2029 then
      "\\u" ++ Text.hexDigits 4 n
    else String.singleton c

/-- A text as a JSON string. -/
def jsonString (s : String) : String := "\"" ++ String.join (s.toList.map jsonChar) ++ "\""

/-- A line and a column as a JSON object. -/
def jsonPlace (p : LineColumn) : String :=
  "\x7b\"line\":" ++ toString p.line ++ ",\"column\":" ++ toString p.column ++ "\x7d"

/-- The range of a diagnostic as a JSON member, if it points anywhere. -/
def jsonRange (r : Range) : String :=
  if r.isEmpty then ""
  else "\"range\":\x7b\"start\":" ++ jsonPlace r.start ++ ",\"end\":" ++ jsonPlace r.stop ++ "\x7d,"

/-- A diagnostic as one line of JSON. -/
def jsonLine (d : Diagnostic) : String :=
  "\x7b\"kind\":" ++ jsonString d.kind.name ++ ",\"file\":" ++ jsonString d.file ++ "," ++
    jsonRange d.range ++ "\"message\":" ++ jsonString d.message ++ "\x7d\n"

/-- A list of diagnostics as JSON lines. -/
def jsonLines (ds : List Diagnostic) : String := String.join (ds.map jsonLine)

end Weft.Diagnostic
