import Weft.Text.Glyph
import Weft.Toml.Scalar

/-!
# Reading settings files

The lines of a settings file: headers in brackets and entries of a dotted key and a value. Texts stand in
double quotes with escapes or in single quotes without, in three of them over several lines. Lists and
inline tables may run over several lines, hold comments and end with a comma.
-/

namespace Weft.Toml

/-- A reader of a part of a file, which gives the characters behind it. -/
abbrev Reader (α : Type) := StateT (List Char) Option α

namespace Reader

/-- Whether a character ends a line. -/
def isNewline (c : Char) : Bool := c = '\n' || c = '\r'

/-- Whether a character is a blank inside a line. -/
def isBlank (c : Char) : Bool := c = ' ' || c = '\t'

/-- The next character, without taking it. -/
def peek : Reader (Option Char) := return (← get).head?

/-- Take a character. -/
def char (c : Char) : Reader PUnit := do
  match ← get with
  | d :: rest => if c = d then set rest else failure
  | [] => failure

/-- Take a character if it is next. -/
def optional (c : Char) : Reader Bool := do
  if (← peek) = some c then
    char c
    return true
  return false

/-- Skip blanks inside a line. -/
def blanks : Reader PUnit := modify (·.dropWhile isBlank)

/-- Skip a comment, if there is one. -/
def comment : Reader PUnit := do
  if (← peek) = some '#' then modify (·.dropWhile fun c => !isNewline c)

/-- Skip blanks, comments and ends of lines. The argument bounds the number of lines. -/
def gaps : Nat → Reader PUnit
  | 0 => return
  | n + 1 => do
    blanks
    comment
    if ((← peek).map isNewline).getD false then
      modify (·.dropWhile isNewline)
      gaps n

/-- Skip everything that means nothing. -/
def gap : Reader PUnit := do gaps ((← get).length + 1)

/-- The end of a line. -/
def lineEnd : Reader PUnit := do
  blanks
  comment
  match ← peek with
  | none => return
  | some c => if !isNewline c then failure

end Reader

open Reader

/-- The character with a number in hexadecimal digits. -/
def codePoint? (digits : List Char) : Option Char :=
  if digits.all (isDigitIn 16) then
    let n := digitsIn 16 digits
    if n.isValidChar then some (Char.ofNat n) else none
  else none

/-- The character of an escape and what stands behind it. -/
def escape? : List Char → Option (Char × List Char)
  | 'b' :: r => some ('\x08', r)
  | 't' :: r => some ('\t', r)
  | 'n' :: r => some ('\n', r)
  | 'f' :: r => some ('\x0c', r)
  | 'r' :: r => some ('\r', r)
  | 'e' :: r => some ('\x1b', r)
  | '"' :: r => some ('"', r)
  | '\\' :: r => some ('\\', r)
  | 'x' :: a :: b :: r => (codePoint? [a, b]).map (·, r)
  | 'u' :: a :: b :: c :: d :: r => (codePoint? [a, b, c, d]).map (·, r)
  | 'U' :: a :: b :: c :: d :: e :: f :: g :: h :: r => (codePoint? [a, b, c, d, e, f, g, h]).map (·, r)
  | _ => none

/-- The characters of a text up to its quote. Only double quotes know escapes. The first argument bounds
their number. -/
def quoted (quote : Char) : Nat → List Char → Option (List Char × List Char)
  | 0, _ | _, [] => none
  | n + 1, c :: rest =>
    if c = quote then some ([], rest)
    else if isNewline c then none
    else do
      let (c, rest) ← if c = '\\' ∧ quote = '"' then escape? rest else some (c, rest)
      let (cs, rest) ← quoted quote n rest
      return (c :: cs, rest)

/-- What stands behind a backslash at the end of a line and the blanks and lines after it. -/
def lineJoin? (cs : List Char) : Option (List Char) :=
  let skipped := cs.takeWhile fun c => isBlank c || isNewline c
  if skipped.any isNewline then some (cs.dropWhile fun c => isBlank c || isNewline c) else none

/-- The characters of a text over several lines up to three quotes; one or two more belong to the text. The
first argument bounds their number. -/
def longQuoted (quote : Char) : Nat → List Char → Option (List Char × List Char)
  | 0, _ | _, [] => none
  | n + 1, c :: rest =>
    if c = quote then
      let run := (c :: rest).takeWhile (· = quote)
      if run.length < 3 then do
        let (cs, rest) ← longQuoted quote n rest
        return (c :: cs, rest)
      else if 5 < run.length then none
      else some (run.drop 3, (c :: rest).dropWhile (· = quote))
    else if c = '\\' ∧ quote = '"' then
      match lineJoin? rest with
      | some rest => longQuoted quote n rest
      | none => do
        let (c, rest) ← escape? rest
        let (cs, rest) ← longQuoted quote n rest
        return (c :: cs, rest)
    else do
      let (cs, rest) ← longQuoted quote n rest
      return (c :: cs, rest)

/-- A text without the end of line that it starts with. -/
def dropFirstNewline : List Char → List Char
  | '\r' :: '\n' :: rest | '\n' :: rest => rest
  | cs => cs

/-- Read a text behind its first quote. -/
def shortText (quote : Char) : Reader String := fun cs => do
  let (text, rest) ← quoted quote (cs.length + 1) cs
  return (String.ofList text, rest)

/-- Read a text in quotes. -/
def text (quote : Char) : Reader String := do
  char quote
  match ← get with
  | a :: b :: rest =>
    if a = quote ∧ b = quote then fun _ => do
      let cs := dropFirstNewline rest
      let (text, rest) ← longQuoted quote (cs.length + 1) cs
      return (String.ofList text, rest)
    else shortText quote
  | _ => shortText quote

/-- Whether a character may stand in a key without quotes. -/
def isKeyChar (c : Char) : Bool := c.isAlphanum || c = '_' || c = '-'

/-- Read a part of a key. -/
def keyPart : Reader String := do
  match ← peek with
  | some '"' =>
    char '"'
    shortText '"'
  | some '\'' =>
    char '\''
    shortText '\''
  | _ =>
    let cs ← get
    let part := cs.takeWhile isKeyChar
    if part.isEmpty then failure
    set (cs.dropWhile isKeyChar)
    return String.ofList part

/-- Read a dotted key with blanks around its parts. The argument bounds the number of parts. -/
def keyParts : Nat → Reader (List String)
  | 0 => failure
  | n + 1 => do
    blanks
    let first ← keyPart
    blanks
    if ← optional '.' then return first :: (← keyParts n)
    return [first]

/-- Read a dotted key. -/
def key : Reader (List String) := do keyParts ((← get).length + 1)

/-- Whether a character may stand in a word without quotes. -/
def isWordChar (c : Char) : Bool := c.isAlphanum || c = '_' || c = '+' || c = '-' || c = '.' || c = ':'

/-- Read a word without quotes. A date and a time of day may be divided by a blank. -/
def word : Reader Value := do
  let cs ← get
  let first := cs.takeWhile isWordChar
  let rest := cs.dropWhile isWordChar
  let (found, rest) := match rest with
    | ' ' :: d :: more =>
      if d.isDigit && afterDate? first == some [] then
        (first ++ ' ' :: (d :: more).takeWhile isWordChar, (d :: more).dropWhile isWordChar)
      else (first, rest)
    | _ => (first, rest)
  set rest
  fun s => (scalar? found).map (·, s)

/-- Read the elements of a list up to its bracket. The first argument bounds their number. -/
def elements (value : Reader Value) : Nat → Reader (List Value)
  | 0 => failure
  | n + 1 => do
    gap
    if ← optional ']' then return []
    let first ← value
    gap
    if ← optional ',' then return first :: (← elements value n)
    char ']'
    return [first]

/-- Read the entries of an inline table up to its brace. The first argument bounds their number. -/
def members (value : Reader Value) : Nat → Reader (List Line)
  | 0 => failure
  | n + 1 => do
    gap
    if ← optional '\x7d' then return []
    let k ← key
    char '='
    blanks
    let first := Line.entry k (← value)
    gap
    if ← optional ',' then return first :: (← members value n)
    char '\x7d'
    return [first]

/-- Read a value, with lists and tables inside it up to a depth. -/
def value : Nat → Reader Value
  | 0 => failure
  | depth + 1 => do
    blanks
    match ← peek with
    | some '"' => return .string (← text '"')
    | some '\'' => return .string (← text '\'')
    | some '[' =>
      char '['
      return .array (← elements (value depth) ((← get).length + 1))
    | some '\x7b' =>
      char '\x7b'
      let lines ← members (value depth) ((← get).length + 1)
      fun s => (tableOf? lines).map fun t => (.table t, s)
    | _ => word

/-- Read a line that is not empty. -/
def line : Reader Line := do
  if ← optional '[' then
    let next ← optional '['
    let k ← key
    char ']'
    if next then char ']'
    lineEnd
    return if next then .next k else .header k
  let k ← key
  char '='
  let v ← value ((← get).length + 1)
  lineEnd
  return .entry k v

/-- Read the lines of a file. The argument bounds their number. -/
def lines : Nat → Reader (List Line)
  | 0 => failure
  | n + 1 => do
    gap
    if (← get).isEmpty then return []
    return (← line) :: (← lines n)

/-- Whether every control character is a tab or part of the end of a line. -/
def isPlain : List Char → Bool
  | [] => true
  | '\r' :: '\n' :: rest => isPlain rest
  | c :: rest => (c = '\t' || c = '\n' || (0x20 ≤ c.toNat && c.toNat ≠ 0x7F)) && isPlain rest

/-- The table of a settings file. A mark of the byte order at its start is skipped. -/
def parse? (b : Bytes) : Option Table := do
  let s ← Text.decode? b
  let cs := match s.toList with
    | '\uFEFF' :: rest => rest
    | cs => cs
  if !isPlain cs then none
  let (ls, _) ← (lines (cs.length + 1)).run cs
  tableOf? ls

end Weft.Toml
