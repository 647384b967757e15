/-!
# Places in a source text

A place has a byte offset, a line and a column; lines and columns count from one, and columns count
bytes. A span runs from the start of a piece of text to the place just past it.
-/

namespace Weft

/-- A place in a source text. -/
structure Pos where
  offset : Nat
  line : Nat
  column : Nat
deriving DecidableEq, Repr, Inhabited

/-- The start of a source text. -/
def Pos.start : Pos := ⟨0, 1, 1⟩

/-- A piece of source text. -/
structure Span where
  start : Pos
  stop : Pos
deriving DecidableEq, Repr, Inhabited

/-- A line and a column; zero means that the place is not known. -/
structure LineColumn where
  line : Int
  column : Int
deriving DecidableEq, Repr, Inhabited

/-- The part of a source text that a message points at. -/
structure Range where
  start : LineColumn
  stop : LineColumn
deriving DecidableEq, Repr, Inhabited

/-- The range of a message about a whole file. -/
def Range.none : Range := ⟨⟨0, 0⟩, ⟨0, 0⟩⟩

/-- Whether a range points nowhere. -/
def Range.isEmpty (r : Range) : Bool := r.start.line = 0 && r.stop.line = 0

/-- The line and column of a place. -/
def Pos.lineColumn (p : Pos) : LineColumn := ⟨p.line, p.column⟩

/-- The range of a span. -/
def Span.range (s : Span) : Range := ⟨s.start.lineColumn, s.stop.lineColumn⟩

end Weft
