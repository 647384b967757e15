/-!
# Bytes and the characters read from them

Source text arrives as bytes that need not be valid UTF-8. `glyphs` cuts them into characters and
single invalid bytes, so that nothing is lost: every later stage can show a character, count its
bytes, or give the bytes back.
-/

namespace Weft

/-- A byte sequence: source text, the contents of a file, an encoded program. -/
abbrev Bytes := List UInt8

namespace Text

/-- The bytes of a text in UTF-8. -/
def encode (s : String) : Bytes := s.toUTF8.toList

/-- The text that a byte sequence spells, if it is valid UTF-8. -/
def decode? (b : Bytes) : Option String := String.fromUTF8? b.toByteArray

private theorem toList_loop (b : ByteArray) (i : Nat) (r : List UInt8) :
    ByteArray.toList.loop b i r = r.reverse ++ b.data.toList.drop i := by
  fun_induction ByteArray.toList.loop b i r with
  | case1 i r h ih =>
    have hi : i < b.data.toList.length := h
    rw [ih, List.drop_eq_getElem_cons hi, List.reverse_cons, List.append_assoc, List.singleton_append]
    simp [ByteArray.get!, getElem!_def, Array.getElem?_eq_getElem (show i < b.data.size from h)]
  | case2 i r h =>
    have hi : b.data.toList.length ≤ i := Nat.le_of_not_lt h
    rw [List.drop_eq_nil_of_le hi, List.append_nil]

/-- A text is read back from its bytes. -/
theorem decode?_encode (s : String) : decode? (encode s) = some s := by
  have hbytes : (encode s).toByteArray = s.toByteArray := by
    apply ByteArray.ext
    rw [List.data_toByteArray, encode, ByteArray.toList, toList_loop]
    simp [String.toUTF8]
  unfold decode?
  rw [hbytes, String.fromUTF8?, dif_pos s.isValidUTF8]
  rfl

/-- The two lower-case hexadecimal digits of a byte. -/
def hexByte (b : UInt8) : String :=
  String.ofList [Nat.digitChar (b.toNat / 16), Nat.digitChar (b.toNat % 16)]

/-- One step of reading text: a character, or a byte that starts no valid encoding. -/
inductive Glyph where
  | char (c : Char)
  | invalid (b : UInt8)
deriving DecidableEq, Repr

namespace Glyph

/-- The bytes that a glyph was read from. -/
def bytes : Glyph → Bytes
  | char c => String.utf8EncodeChar c
  | invalid b => [b]

/-- The number of bytes that a glyph was read from. -/
def width (g : Glyph) : Nat := g.bytes.length

/-- The character that stands for a glyph in tokens and messages; an invalid byte is shown as the
replacement character. -/
def shown : Glyph → Char
  | char c => c
  | invalid _ => Char.ofNat 0xFFFD

/-- The glyph that starts a nonempty byte sequence. An invalid byte stands alone, so reading goes on
at the next byte. -/
def ofBytes (b : UInt8) (rest : Bytes) : Glyph :=
  match (b :: rest.take 3).toByteArray.utf8DecodeChar? 0 with
  | some c => char c
  | none => invalid b

/-- Every glyph takes at least one byte. -/
theorem width_pos (g : Glyph) : 0 < g.width := by
  cases g with
  | char c => simp [width, bytes, String.length_utf8EncodeChar, Char.utf8Size_pos]
  | invalid b => simp [width, bytes]

end Glyph

/-- Cut a byte sequence into glyphs. -/
def glyphs : Bytes → List Glyph
  | [] => []
  | b :: rest =>
    let g := Glyph.ofBytes b rest
    g :: glyphs (rest.drop (g.width - 1))
termination_by b => b.length
decreasing_by simp only [List.length_drop, List.length_cons]; omega

/-- The characters shown for a list of glyphs. -/
def shownText (gs : List Glyph) : String := String.ofList (gs.map Glyph.shown)

/-- The bytes of a list of glyphs. -/
def glyphBytes (gs : List Glyph) : Bytes := gs.flatMap Glyph.bytes

/-- The pieces of a text between the places where a character stands. There is one piece more than places. -/
def pieces (sep : Char) (s : String) : List String := (s.toList.splitOn sep).map String.ofList

end Text

end Weft
