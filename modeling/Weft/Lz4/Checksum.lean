import Weft.Text.Glyph

/-!
# Checksums of 32 bits

The checksum that guards compressed data: four lanes take turns over stripes of sixteen bytes, then the
rest is mixed in word by word and byte by byte, and the bits are scattered.
-/

namespace Weft.Lz4.Checksum

/-- The five odd multipliers. -/
def prime1 : UInt32 := 2654435761

@[inherit_doc prime1]
def prime2 : UInt32 := 2246822519

@[inherit_doc prime1]
def prime3 : UInt32 := 3266489917

@[inherit_doc prime1]
def prime4 : UInt32 := 668265263

@[inherit_doc prime1]
def prime5 : UInt32 := 374761393

/-- Rotate a word to the left. -/
def rotate (x : UInt32) (n : UInt32) : UInt32 := (x <<< n) ||| (x >>> (32 - n))

/-- A word of four bytes, the lowest first. -/
def word (a b c d : UInt8) : UInt32 :=
  a.toUInt32 ||| (b.toUInt32 <<< 8) ||| (c.toUInt32 <<< 16) ||| (d.toUInt32 <<< 24)

/-- The whole words of a byte sequence and the bytes behind them. -/
def words : Bytes → List UInt32 × Bytes
  | a :: b :: c :: d :: rest =>
    let (ws, tail) := words rest
    (word a b c d :: ws, tail)
  | tail => ([], tail)

/-- Mix a word into a lane. -/
def lane (acc w : UInt32) : UInt32 := rotate (acc + w * prime2) 13 * prime1

/-- Mix whole stripes into the four lanes, and give the words behind them. -/
def stripes (v1 v2 v3 v4 : UInt32) : List UInt32 → (UInt32 × UInt32 × UInt32 × UInt32) × List UInt32
  | a :: b :: c :: d :: rest => stripes (lane v1 a) (lane v2 b) (lane v3 c) (lane v4 d) rest
  | ws => ((v1, v2, v3, v4), ws)

/-- Scatter the bits. -/
def scatter (h : UInt32) : UInt32 :=
  let h := (h ^^^ (h >>> 15)) * prime2
  let h := (h ^^^ (h >>> 13)) * prime3
  h ^^^ (h >>> 16)

/-- The checksum of a byte sequence. -/
def sum (b : Bytes) : UInt32 :=
  let (ws, tail) := words b
  let ((v1, v2, v3, v4), ws') := stripes (prime1 + prime2) prime2 0 (0 - prime1) ws
  let start := if ws.length < 4 then prime5 else rotate v1 1 + rotate v2 7 + rotate v3 12 + rotate v4 18
  let h := start + b.length.toUInt32
  let h := ws'.foldl (fun h w => rotate (h + w * prime3) 17 * prime4) h
  let h := tail.foldl (fun h x => rotate (h + x.toUInt32 * prime5) 11 * prime1) h
  scatter h

end Weft.Lz4.Checksum
