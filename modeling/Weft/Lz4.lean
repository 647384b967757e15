import Std.Data.HashMap
import Weft.Lz4.Checksum
import Weft.Number.Word

/-!
# Compressed frames

A block is a list of sequences: literal bytes, and a match that repeats earlier output from some distance
back. A frame is a header, blocks that are compressed or stored as they are, and a checksum of the whole.
`compress` looks for matches greedily; `decompress?` reads any frame, with dependent blocks and block
checksums too.
-/

namespace Weft.Lz4

/-! ## Blocks -/

/-- The shortest match. -/
def minMatch : Nat := 4

/-- The bytes of a length beyond what its four bits in the token hold. -/
def lengthTail (n : Nat) : Bytes :=
  if n < 15 then [] else List.replicate ((n - 15) / 255) 255 ++ [((n - 15) % 255).toUInt8]

/-- Literals, and a match by its distance and length. -/
def writeSequence (literals : Bytes) (distance length : Nat) : Bytes :=
  let extra := length - minMatch
  (min literals.length 15 * 16 + min extra 15).toUInt8 :: lengthTail literals.length ++ literals
    ++ Number.lowBytes 2 distance ++ lengthTail extra

/-- The literals at the end of a block. -/
def writeLast (literals : Bytes) : Bytes :=
  (min literals.length 15 * 16).toUInt8 :: lengthTail literals.length ++ literals

/-- The four bytes at a position as a number. -/
def wordAt (b : Array UInt8) (i : Nat) : Nat := Number.ofLowBytes (b.extract i (i + 4)).toList

/-- How many bytes are the same at two positions, up to a number. -/
def sameLength (b : Array UInt8) (i j : Nat) : Nat → Nat
  | 0 => 0
  | n + 1 => if b[i]? = b[j]? then sameLength b (i + 1) (j + 1) n + 1 else 0

/-- Compress a block from a position on, with the literals that wait since a mark and the last position of
each word. No match starts in the last twelve bytes or reaches into the last five. -/
def compressFrom (b : Array UInt8) : Nat → Nat → Nat → Std.HashMap Nat Nat → List Bytes
  | 0, _, mark, _ => [writeLast (b.extract mark b.size).toList]
  | fuel + 1, i, mark, seen =>
    if b.size < i + 12 then [writeLast (b.extract mark b.size).toList]
    else
      let w := wordAt b i
      let next := seen.insert w i
      match seen.get? w with
      | none => compressFrom b fuel (i + 1) mark next
      | some j =>
        if 65535 < i - j then compressFrom b fuel (i + 1) mark next
        else
          let length := minMatch + sameLength b (j + 4) (i + 4) (b.size - 5 - (i + 4))
          writeSequence (b.extract mark i).toList (i - j) length
            :: compressFrom b fuel (i + length) (i + length) next

/-- Compress a block. -/
def compressBlock (b : Bytes) : Bytes :=
  (compressFrom b.toArray (b.length + 1) 0 0 {}).flatten

/-- Read a length whose first part stands in a token. -/
def readLength (start : Nat) (b : Bytes) : Option (Nat × Bytes) :=
  if start < 15 then some (start, b)
  else
    let full := b.takeWhile (· = 255)
    match b.dropWhile (· = 255) with
    | [] => none
    | x :: rest => some (15 + 255 * full.length + x.toNat, rest)

/-- Repeat bytes from a distance back. -/
def copyMatch (out : Array UInt8) (distance : Nat) : Nat → Array UInt8
  | 0 => out
  | n + 1 => copyMatch (out.push (out[out.size - distance]?.getD 0)) distance n

/-- Read the sequences of a block onto an output. Matches may not reach before a position, and the output
may not grow beyond a limit. -/
def readSequences (first limit : Nat) : Nat → Bytes → Array UInt8 → Option (Array UInt8)
  | 0, _, _ => none
  | _ + 1, [], out => some out
  | fuel + 1, token :: b, out => do
    let (literals, b) ← readLength (token.toNat / 16) b
    if b.length < literals ∨ limit < out.size + literals then none
    let out := out ++ (b.take literals).toArray
    match b.drop literals with
    | [] => return out
    | lo :: hi :: b =>
      let distance := Number.ofLowBytes [lo, hi]
      let (extra, b) ← readLength (token.toNat % 16) b
      let length := extra + minMatch
      if distance = 0 ∨ out.size < first + distance ∨ limit < out.size + length then none
      readSequences first limit fuel b (copyMatch out distance length)
    | [_] => none

/-! ## Frames -/

/-- The number that starts a frame. -/
def magic : Nat := 0x184D2204

/-- The size of the blocks that `compress` writes. -/
def blockSize : Nat := 4 * 1024 * 1024

/-- The checksum of a header. -/
def headerCheck (b : Bytes) : UInt8 := (Checksum.sum b >>> 8).toUInt8

/-- A block in a frame, stored as it is unless compressing makes it shorter. -/
def writeBlock (b : Bytes) : Bytes :=
  let packed := compressBlock b
  if packed.length < b.length then Number.lowBytes 4 packed.length ++ packed
  else Number.lowBytes 4 (Number.pow2 31 + b.length) ++ b

/-- The blocks of a byte sequence. The first argument bounds their number. -/
def writeBlocks : Nat → Bytes → Bytes
  | 0, _ => []
  | n + 1, b => if b.isEmpty then [] else writeBlock (b.take blockSize) ++ writeBlocks n (b.drop blockSize)

/-- A byte sequence as a frame with independent blocks and a checksum. -/
def compress (b : Bytes) : Bytes :=
  let descriptor : Bytes := [0x64, 0x70]
  Number.lowBytes 4 magic ++ descriptor ++ [headerCheck descriptor] ++ writeBlocks (b.length + 1) b
    ++ Number.lowBytes 4 0 ++ Number.lowBytes 4 (Checksum.sum b).toNat

/-- What a frame says about its blocks. -/
structure Frame where
  independent : Bool
  blockChecks : Bool
  contentCheck : Bool
  blockLimit : Nat
deriving DecidableEq, Repr

/-- The outcome of asking for bytes: none are left, too few are left, or they are there. -/
inductive Part where
  | finished
  | cut
  | some (bytes rest : Bytes)

/-- Ask for a number of bytes. -/
def part (n : Nat) (b : Bytes) : Part :=
  if b.length < n then (if b.isEmpty then .finished else .cut) else .some (b.take n) (b.drop n)

/-- Check the output of a frame against the checksum behind its blocks. Data that ends before it is taken
as it is. -/
def closeFrame (f : Frame) (b : Bytes) (out : Array UInt8) : Option Bytes :=
  if !f.contentCheck then some out.toList
  else match part 4 b with
    | .finished => some out.toList
    | .cut => none
    | .some check _ =>
      if Number.ofLowBytes check = (Checksum.sum out.toList).toNat then some out.toList else none

/-- The output of a block. -/
def readBlock (f : Frame) (stored : Bool) (data : Bytes) (out : Array UInt8) : Option (Array UInt8) :=
  if stored then some (out ++ data.toArray)
  else readSequences (if f.independent then out.size else 0) (out.size + f.blockLimit) (data.length + 1)
    data out

/-- Read the blocks of a frame. The first argument bounds their number. -/
def readBlocks (f : Frame) : Nat → Bytes → Array UInt8 → Option Bytes
  | 0, _, _ => none
  | n + 1, b, out =>
    match part 4 b with
    | .finished => closeFrame f b out
    | .cut => none
    | .some size b =>
      let size := Number.ofLowBytes size
      let length := size % Number.pow2 31
      if size = 0 then closeFrame f b out
      else if f.blockLimit < length then none
      else match part length b, part (if f.blockChecks then 4 else 0) (b.drop length) with
        | .finished, _ | .some .., .finished => closeFrame f [] out
        | .cut, _ | _, .cut => none
        | .some data _, .some check b => do
          if f.blockChecks ∧ Number.ofLowBytes check ≠ (Checksum.sum data).toNat then none
          readBlocks f n b (← readBlock f (Number.pow2 31 ≤ size) data out)

/-- The sizes of blocks by their number in a header. -/
def blockLimit? (n : Nat) : Option Nat := if n < 4 then none else some (Number.pow2 (8 + 2 * n))

/-- Read the header of a frame, behind its first number. -/
def readFrame (b : Bytes) : Option Bytes :=
  match b with
  | [] => some []
  | flags :: size :: rest => do
    let flag := fun i : Nat => flags.toNat / Number.pow2 i % 2 = 1
    let sized := if flag 3 then 8 else 0
    let limit ← blockLimit? (size.toNat / 16 % 8)
    let descriptor := flags :: size :: rest.take sized
    match rest.drop sized with
    | [] => none
    | check :: b =>
      if check ≠ headerCheck descriptor then none
      readBlocks ⟨flag 5, flag 4, flag 2, limit⟩ (b.length + 1) b #[]
  | [_] => none

/-- The contents of the first frame, behind frames that are to be skipped. No data has no contents. -/
def readFrames : Nat → Bytes → Option Bytes
  | 0, _ => none
  | n + 1, b =>
    match part 4 b with
    | .finished => some []
    | .cut => none
    | .some first b =>
      let first := Number.ofLowBytes first
      if first = magic then readFrame b
      else if first / 256 ≠ 0x184D2A then none
      else match part 4 b with
        | .finished => some []
        | .cut => none
        | .some size b => readFrames n (b.drop (Number.ofLowBytes size))

/-- The contents of a frame. -/
def decompress? (b : Bytes) : Option Bytes := readFrames (b.length + 1) b

end Weft.Lz4
