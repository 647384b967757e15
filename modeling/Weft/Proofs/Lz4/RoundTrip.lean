import Mathlib
import Weft.Lz4

/-!
# Compressed data is read back

A frame that `compress` writes is read back by `decompress?`. Inside a block, the invariant is that the output so far is a
start of the whole data: literals extend it by the bytes that come next, and a match extends it because the bytes that it
repeats are the same as those that come next.

So the frames of two contents differ, and counting shows that some contents have a frame that is longer than they are.
-/

namespace Weft

namespace Number

theorem ofLowBytes_inj {bs cs : List UInt8} (hlen : bs.length = cs.length) (h : ofLowBytes bs = ofLowBytes cs) : bs = cs := by
  rw [← lowBytes_ofLowBytes bs, ← lowBytes_ofLowBytes cs, hlen, h]

theorem ofLowBytes_closed_pos (bs : List UInt8) : 0 < ofLowBytes (bs ++ [1]) := by
  induction bs with
  | nil => decide
  | cons b bs ih =>
    rw [List.cons_append, ofLowBytes]
    omega

/-- A list of bytes is known from its number, whatever its length is, if a last one closes it. -/
theorem ofLowBytes_closed_inj {bs cs : List UInt8} (h : ofLowBytes (bs ++ [1]) = ofLowBytes (cs ++ [1])) : bs = cs := by
  induction bs generalizing cs with
  | nil =>
    cases cs with
    | nil => rfl
    | cons c cs =>
      have hpos := ofLowBytes_closed_pos cs
      simp [ofLowBytes] at h
      omega
  | cons b bs ih =>
    have hb := b.toNat_lt
    cases cs with
    | nil =>
      have hpos := ofLowBytes_closed_pos bs
      simp [ofLowBytes] at h
      omega
    | cons c cs =>
      have hc := c.toNat_lt
      simp only [List.cons_append, ofLowBytes] at h
      obtain ⟨hhead, htail⟩ : b.toNat = c.toNat ∧ ofLowBytes (bs ++ [1]) = ofLowBytes (cs ++ [1]) := by omega
      rw [UInt8.toNat_inj.mp hhead, ih htail]

end Number

namespace Lz4

/-! ## Lengths -/

/-- A length is read back from the four bits in the token and the bytes behind it. -/
theorem readLength_tail (n : Nat) (rest : Bytes) : readLength (min n 15) (lengthTail n ++ rest) = some (n, rest) := by
  unfold readLength lengthTail
  by_cases h : n < 15
  · have hmin : min n 15 = n := by omega
    simp [h, hmin]
  · have hmin : min n 15 = 15 := by omega
    have hlast : ((n - 15) % 255).toUInt8 ≠ 255 := by
      intro heq
      have hval := congrArg UInt8.toNat heq
      change (n - 15) % 255 % 256 = 255 at hval
      omega
    have hval : ((n - 15) % 255).toUInt8.toNat = (n - 15) % 255 := by
      change (n - 15) % 255 % 256 = _
      omega
    simp only [h, hmin, if_false, List.append_assoc, List.singleton_append, Nat.lt_irrefl]
    rw [List.takeWhile_append_of_pos (by simp), List.dropWhile_append_of_pos (by simp)]
    simp [hlast, hval]
    omega

/-! ## Matches -/

/-- A match extends a start of the data if the data repeats itself there. -/
theorem copyMatch_take {xs : Bytes} {distance : Nat} (hpos : 0 < distance) {n k : Nat} (hk : distance ≤ k)
    (hn : k + n ≤ xs.length) (hsame : ∀ i < n, xs[k + i]? = xs[k + i - distance]?) :
    copyMatch (xs.take k).toArray distance n = (xs.take (k + n)).toArray := by
  induction n generalizing k with
  | zero => rfl
  | succ n ih =>
    have hlen : (xs.take k).length = k := List.length_take_of_le (by omega)
    have hnext : (xs.take k).toArray[(xs.take k).toArray.size - distance]?.getD 0 = xs[k] := by
      have hfirst := hsame 0 (by omega)
      rw [Nat.add_zero, List.getElem?_eq_getElem (by omega)] at hfirst
      rw [List.size_toArray, hlen, List.getElem?_toArray, List.getElem?_take_of_lt (by omega), ← hfirst]
      rfl
    rw [copyMatch, hnext, List.push_toArray, List.take_concat_get' xs k (by omega), ih (by omega) (by omega)]
    · rw [Nat.add_right_comm, Nat.add_assoc]
    · intro i hi
      have hs := hsame (i + 1) (by omega)
      rwa [← Nat.add_assoc, Nat.add_right_comm] at hs

/-- Bytes are the same as far as `sameLength` says. -/
theorem sameLength_spec (a : Array UInt8) (i j n : Nat) :
    sameLength a i j n ≤ n ∧ ∀ k < sameLength a i j n, a[i + k]? = a[j + k]? := by
  induction n generalizing i j with
  | zero => exact ⟨Nat.le_refl 0, fun k hk => absurd hk (Nat.not_lt_zero k)⟩
  | succ n ih =>
    rw [sameLength]
    split
    · next hfirst =>
      obtain ⟨hle, hsame⟩ := ih (i + 1) (j + 1)
      refine ⟨by omega, fun k hk => ?_⟩
      cases k with
      | zero => exact hfirst
      | succ k =>
        have hs := hsame k (by omega)
        rwa [Nat.add_right_comm, Nat.add_assoc, Nat.add_right_comm j, Nat.add_assoc] at hs
    · exact ⟨Nat.zero_le _, fun k hk => absurd hk (Nat.not_lt_zero k)⟩

/-- Words are the same only if their bytes are. -/
theorem wordAt_inj {a : Array UInt8} {i j : Nat} (hi : i + 4 ≤ a.size) (hj : j + 4 ≤ a.size) (h : wordAt a i = wordAt a j) :
    ∀ k < 4, a[i + k]? = a[j + k]? := by
  have hsame : a.extract i (i + 4) = a.extract j (j + 4) := by
    apply Array.toList_inj.mp
    apply Number.ofLowBytes_inj
    · simp only [Array.length_toList, Array.size_extract]
      omega
    · exact h
  intro k hk
  have hget := congrArg (fun x : Array UInt8 => x[k]?) hsame
  simp only [Array.getElem?_extract] at hget
  rwa [if_pos (by omega), if_pos (by omega)] at hget

/-! ## Blocks -/

theorem token_halves {m n : Nat} (hm : m ≤ 15) (hn : n ≤ 15) :
    (m * 16 + n).toUInt8.toNat / 16 = m ∧ (m * 16 + n).toUInt8.toNat % 16 = n := by
  have hval : (m * 16 + n).toUInt8.toNat = m * 16 + n := Nat.mod_eq_of_lt (by omega)
  omega

theorem readSequences_last {first limit fuel : Nat} {literals : Bytes} {out : Array UInt8}
    (h : out.size + literals.length ≤ limit) :
    readSequences first limit (fuel + 1) (writeLast literals) out = some (out ++ literals.toArray) := by
  obtain ⟨hhigh, -⟩ := token_halves (m := min literals.length 15) (n := 0) (by omega) (by omega)
  rw [Nat.add_zero] at hhigh
  simp only [writeLast, List.cons_append, readSequences, hhigh, readLength_tail]
  simp [Nat.not_lt.mpr h]

theorem readSequences_sequence {first limit fuel distance length : Nat} {literals rest : Bytes} {out : Array UInt8}
    (hdistance : 0 < distance) (hfar : distance ≤ 65535) (hlength : minMatch ≤ length)
    (hback : first + distance ≤ out.size + literals.length) (h : out.size + literals.length + length ≤ limit) :
    readSequences first limit (fuel + 1) (writeSequence literals distance length ++ rest) out =
      readSequences first limit fuel rest (copyMatch (out ++ literals.toArray) distance length) := by
  obtain ⟨hhigh, hlow⟩ := token_halves (m := min literals.length 15) (n := min (length - minMatch) 15) (by omega) (by omega)
  have hread : Number.ofLowBytes (Number.lowBytes 2 distance) = distance := by
    rw [Number.ofLowBytes_lowBytes]
    exact Nat.mod_eq_of_lt (Nat.lt_succ_of_le hfar)
  have hroom : ¬((literals ++ (Number.lowBytes 2 distance ++ (lengthTail (length - minMatch) ++ rest))).length <
      literals.length ∨ limit < out.size + literals.length) := by
    rw [List.length_append]
    omega
  have hsize : (out ++ literals.toArray).size = out.size + literals.length := by simp
  have hgood : ¬(distance = 0 ∨ (out ++ literals.toArray).size < first + distance ∨
      limit < (out ++ literals.toArray).size + (length - minMatch + minMatch)) := by omega
  have hshape : writeSequence literals distance length ++ rest =
      (min literals.length 15 * 16 + min (length - minMatch) 15).toUInt8 :: (lengthTail literals.length ++
        (literals ++ (Number.lowBytes 2 distance ++ (lengthTail (length - minMatch) ++ rest)))) := by
    simp [writeSequence]
  obtain ⟨lo, hi, hbytes⟩ : ∃ lo hi, Number.lowBytes 2 distance = [lo, hi] := ⟨_, _, rfl⟩
  rw [hshape, readSequences]
  simp only [hhigh, hlow, readLength_tail, Option.bind_eq_bind, Option.bind_some, if_neg hroom, List.drop_left, List.take_left]
  rw [hbytes] at hread ⊢
  simp only [List.cons_append, List.nil_append, readLength_tail, Option.bind_some, hread, if_neg hgood]
  rw [Nat.sub_add_cancel hlength]

/-- Words that were seen stand where they are said to, before a position. -/
def Seen (a : Array UInt8) (i : Nat) (seen : Std.HashMap Nat Nat) : Prop :=
  ∀ w j, seen.get? w = some j → j < i ∧ wordAt a j = w

theorem Seen.insert {a : Array UInt8} {i k : Nat} {seen : Std.HashMap Nat Nat} (h : Seen a i seen) (hk : i < k) :
    Seen a k (seen.insert (wordAt a i) i) := by
  intro w j hj
  rw [Std.HashMap.get?_eq_getElem?, Std.HashMap.getElem?_insert] at hj
  split at hj
  · next hw =>
    obtain rfl := Option.some.inj hj
    exact ⟨hk, by simpa using hw⟩
  · obtain ⟨hlt, hword⟩ := h w j hj
    exact ⟨by omega, hword⟩

section Block

variable {pre xs : Bytes} {limit : Nat}

/-- The bytes of a block between two positions stand behind the output up to the first one. -/
theorem take_append_extract {mark i : Nat} (hmark : mark ≤ i) :
    ((pre ++ xs).take (pre.length + mark)).toArray ++ (xs.toArray.extract mark i).toList.toArray =
      ((pre ++ xs).take (pre.length + i)).toArray := by
  have hextract : (xs.toArray.extract mark i).toList = (xs.drop mark).take (i - mark) := by simp
  have hrest : (xs.drop mark).take (i - mark) = ((pre ++ xs).drop (pre.length + mark)).take (i - mark) := by
    rw [List.drop_length_add_append]
  have hi : pre.length + i = pre.length + mark + (i - mark) := by omega
  rw [hextract, hrest, List.append_toArray, hi, List.take_add (i := pre.length + mark)]

theorem size_take (pre : Bytes) {k : Nat} (hk : k ≤ xs.length) : ((pre ++ xs).take (pre.length + k)).toArray.size = pre.length + k := by
  simp [hk]

theorem length_extract (mark : Nat) {i : Nat} (hi : i ≤ xs.length) : (xs.toArray.extract mark i).toList.length = i - mark := by
  simp only [Array.length_toList, Array.size_extract, List.size_toArray]
  omega

/-- The literals at the end complete the data. -/
theorem readSequences_rest (hlimit : pre.length + xs.length ≤ limit) {mark : Nat} (hmark : mark ≤ xs.length) {fuel : Nat} :
    readSequences pre.length limit (fuel + 1) [writeLast (xs.toArray.extract mark xs.toArray.size).toList].flatten
      ((pre ++ xs).take (pre.length + mark)).toArray = some (pre ++ xs).toArray := by
  rw [List.flatten_singleton, readSequences_last, take_append_extract (by simpa using hmark)]
  · simp
  · rw [size_take pre hmark, List.size_toArray, length_extract mark (Nat.le_refl _)]
    omega

/-- A match is where `compressFrom` looks for it. -/
theorem copyMatch_found (pre : Bytes) {i j : Nat} (hj : j < i) (hi : i + 12 ≤ xs.length) (hword : wordAt xs.toArray j = wordAt xs.toArray i)
    {length : Nat} (hlength : length = minMatch + sameLength xs.toArray (j + 4) (i + 4) (xs.length - 5 - (i + 4))) :
    i + length ≤ xs.length ∧
      copyMatch ((pre ++ xs).take (pre.length + i)).toArray (i - j) length =
        ((pre ++ xs).take (pre.length + (i + length))).toArray := by
  obtain ⟨hle, hsame⟩ := sameLength_spec xs.toArray (j + 4) (i + 4) (xs.length - 5 - (i + 4))
  have hfirst := wordAt_inj (a := xs.toArray) (by simp; omega) (by simp; omega) hword
  rw [← Nat.add_assoc]
  have hroom : i + length ≤ xs.length := by
    rw [minMatch] at hlength
    omega
  refine ⟨hroom, copyMatch_take (by omega) (by omega) (by simp; omega) fun k hk => ?_⟩
  have hxs : xs[i + k]? = xs[j + k]? := by
    simp only [List.getElem?_toArray] at hfirst hsame
    rcases Nat.lt_or_ge k 4 with hk4 | hk4
    · exact (hfirst k hk4).symm
    · have hs := hsame (k - 4) (by rw [minMatch] at hlength; omega)
      rw [show j + 4 + (k - 4) = j + k by omega, show i + 4 + (k - 4) = i + k by omega] at hs
      exact hs.symm
  rw [Nat.add_assoc, List.getElem?_append_right (by omega), List.getElem?_append_right (by omega)]
  rw [show pre.length + (i + k) - pre.length = i + k by omega,
    show pre.length + (i + k) - (i - j) - pre.length = j + k by omega]
  exact hxs

/-- What a block is compressed to gives the rest of the block, whatever was put out before it. -/
theorem readSequences_compressFrom (hlimit : pre.length + xs.length ≤ limit) (steps : Nat) {i mark : Nat}
    {seen : Std.HashMap Nat Nat} (hseen : Seen xs.toArray i seen) (hmark : mark ≤ i) (hi : i ≤ xs.length) {fuel : Nat}
    (hfuel : (compressFrom xs.toArray steps i mark seen).flatten.length ≤ fuel) :
    readSequences pre.length limit (fuel + 1) (compressFrom xs.toArray steps i mark seen).flatten
      ((pre ++ xs).take (pre.length + mark)).toArray = some (pre ++ xs).toArray := by
  induction steps generalizing i mark seen fuel with
  | zero => exact readSequences_rest hlimit (by omega)
  | succ steps ih =>
    rw [compressFrom] at hfuel ⊢
    split at hfuel
    · next hend =>
      rw [if_pos hend]
      exact readSequences_rest hlimit (by omega)
    · next hend =>
      rw [if_neg hend]
      rw [List.size_toArray] at hend
      simp only at hfuel ⊢
      cases hj : seen.get? (wordAt xs.toArray i) with
      | none =>
        rw [hj] at hfuel
        exact ih (hseen.insert (Nat.lt_succ_self i)) (by omega) (by omega) hfuel
      | some j =>
        obtain ⟨hlt, hword⟩ := hseen _ j hj
        rw [hj] at hfuel
        simp only at hfuel ⊢
        split at hfuel
        · next hfar =>
          rw [if_pos hfar]
          exact ih (hseen.insert (Nat.lt_succ_self i)) (by omega) (by omega) hfuel
        · next hfar =>
          rw [if_neg hfar]
          rw [List.size_toArray] at hfuel ⊢
          generalize hlength : minMatch + sameLength xs.toArray (j + 4) (i + 4) (xs.length - 5 - (i + 4)) = length at hfuel ⊢
          obtain ⟨hroom, hcopy⟩ := copyMatch_found pre hlt (by omega) hword hlength.symm
          rw [List.flatten_cons, List.length_append] at hfuel
          have hone : 0 < (writeSequence (xs.toArray.extract mark i).toList (i - j) length).length := by simp [writeSequence]
          obtain ⟨fuel, rfl⟩ := Nat.exists_eq_add_of_lt (show 0 < fuel by omega)
          have hout := size_take pre (show mark ≤ xs.length by omega)
          have hliterals := length_extract mark hi
          have hmin : minMatch ≤ length := hlength ▸ Nat.le_add_right ..
          rw [List.flatten_cons, Nat.zero_add, readSequences_sequence (by omega) (by omega) hmin (by omega) (by omega),
            take_append_extract hmark, hcopy]
          have hnext : i < i + length := Nat.lt_add_of_pos_right (Nat.lt_of_lt_of_le (by decide) hmin)
          exact ih (hseen.insert hnext) (Nat.le_refl _) hroom (by omega)

/-- A block is read back from what it is compressed to. -/
theorem readSequences_compressBlock (hlimit : pre.length + xs.length ≤ limit) :
    readSequences pre.length limit ((compressBlock xs).length + 1) (compressBlock xs) pre.toArray = some (pre ++ xs).toArray := by
  have hseen : Seen xs.toArray 0 {} := fun w j hj => by simp at hj
  have hread := readSequences_compressFrom hlimit (xs.length + 1) hseen (Nat.le_refl 0) (Nat.zero_le _)
    (Nat.le_refl (compressBlock xs).length)
  rw [Nat.add_zero pre.length, List.take_left] at hread
  exact hread

end Block

theorem compressFrom_ne_nil (a : Array UInt8) (steps i mark : Nat) (seen : Std.HashMap Nat Nat) :
    (compressFrom a steps i mark seen).flatten ≠ [] := by
  induction steps generalizing i mark seen with
  | zero => simp [compressFrom, writeLast]
  | succ steps ih =>
    rw [compressFrom]
    split
    · simp [writeLast]
    · simp only
      split
      · exact ih _ _ _
      · split
        · exact ih _ _ _
        · simp [writeSequence]

theorem compressBlock_ne_nil (b : Bytes) : compressBlock b ≠ [] := compressFrom_ne_nil _ _ _ _ _

/-! ## Frames -/

/-- What `compress` says about its blocks. -/
def plainFrame : Frame := ⟨true, false, true, blockSize⟩

theorem part_append {n : Nat} {b rest : Bytes} (hlen : b.length = n) (hne : n ≤ (b ++ rest).length) :
    part n (b ++ rest) = .some b rest := by
  rw [part, if_neg (Nat.not_lt.mpr hne), ← hlen, List.take_left, List.drop_left]

theorem part_word (n : Nat) (rest : Bytes) : part 4 (Number.lowBytes 4 n ++ rest) = .some (Number.lowBytes 4 n) rest :=
  part_append (Number.length_lowBytes 4 n) (by simp)

theorem part_zero (b : Bytes) : part 0 b = .some [] b := by simp [part]

/-- Behind the size of a block, a block is read. -/
theorem readBlocks_sized {size : Nat} {data rest : Bytes} {out : Array UInt8} (n : Nat) (hsize : size < 2 ^ 32)
    (hlen : size % Number.pow2 31 = data.length) (hpos : data ≠ []) (hlimit : data.length ≤ blockSize) :
    readBlocks plainFrame (n + 1) (Number.lowBytes 4 size ++ (data ++ rest)) out =
      (readBlock plainFrame (Number.pow2 31 ≤ size) data out).bind (readBlocks plainFrame n rest) := by
  have hword : Number.ofLowBytes (Number.lowBytes 4 size) = size := by
    rw [Number.ofLowBytes_lowBytes]
    exact Nat.mod_eq_of_lt hsize
  have hnonempty : 0 < data.length := List.length_pos_iff.mpr hpos
  have hzero : size ≠ 0 := by
    rintro rfl
    rw [Nat.zero_mod] at hlen
    omega
  rw [readBlocks, part_word]
  simp only [hword, if_neg hzero, hlen]
  have hroom : ¬plainFrame.blockLimit < data.length := Nat.not_lt.mpr hlimit
  rw [if_neg hroom, part_append rfl (by simp), List.drop_left]
  have hchecks : (if plainFrame.blockChecks = true then 4 else 0) = 0 := rfl
  rw [hchecks, part_zero]
  simp only
  rw [if_neg (by simp [plainFrame])]
  rfl

/-- One block of a frame is read. -/
theorem readBlocks_block {b out rest : Bytes} (n : Nat) (hne : b ≠ []) (hlen : b.length ≤ blockSize) :
    readBlocks plainFrame (n + 1) (writeBlock b ++ rest) out.toArray = readBlocks plainFrame n rest (out ++ b).toArray := by
  have hbound : b.length < Number.pow2 31 := Nat.lt_of_le_of_lt hlen (by decide)
  have htwice : Number.pow2 31 + Number.pow2 31 = 2 ^ 32 := by decide
  have hlimit : out.length + b.length ≤ out.toArray.size + plainFrame.blockLimit := Nat.add_le_add_left hlen _
  rw [writeBlock]
  split
  · -- a block that was made shorter
    next hshort =>
    rw [List.append_assoc, readBlocks_sized n (by omega) (Nat.mod_eq_of_lt (by omega)) (compressBlock_ne_nil b) (by omega)]
    have hpacked : readBlock plainFrame (decide (Number.pow2 31 ≤ (compressBlock b).length)) (compressBlock b) out.toArray =
        some (out ++ b).toArray := by
      rw [decide_eq_false (by omega)]
      exact readSequences_compressBlock hlimit
    rw [hpacked]
    rfl
  · have hmod : (Number.pow2 31 + b.length) % Number.pow2 31 = b.length := by
      rw [Nat.add_mod_left]
      exact Nat.mod_eq_of_lt hbound
    rw [List.append_assoc, readBlocks_sized n (by omega) hmod hne hlen]
    have hstored : readBlock plainFrame (decide (Number.pow2 31 ≤ Number.pow2 31 + b.length)) b out.toArray =
        some (out ++ b).toArray := by
      rw [decide_eq_true (Nat.le_add_right _ _)]
      simp [readBlock]
    rw [hstored]
    rfl

theorem length_writeBlock_pos (b : Bytes) : 0 < (writeBlock b).length := by
  rw [writeBlock]
  split <;> simp

theorem closeFrame_sum (out : Bytes) :
    closeFrame plainFrame (Number.lowBytes 4 (Checksum.sum out).toNat) out.toArray = some out := by
  have hread : Number.ofLowBytes (Number.lowBytes 4 (Checksum.sum out).toNat) = (Checksum.sum out).toNat := by
    rw [Number.ofLowBytes_lowBytes]
    exact Nat.mod_eq_of_lt (Checksum.sum out).toNat_lt
  have hpart := part_word (Checksum.sum out).toNat []
  rw [List.append_nil] at hpart
  simp [closeFrame, plainFrame, hpart, hread]

/-- The blocks of a frame are read, with what closes it. -/
theorem readBlocks_blocks (out : Bytes) {b : Bytes} {m n : Nat} (hm : b.length < m) (hn : (writeBlocks m b).length < n) :
    readBlocks plainFrame n (writeBlocks m b ++ (Number.lowBytes 4 0 ++
      Number.lowBytes 4 (Checksum.sum (out ++ b)).toNat)) out.toArray = some (out ++ b) := by
  induction m generalizing out b n with
  | zero => omega
  | succ m ih =>
    obtain ⟨n, rfl⟩ := Nat.exists_eq_add_of_lt (Nat.zero_lt_of_lt hn)
    rw [Nat.zero_add] at hn ⊢
    rw [writeBlocks] at hn ⊢
    split at hn
    · next hend =>
      obtain rfl := List.isEmpty_iff.mp hend
      rw [if_pos hend, List.nil_append, List.append_nil, readBlocks, part_word]
      have hzero : Number.ofLowBytes (Number.lowBytes 4 0) = 0 := by decide
      simp only [hzero, if_true]
      exact closeFrame_sum out
    · next hmore =>
      have hne : b.take blockSize ≠ [] := by
        simp only [List.isEmpty_iff] at hmore
        simp [hmore, blockSize]
      have hdrop : (b.drop blockSize).length < m := by
        have hpos := List.length_pos_iff.mpr hne
        rw [List.length_take] at hpos
        rw [List.length_drop]
        omega
      have hsplit : out ++ b = out ++ b.take blockSize ++ b.drop blockSize := by
        rw [List.append_assoc, List.take_append_drop]
      rw [List.length_append] at hn
      have hblock : 0 < (writeBlock (b.take blockSize)).length := length_writeBlock_pos _
      rw [if_neg hmore, List.append_assoc, readBlocks_block _ hne (List.length_take_le _ _), hsplit]
      exact ih _ hdrop (by omega)

/-- The header that `compress` writes announces its frame. -/
theorem readFrame_header (b : Bytes) :
    readFrame (0x64 :: 0x70 :: headerCheck [0x64, 0x70] :: b) = readBlocks plainFrame (b.length + 1) b #[] := by
  have hlimit : blockLimit? ((0x70 : UInt8).toNat / 16 % 8) = some blockSize := by decide
  have hsized : ¬(0x64 : UInt8).toNat / Number.pow2 3 % 2 = 1 := by decide
  have hflags : (decide ((0x64 : UInt8).toNat / Number.pow2 5 % 2 = 1), decide ((0x64 : UInt8).toNat / Number.pow2 4 % 2 = 1),
      decide ((0x64 : UInt8).toNat / Number.pow2 2 % 2 = 1)) = (true, false, true) := by decide
  obtain ⟨hfive, hfour, htwo⟩ := Prod.mk.inj hflags |>.imp_right Prod.mk.inj
  simp only [readFrame, hsized, if_false, hlimit, Option.bind_eq_bind, Option.bind_some, List.drop_zero, List.take_zero,
    ne_eq, not_true, hfive, hfour, htwo]
  rfl

/-- Compressed data is read back, whatever it is. -/
theorem decompress?_compress (b : Bytes) : decompress? (compress b) = some b := by
  have hshape : compress b = Number.lowBytes 4 magic ++ (0x64 :: 0x70 :: headerCheck [0x64, 0x70] ::
      (writeBlocks (b.length + 1) b ++ (Number.lowBytes 4 0 ++ Number.lowBytes 4 (Checksum.sum ([] ++ b)).toNat))) := by
    simp [compress]
  have hmagic : Number.ofLowBytes (Number.lowBytes 4 magic) = magic := by decide
  rw [decompress?, hshape, readFrames, part_word]
  simp only [hmagic, if_true]
  rw [readFrame_header]
  exact readBlocks_blocks [] (Nat.lt_succ_self _) (by simp)

/-! ## Frames that are longer than their contents -/

theorem compress_inj {b c : Bytes} (h : compress b = compress c) : b = c :=
  Option.some.inj (by rw [← decompress?_compress b, h, decompress?_compress])

/-- A frame starts with its first number. -/
theorem compress_magic (b : Bytes) : ∃ rest, compress b = Number.lowBytes 4 magic ++ rest :=
  ⟨_, by simp only [compress, List.append_assoc]; rfl⟩

/-- Frames are not always shorter than what they hold: there are too few shorter ones. -/
theorem exists_longFrame (n : Nat) : ∃ b : Bytes, b.length = n ∧ n < (compress b).length := by
  by_contra hshort
  simp only [not_exists, not_and, not_lt] at hshort
  have hle : ∀ i, (compress (Number.lowBytes n i)).length ≤ n := fun i => hshort _ (Number.length_lowBytes n i)
  have hfour : 4 ≤ n := by
    obtain ⟨rest, hrest⟩ := compress_magic (Number.lowBytes n 0)
    have hn := hle 0
    rw [hrest, List.length_append, Number.length_lowBytes] at hn
    omega
  -- what stands behind the first number, closed and as a number itself
  let code (i : Nat) : Nat := Number.ofLowBytes ((compress (Number.lowBytes n i)).drop 4 ++ [1])
  have hcode : ∀ i, code i < 256 ^ (n - 3) := by
    intro i
    have hlt := Number.ofLowBytes_lt ((compress (Number.lowBytes n i)).drop 4 ++ [1])
    refine hlt.trans_le (Nat.pow_le_pow_right (by decide) ?_)
    have hn := hle i
    simp only [List.length_append, List.length_drop, List.length_singleton]
    omega
  have hinj : ∀ i < 256 ^ n, ∀ j < 256 ^ n, code i = code j → i = j := by
    intro i hi j hj hij
    obtain ⟨x, hx⟩ := compress_magic (Number.lowBytes n i)
    obtain ⟨y, hy⟩ := compress_magic (Number.lowBytes n j)
    have htail := Number.ofLowBytes_closed_inj hij
    rw [hx, hy, List.drop_left' (Number.length_lowBytes 4 _), List.drop_left' (Number.length_lowBytes 4 _)] at htail
    have hbytes : Number.lowBytes n i = Number.lowBytes n j := compress_inj (by rw [hx, hy, htail])
    have hnumber := congrArg Number.ofLowBytes hbytes
    rw [Number.ofLowBytes_lowBytes, Number.ofLowBytes_lowBytes] at hnumber
    exact (Nat.mod_eq_of_lt hi).symm.trans (hnumber.trans (Nat.mod_eq_of_lt hj))
  have hcard : 256 ^ n ≤ 256 ^ (n - 3) := by
    have hmaps := Finset.card_le_card_of_injOn code (s := Finset.range (256 ^ n)) (t := Finset.range (256 ^ (n - 3)))
      (fun i _ => Finset.mem_coe.mpr (Finset.mem_range.mpr (hcode i)))
      fun i hi j hj => hinj i (Finset.mem_range.mp (Finset.mem_coe.mp hi)) j (Finset.mem_range.mp (Finset.mem_coe.mp hj))
    simpa only [Finset.card_range] using hmaps
  have hpow := (Nat.pow_le_pow_iff_right (by decide : 1 < 256)).mp hcard
  omega

end Lz4

end Weft
