import Mathlib.Data.List.TakeWhile
import Weft.Text.Glyph

/-!
# The bytes of glyphs

Cutting bytes into glyphs loses none of them, and the bytes of a text are cut into its characters. A byte below 128 is
never a part of a longer glyph, so the characters below 128 stand among the bytes as they stand among the glyphs.
-/

namespace Weft.Text

/-! ## Texts -/

theorem toByteArray_encode (s : String) : (encode s).toByteArray = s.toByteArray := by
  have h := decode?_encode s
  unfold decode? String.fromUTF8? at h
  split at h
  · exact congrArg String.toByteArray (Option.some.inj h)
  · cases h

/-- The bytes of a text are those of its characters. -/
theorem encode_ofList (cs : List Char) : encode (String.ofList cs) = cs.flatMap String.utf8EncodeChar := by
  have h : (encode (String.ofList cs)).toByteArray = (cs.flatMap String.utf8EncodeChar).toByteArray := by
    rw [toByteArray_encode, String.toByteArray_ofList, List.utf8Encode]
  simpa only [List.data_toByteArray] using congrArg (fun b => b.data.toList) h

/-! ## Bytes below 128 -/

/-- A byte below 128 in the encoding of a character is the whole encoding. -/
theorem eq_of_mem_utf8EncodeChar {c : Char} {b : UInt8} (hb : b ∈ String.utf8EncodeChar c) (hlt : b.toNat < 128) :
    c = Char.ofNat b.toNat ∧ String.utf8EncodeChar c = [b] := by
  unfold String.utf8EncodeChar at hb ⊢
  dsimp only at hb ⊢
  split at hb
  · next hv =>
    obtain rfl := List.mem_singleton.mp hb
    have hval : (UInt8.ofNat c.val.toNat).toNat = c.toNat := by
      rw [UInt8.toNat_ofNat']
      exact Nat.mod_eq_of_lt (by omega)
    rw [if_pos hv, hval]
    exact ⟨(Char.ofNat_toNat c).symm, rfl⟩
  · exfalso
    split at hb
    · simp only [List.mem_cons, List.not_mem_nil, or_false] at hb
      rcases hb with rfl | rfl <;> rw [UInt8.toNat_ofNat'] at hlt <;> omega
    · split at hb
      · simp only [List.mem_cons, List.not_mem_nil, or_false] at hb
        rcases hb with rfl | rfl | rfl <;> rw [UInt8.toNat_ofNat'] at hlt <;> omega
      · simp only [List.mem_cons, List.not_mem_nil, or_false] at hb
        rcases hb with rfl | rfl | rfl | rfl <;> rw [UInt8.toNat_ofNat'] at hlt <;> omega

/-- A byte below 128 is the encoding of a character. -/
theorem utf8EncodeChar_of_lt {b : UInt8} (hlt : b.toNat < 128) : String.utf8EncodeChar (Char.ofNat b.toNat) = [b] := by
  have hvalid : b.toNat.isValidChar := .inl (by omega)
  have hval : (Char.ofNat b.toNat).val.toNat = b.toNat := by
    rw [Char.ofNat, dif_pos hvalid]
    rfl
  unfold String.utf8EncodeChar
  dsimp only
  rw [hval, if_pos (by omega)]
  simp

/-- An invalid byte is not below 128, where each byte is a character. -/
def Glyph.Proper : Glyph → Prop
  | char _ => True
  | invalid b => 128 ≤ b.toNat

/-- A byte below 128 is a glyph of its own. -/
theorem Glyph.Proper.eq_of_mem {g : Glyph} (hg : g.Proper) {b : UInt8} (hb : b ∈ g.bytes) (hlt : b.toNat < 128) :
    g = .char (Char.ofNat b.toNat) ∧ g.bytes = [b] := by
  cases g with
  | char c =>
    obtain ⟨rfl, hbytes⟩ := eq_of_mem_utf8EncodeChar hb hlt
    exact ⟨rfl, hbytes⟩
  | invalid b' =>
    obtain rfl := List.mem_singleton.mp hb
    exact absurd hlt (Nat.not_lt.mpr hg)

/-! ## Cutting -/

theorem bytes_ofBytes_prefix (b : UInt8) (rest : Bytes) : (Glyph.ofBytes b rest).bytes <+: b :: rest := by
  unfold Glyph.ofBytes
  split
  · next c h =>
    obtain ⟨l, hl⟩ := ByteArray.exists_of_utf8DecodeChar?_eq_some h
    have hlist : b :: rest.take 3 = String.utf8EncodeChar c ++ l.data.toList := by
      simpa using congrArg (fun b => b.data.toList) hl
    have hprefix : String.utf8EncodeChar c <+: b :: rest.take 3 := ⟨_, hlist.symm⟩
    exact hprefix.trans ((List.prefix_cons_inj b).mpr (List.take_prefix 3 rest))
  · exact ⟨rest, rfl⟩

/-- A character is read from its bytes, whatever follows them. -/
theorem ofBytes_of_utf8EncodeChar {c : Char} {b : UInt8} {rest more : Bytes}
    (h : b :: rest = String.utf8EncodeChar c ++ more) : Glyph.ofBytes b rest = .char c := by
  have hlen : (String.utf8EncodeChar c).length ≤ 4 := by
    rw [String.length_utf8EncodeChar]
    exact c.utf8Size_le_four
  have htake : b :: rest.take 3 = String.utf8EncodeChar c ++ more.take (4 - (String.utf8EncodeChar c).length) := by
    rw [← List.take_succ_cons, h, List.take_append, List.take_of_length_le hlen]
  have hdecode : (b :: rest.take 3).toByteArray.utf8DecodeChar? 0 = some c := by
    rw [htake, List.toByteArray_append]
    exact ByteArray.utf8DecodeChar?_utf8EncodeChar_append
  unfold Glyph.ofBytes
  rw [hdecode]

theorem proper_ofBytes (b : UInt8) (rest : Bytes) : (Glyph.ofBytes b rest).Proper := by
  by_cases hlt : b.toNat < 128
  · have hchar : Glyph.ofBytes b rest = .char (Char.ofNat b.toNat) := by
      have hbytes : b :: rest = String.utf8EncodeChar (Char.ofNat b.toNat) ++ rest := by
        rw [utf8EncodeChar_of_lt hlt, List.singleton_append]
      exact ofBytes_of_utf8EncodeChar hbytes
    rw [hchar]
    exact True.intro
  · unfold Glyph.ofBytes
    split
    · exact True.intro
    · exact Nat.not_lt.mp hlt

theorem glyphs_proper (src : Bytes) : ∀ g ∈ glyphs src, g.Proper := by
  induction src using glyphs.induct with
  | case1 => simp [glyphs]
  | case2 b rest g ih =>
    rw [glyphs, List.forall_mem_cons]
    exact ⟨proper_ofBytes b rest, ih⟩

/-- The glyphs of a byte sequence have all its bytes, in their order. -/
theorem glyphBytes_glyphs (src : Bytes) : glyphBytes (glyphs src) = src := by
  induction src using glyphs.induct with
  | case1 => simp [glyphs, glyphBytes]
  | case2 b rest g ih =>
    obtain ⟨more, hmore⟩ := bytes_ofBytes_prefix b rest
    have hwidth := (Glyph.ofBytes b rest).width_pos
    have hdrop : rest.drop ((Glyph.ofBytes b rest).width - 1) = more := by
      have hdrop := congrArg (List.drop (Glyph.ofBytes b rest).width) hmore
      rw [Glyph.width, List.drop_left, ← Glyph.width] at hdrop
      rw [hdrop, ← Nat.sub_add_cancel hwidth, List.drop_succ_cons, Nat.add_sub_cancel]
    rw [glyphs, glyphBytes, List.flatMap_cons, ← glyphBytes, ih, hdrop]
    exact hmore

/-- The glyphs of a text are its characters. -/
theorem glyphs_encode (cs : List Char) : glyphs (cs.flatMap String.utf8EncodeChar) = cs.map .char := by
  induction cs with
  | nil => simp [glyphs]
  | cons c cs ih =>
    obtain ⟨b, rest, hb⟩ := List.exists_cons_of_ne_nil (List.ne_nil_of_length_pos (l := String.utf8EncodeChar c) (by
      rw [String.length_utf8EncodeChar]; exact c.utf8Size_pos))
    have hchar : Glyph.ofBytes b (rest ++ cs.flatMap String.utf8EncodeChar) = .char c :=
      ofBytes_of_utf8EncodeChar (congrArg (· ++ cs.flatMap String.utf8EncodeChar) hb.symm)
    have hwidth : (Glyph.char c).width - 1 = rest.length := by simp [Glyph.width, Glyph.bytes, hb]
    rw [List.flatMap_cons, hb, List.cons_append, glyphs, hchar, hwidth, List.drop_left, ih]
    rfl

/-! ## Bytes among glyphs -/

theorem glyphBytes_cons (g : Glyph) (gs : List Glyph) : glyphBytes (g :: gs) = g.bytes ++ glyphBytes gs :=
  List.flatMap_cons

theorem glyphBytes_append (gs more : List Glyph) : glyphBytes (gs ++ more) = glyphBytes gs ++ glyphBytes more :=
  List.flatMap_append

theorem eq_nil_of_glyphBytes {gs : List Glyph} (h : glyphBytes gs = []) : gs = [] := by
  cases gs with
  | nil => rfl
  | cons g gs =>
    rw [glyphBytes_cons, List.append_eq_nil_iff] at h
    exact absurd (List.length_eq_zero_iff.mpr h.1) g.width_pos.ne'

/-- A byte below 128 is found among the glyphs where it is found among the bytes. -/
theorem exists_of_glyphBytes {gs : List Glyph} (hgs : ∀ g ∈ gs, g.Proper) {b : UInt8} (hlt : b.toNat < 128)
    {front back : Bytes} (h : glyphBytes gs = front ++ b :: back) :
    ∃ fs bs, gs = fs ++ Glyph.char (Char.ofNat b.toNat) :: bs ∧ glyphBytes fs = front ∧ glyphBytes bs = back := by
  induction gs generalizing front with
  | nil => simp [glyphBytes] at h
  | cons g gs ih =>
    obtain ⟨hg, hgs⟩ := List.forall_mem_cons.mp hgs
    rw [glyphBytes_cons, List.append_eq_append_iff] at h
    rcases h with ⟨more, rfl, hmore⟩ | ⟨part, hpart, hback⟩
    · obtain ⟨fs, bs, rfl, rfl, rfl⟩ := ih hgs hmore
      exact ⟨g :: fs, bs, rfl, glyphBytes_cons g fs, rfl⟩
    · cases part with
      | nil =>
        obtain ⟨fs, bs, rfl, hfs, rfl⟩ := @ih hgs [] hback.symm
        exact ⟨g :: fs, bs, rfl, by rw [glyphBytes_cons, hfs, hpart, List.append_nil, List.append_nil], rfl⟩
      | cons b' part =>
        obtain ⟨rfl, rfl⟩ := List.cons.inj hback
        obtain ⟨rfl, hbytes⟩ := hg.eq_of_mem (b := b) (by simp [hpart]) hlt
        have hempty : front = [] ∧ part = [] := by simpa [hbytes, List.cons_eq_append_iff] using hpart
        obtain ⟨rfl, rfl⟩ := hempty
        exact ⟨[], gs, rfl, rfl, rfl⟩

/-- Two bytes below 128 stand next to each other where their characters do. -/
theorem infix_of_glyphBytes {gs : List Glyph} (hgs : ∀ g ∈ gs, g.Proper) {a b : UInt8} (ha : a.toNat < 128)
    (hb : b.toNat < 128) (h : [a, b] <:+: glyphBytes gs) :
    [Glyph.char (Char.ofNat a.toNat), .char (Char.ofNat b.toNat)] <:+: gs := by
  obtain ⟨front, back, hbytes⟩ := h
  obtain ⟨fs, bs, rfl, -, hbs⟩ := exists_of_glyphBytes hgs ha
    (show glyphBytes gs = front ++ a :: (b :: back) by simp [← hbytes])
  obtain ⟨gap, more, rfl, hnone, -⟩ := exists_of_glyphBytes (fun g hg => hgs g (by simp [hg])) hb
    (show glyphBytes bs = [] ++ b :: back from hbs)
  obtain rfl := eq_nil_of_glyphBytes hnone
  exact ⟨fs, more, by simp⟩

/-- Cutting before the first zero byte is cutting before the first glyph of a zero byte. -/
theorem glyphBytes_takeWhile {gs : List Glyph} (hgs : ∀ g ∈ gs, g.Proper) :
    glyphBytes (gs.takeWhile (· ≠ .char (Char.ofNat 0))) = (glyphBytes gs).takeWhile (· ≠ 0) := by
  induction gs with
  | nil => rfl
  | cons g gs ih =>
    obtain ⟨hg, hgs⟩ := List.forall_mem_cons.mp hgs
    by_cases hzero : 0 ∈ g.bytes
    · obtain ⟨rfl, hbytes⟩ := hg.eq_of_mem hzero (by decide)
      rw [glyphBytes_cons, hbytes]
      rfl
    · have hne : g ≠ .char (Char.ofNat 0) := fun h => hzero (by rw [h]; decide)
      rw [List.takeWhile_cons_of_pos (by simpa using hne), glyphBytes_cons, ih hgs, glyphBytes_cons,
        List.takeWhile_append_of_pos fun b hb => by
          have hbyte : b ≠ 0 := fun h => hzero (h ▸ hb)
          simpa using hbyte]

end Weft.Text
