import Weft.Artifact
import Weft.Proofs.Lz4.RoundTrip

/-!
# Artifacts form a prefix code

What is written as an artifact is read back, and nothing else is read from its bytes: data that ends early is missed, and
data behind the last module is refused. The readers of all parts are of this kind, and so is one reader after another. What is stored of a module has to
have room in a length field: a frame may be longer than the module in it, and without room it is not read back.
-/

namespace Weft

theorem Encoding.number_lt (enc : Encoding) : enc.number < 256 := by cases enc <;> decide

theorem Encoding.ofNumber?_eq_raw {n : Nat} (h : ofNumber? n = some .raw) : n = 0 := by
  match n, h with
  | 0, _ => rfl
  | 1, h | 2, h => cases h
  | n + 3, h => simp [ofNumber?, all] at h

namespace Artifact

/-- A way to read a value off the front of bytes, which gives the bytes behind it too. -/
abbrev Reader (α : Type) := Bytes → Except ReadError (α × Bytes)

/-- Read a value, and then another one by a way that depends on the first. -/
def Reader.andThen {α β : Type} (r : Reader α) (k : α → Reader β) : Reader β := fun s => r s >>= fun p => k p.1 p.2

/-- A reader takes exactly these bytes for a value: it leaves those behind them alone, and finds that bytes are missing where
these are cut short. -/
structure Codes {α : Type} (r : Reader α) (b : Bytes) (x : α) : Prop where
  whole : ∀ rest, r (b ++ rest) = .ok (x, rest)
  cut : ∀ p, p <+: b → p ≠ b → ∃ e, r p = .error e ∧ e.root = .endOfData

section Codes

variable {α β : Type} {r : Reader α} {k : α → Reader β} {b b' : Bytes} {x : α} {y : β}

theorem codes_pure (x : α) : Codes (fun s => .ok (x, s)) [] x where
  whole _ := rfl
  cut _ hp hne := absurd (List.prefix_nil.mp hp) hne

theorem Codes.andThen (h : Codes r b x) (h' : Codes (k x) b' y) : Codes (r.andThen k) (b ++ b') y where
  whole rest := by
    rw [List.append_assoc, Reader.andThen, h.whole]
    exact h'.whole rest
  cut p hp hne := by
    rcases List.prefix_or_prefix_of_prefix hp (List.prefix_append b b') with hshort | ⟨q, rfl⟩
    · by_cases hpb : p = b
      · subst hpb
        have hb' : [] ≠ b' := fun h => hne (by rw [← h, List.append_nil])
        obtain ⟨e, he, hroot⟩ := h'.cut [] (List.nil_prefix) hb'
        refine ⟨e, ?_, hroot⟩
        have hread := h.whole []
        rw [List.append_nil] at hread
        rw [Reader.andThen, hread]
        exact he
      · obtain ⟨e, he, hroot⟩ := h.cut p hshort hpb
        exact ⟨e, by rw [Reader.andThen, he]; rfl, hroot⟩
    · obtain ⟨e, he, hroot⟩ := h'.cut q ((List.prefix_append_right_inj b).mp hp) fun h => hne (by rw [h])
      refine ⟨e, ?_, hroot⟩
      rw [Reader.andThen, h.whole]
      exact he

/-- Errors may be put into others that have the same cause. -/
theorem Codes.mapError (h : Codes r b x) {f : ReadError → ReadError} (hf : ∀ e, (f e).root = e.root) :
    Codes (fun s => (r s).mapError f) b x where
  whole rest := by rw [h.whole]; rfl
  cut p hp hne := by
    obtain ⟨e, he, hroot⟩ := h.cut p hp hne
    exact ⟨f e, by rw [he]; rfl, (hf e).trans hroot⟩

end Codes

/-! ## Numbers and lengths -/

/-- Read one byte. -/
def readByte : Reader UInt8
  | [] => .error .endOfData
  | b :: rest => .ok (b, rest)

theorem codes_byte (b : UInt8) : Codes readByte [b] b where
  whole _ := rfl
  cut p hp hne := by
    cases p with
    | nil => exact ⟨_, rfl, rfl⟩
    | cons c cs =>
      obtain ⟨rfl, hcs⟩ := List.cons_prefix_cons.mp hp
      exact absurd (by rw [List.prefix_nil.mp hcs]) hne

theorem readWord_short {b : Bytes} (h : b.length < 4) : readWord b = .error .endOfData := by
  match b, h with
  | [], _ | [_], _ | [_, _], _ | [_, _, _], _ => rfl

theorem codes_word {n : Nat} (h : n < 2 ^ 32) : Codes readWord (writeWord n) n where
  whole rest := by
    have hn : Number.ofLowBytes (writeWord n) = n := by
      rw [writeWord, Number.ofLowBytes_lowBytes]
      exact Nat.mod_eq_of_lt h
    conv_rhs => rw [← hn]
    rfl
  cut p hp hne := by
    have hlt : p.length < 4 := by
      have hlen : (writeWord n).length = 4 := Number.length_lowBytes 4 n
      have hle := hp.length_le
      rcases Nat.lt_or_ge p.length 4 with hlt | hge
      · exact hlt
      · exact absurd (hp.eq_of_length_le (by omega)) hne
    exact ⟨_, readWord_short hlt, rfl⟩

/-- Read so many bytes. -/
def takeBytes (n : Nat) : Reader Bytes := fun b => if b.length < n then .error .endOfData else .ok (b.take n, b.drop n)

theorem codes_take (b : Bytes) : Codes (takeBytes b.length) b b where
  whole rest := by
    have hlen : ¬(b ++ rest).length < b.length := by simp
    rw [takeBytes, if_neg hlen, List.take_left, List.drop_left]
  cut p hp hne := by
    have hlt : p.length < b.length := by
      have hle := hp.length_le
      rcases Nat.lt_or_ge p.length b.length with hlt | hge
      · exact hlt
      · exact absurd (hp.eq_of_length_le hge) hne
    exact ⟨_, if_pos hlt, rfl⟩

theorem readBytes_eq : readBytes = Reader.andThen readWord takeBytes := rfl

theorem codes_bytes {b : Bytes} (h : b.length < 2 ^ 32) : Codes readBytes (writeBytes b) b := by
  rw [readBytes_eq]
  exact (codes_word h).andThen (codes_take b)

/-! ## Modules -/

/-- The bytes of a module as it stands in an artifact. -/
def Stored.bytes (s : Stored) : Bytes := s.encoding.toUInt8 :: writeBytes s.name ++ writeBytes s.payload

theorem readStored_eq : readStored = readByte.andThen fun enc => Reader.andThen readBytes fun name =>
    Reader.andThen readBytes fun payload s => .ok (⟨enc.toNat, name, payload⟩, s) := by
  funext b
  cases b <;> rfl

/-- A module whose numbers and lengths have room in their fields. -/
structure Stored.Fits (s : Stored) : Prop where
  encoding : s.encoding < 256
  name : s.name.length < 2 ^ 32
  payload : s.payload.length < 2 ^ 32

theorem codes_stored {s : Stored} (h : s.Fits) : Codes readStored s.bytes s := by
  have henc : s.encoding.toUInt8.toNat = s.encoding := Nat.mod_eq_of_lt h.encoding
  have hbytes : s.bytes = [s.encoding.toUInt8] ++ (writeBytes s.name ++ (writeBytes s.payload ++ [])) := by
    rw [List.append_nil]
    rfl
  rw [readStored_eq, hbytes]
  refine (codes_byte _).andThen ((codes_bytes h.name).andThen ((codes_bytes h.payload).andThen ?_))
  rw [henc]
  exact codes_pure s

section Files

variable (files : String → Except Fault Bytes)

/-- Read a module, which has an index, with what it refers to. -/
def readLoaded (index : Nat) : Reader Loaded :=
  Reader.andThen (fun b => (readStored b).mapError (.inModule index)) fun s b =>
    ((Stored.load (m := Id) files s).mapError (.inModule index)).map fun x => (x, b)

theorem readModules_succ (index n : Nat) : readModules (m := Id) files index (n + 1) =
    (readLoaded files index).andThen fun x => Reader.andThen (readModules (m := Id) files (index + 1) n) fun xs s =>
      .ok (x :: xs, s) := by
  funext b
  simp only [readModules, readLoaded, Reader.andThen]
  cases hs : readStored b with
  | error e => rfl
  | ok p =>
    obtain ⟨s, b⟩ := p
    cases hl : Stored.load (m := Id) files s with
    | error e => simp only [Except.mapError, Except.map, bind, Except.bind, hl]; rfl
    | ok x =>
      cases hm : readModules (m := Id) files (index + 1) n b with
      | error e => simp only [Except.mapError, Except.map, bind, Except.bind, hl, hm]; rfl
      | ok p => simp only [Except.mapError, Except.map, bind, Except.bind, hl, hm]; rfl

/-- A module that was written so that it can be found again is read back with its bytes. -/
theorem codes_loaded {s : Stored} {x : Loaded} (index : Nat) (h : s.Fits) (hx : Stored.load (m := Id) files s = .ok x) :
    Codes (readLoaded files index) s.bytes x := by
  have hstored := (codes_stored h).mapError (f := .inModule index) fun _ => rfl
  have hload : Codes (fun b => ((Stored.load (m := Id) files s).mapError (.inModule index)).map fun x => (x, b)) [] x := by
    rw [hx]
    exact codes_pure x
  rw [← List.append_nil s.bytes]
  exact hstored.andThen hload

theorem codes_modules {ss : List Stored} {xs : List Loaded} (index : Nat)
    (h : List.Forall₂ (fun s x => s.Fits ∧ Stored.load (m := Id) files s = .ok x) ss xs) :
    Codes (readModules (m := Id) files index ss.length) (ss.flatMap Stored.bytes) xs := by
  induction h generalizing index with
  | nil => exact codes_pure []
  | @cons s x ss xs hs _ ih =>
    rw [List.length_cons, readModules_succ, List.flatMap_cons, ← List.append_nil (ss.flatMap Stored.bytes)]
    exact (codes_loaded files index hs.1 hs.2).andThen ((ih (index + 1)).andThen (codes_pure (x :: xs)))

/-! ## Artifacts -/

/-- The first bytes of an artifact with so many modules. -/
def headerBytes (count : Nat) : Bytes := tag :: writeWord version ++ writeWord count

/-- Go on only if a value is the expected one. -/
def expect {α : Type} [DecidableEq α] (wanted : α) (fault : α → ReadError) (found : α) : Reader PUnit := fun b =>
  if found ≠ wanted then .error (fault found) else .ok (⟨⟩, b)

theorem codes_expect {α : Type} [DecidableEq α] (x : α) (fault : α → ReadError) : Codes (expect x fault x) [] ⟨⟩ := by
  have hexpect : expect x fault x = fun b => .ok (⟨⟩, b) := by
    funext b
    exact if_neg (not_not_intro rfl)
  rw [hexpect]
  exact codes_pure _

theorem readHeader_eq : readHeader = readByte.andThen fun t => (expect tag .badTag t).andThen fun _ =>
    Reader.andThen readWord fun v => (expect version .version v).andThen fun _ => readWord := by
  funext b
  cases b with
  | nil => rfl
  | cons t b =>
    simp only [readHeader, Reader.andThen, readByte, expect, bind, Except.bind]
    by_cases ht : t = tag
    · simp only [ht, ne_eq, not_true, if_false]
      cases readWord b with
      | error e => rfl
      | ok p => by_cases hv : p.1 = version <;> simp [hv]
    · simp [ht]

theorem codes_header {count : Nat} (h : count < 2 ^ 32) : Codes readHeader (headerBytes count) count := by
  have hbytes : headerBytes count = [tag] ++ ([] ++ (writeWord version ++ ([] ++ writeWord count))) := rfl
  rw [readHeader_eq, hbytes]
  refine (codes_byte tag).andThen ((codes_expect tag _).andThen ?_)
  exact (codes_word (by decide)).andThen ((codes_expect version _).andThen (codes_word h))

/-- Read all modules behind a header. -/
def readAll : Reader (List Loaded) := Reader.andThen readHeader (readModules (m := Id) files 0)

theorem decode_eq (b : Bytes) : decode (m := Id) files b = match readAll files b with
    | .error e => .error e
    | .ok (ms, rest) => if rest.isEmpty then .ok ms else .error (.trailing rest.length) := by
  simp only [decode, readAll, Reader.andThen, bind, Except.bind]
  cases readHeader b with
  | error e => rfl
  | ok p =>
    cases readModules (m := Id) files 0 p.1 p.2 with
    | error e => rfl
    | ok q => rfl

variable {files} in
/-- An artifact is read only if nothing stands behind its modules. -/
theorem decode_ok {b : Bytes} {xs : List Loaded} (h : decode (m := Id) files b = .ok xs) : readAll files b = .ok (xs, []) := by
  rw [decode_eq] at h
  cases hall : readAll files b with
  | error e => rw [hall] at h; cases h
  | ok p =>
    obtain ⟨ms, rest⟩ := p
    rw [hall] at h
    simp only at h
    split at h
    · next hend => rw [List.isEmpty_iff.mp hend, Except.ok.inj h]
    · cases h

theorem codes_all {ss : List Stored} {xs : List Loaded} (hcount : ss.length < 2 ^ 32)
    (h : List.Forall₂ (fun s x => s.Fits ∧ Stored.load (m := Id) files s = .ok x) ss xs) :
    Codes (readAll files) (headerBytes ss.length ++ ss.flatMap Stored.bytes) xs :=
  (codes_header hcount).andThen (codes_modules files 0 h)

end Files

/-! ### What is written is read back -/

/-- A module as it is written. -/
def Entry.stored (enc : Encoding) (e : Entry) (payload : Bytes) : Stored := ⟨enc.number, e.name, payload⟩

/-- What is read back of a module. -/
def Entry.loaded (enc : Encoding) (e : Entry) : Loaded := ⟨e.name, enc, e.payload⟩

/-- What is written of a module has room in its fields: its name, and its payload as it is stored. -/
structure Entry.Fits (enc : Encoding) (e : Entry) : Prop where
  name : e.name.length < 2 ^ 32
  payload : ∀ b, e.stored? enc = some b → b.length < 2 ^ 32

/-- The bytes of a module can be found again: those of a module that is stored by reference are in the file that it refers
to. -/
def Entry.Held (files : String → Except Fault Bytes) (enc : Encoding) (e : Entry) : Prop :=
  enc = .ref → ∀ path, e.ref = some path → files path = .ok e.payload

theorem encode_entry_ok {enc : Encoding} {e : Entry} {bytes : Bytes} :
    e.encode enc = .ok bytes ↔ ∃ b, e.stored? enc = some b ∧ bytes = (e.stored enc b).bytes := by
  unfold Entry.encode
  cases e.stored? enc with
  | none => simp
  | some b =>
    simp only [Except.ok.injEq, Option.some.injEq, exists_eq_left']
    exact eq_comm

/-- Modules as they stand in an artifact, for modules that are written. -/
def Stores (enc : Encoding) (es : List Entry) (ss : List Stored) : Prop :=
  List.Forall₂ (fun e s => ∃ b, e.stored? enc = some b ∧ s = e.stored enc b) es ss

theorem mapM_encode_ok {enc : Encoding} {es : List Entry} {bodies : List Bytes} :
    es.mapM (Entry.encode enc) = .ok bodies ↔ ∃ ss, Stores enc es ss ∧ bodies = ss.map Stored.bytes := by
  induction es generalizing bodies with
  | nil =>
    constructor
    · intro h
      exact ⟨[], .nil, (Except.ok.inj h).symm⟩
    · rintro ⟨ss, hs, rfl⟩
      cases hs
      rfl
  | cons e es ih =>
    rw [List.mapM_cons]
    constructor
    · intro h
      cases he : e.encode enc with
      | error n => rw [he] at h; cases h
      | ok b =>
        rw [he] at h
        cases hrest : es.mapM (Entry.encode enc) with
        | error n => rw [hrest] at h; cases h
        | ok bs =>
          rw [hrest] at h
          obtain ⟨ss, hss, rfl⟩ := ih.mp hrest
          obtain ⟨payload, hpayload, rfl⟩ := encode_entry_ok.mp he
          exact ⟨e.stored enc payload :: ss, .cons ⟨payload, hpayload, rfl⟩ hss, (Except.ok.inj h).symm⟩
    · rintro ⟨_, hs, rfl⟩
      cases hs with
      | @cons _ s _ ss hfirst hrest =>
        obtain ⟨payload, hpayload, rfl⟩ := hfirst
        rw [encode_entry_ok.mpr ⟨payload, hpayload, rfl⟩, ih.mpr ⟨ss, hrest, rfl⟩]
        rfl

theorem encode_ok {enc : Encoding} {es : List Entry} {bytes : Bytes} :
    encode enc es = .ok bytes ↔ ∃ ss, Stores enc es ss ∧ bytes = headerBytes ss.length ++ ss.flatMap Stored.bytes := by
  have hshape : encode enc es = (es.mapM (Entry.encode enc)).map fun bodies => headerBytes es.length ++ bodies.flatten := by
    unfold encode
    cases es.mapM (Entry.encode enc) <;> simp [bind, Except.bind, Except.map, pure, Except.pure, headerBytes]
  rw [hshape]
  constructor
  · intro h
    cases hbodies : es.mapM (Entry.encode enc) with
    | error n => rw [hbodies] at h; cases h
    | ok bodies =>
      obtain ⟨ss, hss, rfl⟩ := mapM_encode_ok.mp hbodies
      rw [hbodies] at h
      exact ⟨ss, hss, by rw [← Except.ok.inj h, hss.length_eq, List.flatMap_def]⟩
  · rintro ⟨ss, hss, rfl⟩
    rw [mapM_encode_ok.mpr ⟨ss, hss, rfl⟩, hss.length_eq, List.flatMap_def]
    rfl

theorem load_stored {files : String → Except Fault Bytes} {enc : Encoding} {e : Entry} {b : Bytes}
    (hb : e.stored? enc = some b) (hheld : e.Held files enc) :
    Stored.load (m := Id) files (e.stored enc b) = .ok (e.loaded enc) := by
  cases enc with
  | raw =>
    cases hb
    rfl
  | lz4 =>
    cases hb
    simp only [Stored.load, Entry.stored, Encoding.number, Encoding.ofNumber?, Encoding.all]
    rw [Lz4.decompress?_compress]
    rfl
  | ref =>
    obtain ⟨path, hpath, rfl⟩ := Option.map_eq_some_iff.mp hb
    have hfile := hheld rfl path hpath
    simp only [Stored.load, Entry.stored, Encoding.number, Encoding.ofNumber?, Encoding.all]
    rw [Text.decode?_encode, Option.getD_some, hfile]
    rfl

/-- The artifact of modules that fit is read back as these modules. -/
theorem codes_encode {files : String → Except Fault Bytes} {enc : Encoding} {es : List Entry} {bytes : Bytes}
    (h : encode enc es = .ok bytes) (hcount : es.length < 2 ^ 32) (hfits : ∀ e ∈ es, e.Fits enc)
    (hheld : ∀ e ∈ es, e.Held files enc) : Codes (readAll files) bytes (es.map (Entry.loaded enc)) := by
  obtain ⟨ss, hss, rfl⟩ := encode_ok.mp h
  refine codes_all files (hss.length_eq ▸ hcount) ?_
  clear h hcount
  induction hss with
  | nil => exact .nil
  | @cons e s es ss hs _ ih =>
    obtain ⟨hfit, hfits⟩ := List.forall_mem_cons.mp hfits
    obtain ⟨hheld, hhelds⟩ := List.forall_mem_cons.mp hheld
    obtain ⟨b, hb, rfl⟩ := hs
    refine .cons ⟨⟨?_, hfit.name, hfit.payload b hb⟩, load_stored hb hheld⟩ (ih hfits hhelds)
    exact enc.number_lt

theorem decode_encode {files : String → Except Fault Bytes} {enc : Encoding} {es : List Entry} {bytes : Bytes}
    (h : encode enc es = .ok bytes) (hcount : es.length < 2 ^ 32) (hfits : ∀ e ∈ es, e.Fits enc)
    (hheld : ∀ e ∈ es, e.Held files enc) : decode (m := Id) files bytes = .ok (es.map (Entry.loaded enc)) := by
  have hread := (codes_encode h hcount hfits hheld).whole []
  rw [List.append_nil] at hread
  rw [decode_eq, hread]
  rfl

theorem length_bytes (s : Stored) : s.bytes.length = s.name.length + s.payload.length + 9 := by
  simp only [Stored.bytes, writeBytes, writeWord, List.length_append, List.length_cons, Number.length_lowBytes]
  omega

theorem Stores.length_le {enc : Encoding} {es : List Entry} {ss : List Stored} (h : Stores enc es ss) :
    es.length ≤ (ss.flatMap Stored.bytes).length ∧ ∀ e ∈ es, e.name.length ≤ (ss.flatMap Stored.bytes).length ∧
      ∀ b, e.stored? enc = some b → b.length ≤ (ss.flatMap Stored.bytes).length := by
  induction h with
  | nil => simp
  | @cons e s es ss hs _ ih =>
    obtain ⟨payload, hpayload, rfl⟩ := hs
    have hsize : (e.stored enc payload).bytes.length = e.name.length + payload.length + 9 := length_bytes _
    simp only [List.flatMap_cons, List.length_append, List.length_cons, List.forall_mem_cons]
    refine ⟨by omega, ⟨by omega, fun b hb => ?_⟩, fun o ho => ?_⟩
    · obtain rfl := Option.some.inj (hpayload.symm.trans hb)
      omega
    · obtain ⟨hname, hbody⟩ := ih.2 o ho
      exact ⟨hname.trans (Nat.le_add_left _ _), fun b hb => (hbody b hb).trans (Nat.le_add_left _ _)⟩

/-- An artifact that is short enough has room for its modules. -/
theorem fits_of_length {enc : Encoding} {es : List Entry} {bytes : Bytes} (h : encode enc es = .ok bytes)
    (hlength : bytes.length < 2 ^ 32) : es.length < 2 ^ 32 ∧ ∀ e ∈ es, e.Fits enc := by
  obtain ⟨ss, hss, rfl⟩ := encode_ok.mp h
  obtain ⟨hcount, hall⟩ := hss.length_le
  rw [List.length_append] at hlength
  refine ⟨by omega, fun e he => ?_⟩
  obtain ⟨hname, hbody⟩ := hall e he
  exact ⟨by omega, fun b hb => (hbody b hb).trans_lt (by omega)⟩

/-! ### What is read was written so -/

theorem eq_of_readByte {b rest : Bytes} {x : UInt8} (h : readByte b = .ok (x, rest)) : b = x :: rest := by
  cases b with
  | nil => cases h
  | cons c cs =>
    cases h
    rfl

theorem eq_of_readWord {b rest : Bytes} {n : Nat} (h : readWord b = .ok (n, rest)) : b = writeWord n ++ rest := by
  match b, h with
  | [], h | [_], h | [_, _], h | [_, _, _], h => cases h
  | a :: b :: c :: d :: rest', h =>
    obtain ⟨hn, rfl⟩ := Prod.mk.inj (Except.ok.inj h)
    have hwritten : writeWord n = [a, b, c, d] := by
      rw [← hn]
      exact Number.lowBytes_ofLowBytes [a, b, c, d]
    rw [hwritten]
    rfl

/-- What two readers after one another have read. -/
theorem Reader.andThen_ok {α β : Type} {r : Reader α} {k : α → Reader β} {b rest : Bytes} {y : β}
    (h : r.andThen k b = .ok (y, rest)) : ∃ x b', r b = .ok (x, b') ∧ k x b' = .ok (y, rest) := by
  unfold Reader.andThen at h
  cases hr : r b with
  | error e => rw [hr] at h; cases h
  | ok p =>
    rw [hr] at h
    exact ⟨p.1, p.2, rfl, h⟩

theorem eq_of_readBytes {b rest x : Bytes} (h : readBytes b = .ok (x, rest)) : b = writeBytes x ++ rest := by
  obtain ⟨n, b', hn, hx⟩ := Reader.andThen_ok (r := readWord) (k := takeBytes) h
  unfold takeBytes at hx
  split at hx
  · cases hx
  · next hlen =>
    obtain ⟨rfl, rfl⟩ := Prod.mk.inj (Except.ok.inj hx)
    have hlength : (b'.take n).length = n := by
      rw [List.length_take]
      omega
    rw [writeBytes, hlength, List.append_assoc, List.take_append_drop]
    exact eq_of_readWord hn

theorem eq_of_readStored {b rest : Bytes} {s : Stored} (h : readStored b = .ok (s, rest)) : b = s.bytes ++ rest := by
  rw [readStored_eq] at h
  obtain ⟨enc, b₁, henc, h⟩ := Reader.andThen_ok h
  obtain ⟨name, b₂, hname, h⟩ := Reader.andThen_ok h
  obtain ⟨payload, b₃, hpayload, h⟩ := Reader.andThen_ok h
  obtain ⟨rfl, rfl⟩ := Prod.mk.inj (Except.ok.inj h)
  have hnumber : enc.toNat.toUInt8 = enc := UInt8.toNat_inj.mp (Nat.mod_eq_of_lt enc.toNat_lt)
  rw [eq_of_readByte henc, eq_of_readBytes hname, eq_of_readBytes hpayload]
  simp [Stored.bytes, hnumber]

theorem eq_of_expect {α : Type} [DecidableEq α] {wanted found : α} {fault : α → ReadError} {b rest : Bytes} {u : PUnit}
    (h : expect wanted fault found b = .ok (u, rest)) : found = wanted ∧ rest = b := by
  unfold expect at h
  split at h
  · cases h
  · next hsame => exact ⟨not_not.mp hsame, (Prod.mk.inj (Except.ok.inj h)).2.symm⟩

theorem eq_of_readHeader {b rest : Bytes} {count : Nat} (h : readHeader b = .ok (count, rest)) :
    b = headerBytes count ++ rest := by
  rw [readHeader_eq] at h
  obtain ⟨t, b₁, ht, h⟩ := Reader.andThen_ok h
  obtain ⟨_, b₂, htag, h⟩ := Reader.andThen_ok h
  obtain ⟨v, b₃, hv, h⟩ := Reader.andThen_ok h
  obtain ⟨_, b₄, hversion, hcount⟩ := Reader.andThen_ok h
  obtain ⟨rfl, rfl⟩ := eq_of_expect htag
  obtain ⟨rfl, rfl⟩ := eq_of_expect hversion
  rw [eq_of_readByte ht, eq_of_readWord hv, eq_of_readWord hcount]
  simp [headerBytes]

/-- A module that was read, as one to be written. -/
def Loaded.entry (x : Loaded) : Entry := ⟨x.name, x.data, none⟩

/-- The bytes of a module that is stored as it is. -/
def Loaded.rawBytes (x : Loaded) : Bytes := (x.entry.stored .raw x.data).bytes

theorem eq_of_load {files : String → Except Fault Bytes} {s : Stored} {x : Loaded}
    (h : Stored.load (m := Id) files s = .ok x) (hraw : x.encoding = .raw) : s = x.entry.stored .raw x.data := by
  unfold Stored.load at h
  split at h
  · cases h
  · next hnumber =>
    obtain rfl := Except.ok.inj h
    obtain ⟨number, name, payload⟩ := s
    obtain rfl := Encoding.ofNumber?_eq_raw hnumber
    rfl
  · split at h
    · obtain rfl := Except.ok.inj h
      cases hraw
    · cases h
  · -- a module that was stored by reference is no raw one
    simp only [bind] at h
    split at h
    · obtain rfl := Except.ok.inj h
      cases hraw
    · cases h

theorem readLoaded_ok {files : String → Except Fault Bytes} {index : Nat} {b rest : Bytes} {x : Loaded}
    (h : readLoaded files index b = .ok (x, rest)) :
    ∃ s, readStored b = .ok (s, rest) ∧ Stored.load (m := Id) files s = .ok x := by
  obtain ⟨s, b', hs, hx⟩ := Reader.andThen_ok h
  cases hread : readStored b with
  | error e => rw [hread] at hs; cases hs
  | ok p =>
    rw [hread] at hs
    obtain rfl := Except.ok.inj hs
    cases hload : Stored.load (m := Id) files s with
    | error e => rw [hload] at hx; cases hx
    | ok y =>
      rw [hload] at hx
      obtain ⟨rfl, rfl⟩ := Prod.mk.inj (Except.ok.inj hx)
      exact ⟨s, rfl, hload⟩

theorem eq_of_readLoaded {files : String → Except Fault Bytes} {index : Nat} {b rest : Bytes} {x : Loaded}
    (h : readLoaded files index b = .ok (x, rest)) (hraw : x.encoding = .raw) : b = x.rawBytes ++ rest := by
  obtain ⟨s, hread, hload⟩ := readLoaded_ok h
  rw [eq_of_readStored hread, eq_of_load hload hraw, Loaded.rawBytes]

theorem eq_of_readModules {files : String → Except Fault Bytes} {index n : Nat} {b rest : Bytes} {xs : List Loaded}
    (h : readModules (m := Id) files index n b = .ok (xs, rest)) (hraw : ∀ x ∈ xs, x.encoding = .raw) :
    xs.length = n ∧ b = xs.flatMap Loaded.rawBytes ++ rest := by
  induction n generalizing index b xs with
  | zero =>
    obtain ⟨rfl, rfl⟩ := Prod.mk.inj (Except.ok.inj h)
    exact ⟨rfl, rfl⟩
  | succ n ih =>
    rw [readModules_succ] at h
    obtain ⟨x, b₁, hx, h⟩ := Reader.andThen_ok h
    obtain ⟨more, b₂, hmore, h⟩ := Reader.andThen_ok h
    obtain ⟨rfl, rfl⟩ := Prod.mk.inj (Except.ok.inj h)
    obtain ⟨hfirst, hrest⟩ := List.forall_mem_cons.mp hraw
    obtain ⟨hlen, rfl⟩ := ih hmore hrest
    refine ⟨by rw [List.length_cons, hlen], ?_⟩
    rw [eq_of_readLoaded hx hfirst, List.flatMap_cons, List.append_assoc]

theorem encode_entries_raw (xs : List Loaded) :
    encode .raw (xs.map Loaded.entry) = .ok (headerBytes xs.length ++ xs.flatMap Loaded.rawBytes) := by
  apply encode_ok.mpr
  refine ⟨xs.map fun x => x.entry.stored .raw x.data, ?_, ?_⟩
  · rw [Stores, List.forall₂_map_left_iff, List.forall₂_map_right_iff]
    exact List.forall₂_same.mpr fun x _ => ⟨x.data, rfl, rfl⟩
  · rw [List.length_map, List.flatMap_map]
    rfl

/-- **Artifacts form a prefix code.** The artifact of fewer than `2 ^ 32` modules whose names and stored payloads are shorter
than `2 ^ 32` bytes is read back as these modules, in order, with their names, how they are stored, and their bytes, if the
files that modules refer to hold their bytes. Data that ends anywhere before its end is missed, and data behind its end is
refused. Bytes that are read as modules stored as they are, are the bytes that these modules are written as. -/
theorem artifact_prefixCode (files : String → Except Fault Bytes) :
    (∀ (enc : Encoding) (es : List Entry) (bytes : Bytes), encode enc es = .ok bytes → es.length < 2 ^ 32 →
      (∀ e ∈ es, e.Fits enc) → (∀ e ∈ es, e.Held files enc) →
        decode (m := Id) files bytes = .ok (es.map (Entry.loaded enc)) ∧
        (∀ p, p <+: bytes → p ≠ bytes → ∃ e, decode (m := Id) files p = .error e ∧ e.root = .endOfData) ∧
        (∀ x, x ≠ [] → decode (m := Id) files (bytes ++ x) = .error (.trailing x.length))) ∧
    (∀ (bytes : Bytes) (xs : List Loaded), decode (m := Id) files bytes = .ok xs → (∀ x ∈ xs, x.encoding = .raw) →
      encode .raw (xs.map Loaded.entry) = .ok bytes) := by
  constructor
  · intro enc es bytes hbytes hcount hfits hheld
    have hcodes := codes_encode hbytes hcount hfits hheld
    refine ⟨decode_encode hbytes hcount hfits hheld, fun p hp hne => ?_, fun x hx => ?_⟩
    · obtain ⟨e, he, hroot⟩ := hcodes.cut p hp hne
      exact ⟨e, by rw [decode_eq, he], hroot⟩
    · rw [decode_eq, hcodes.whole]
      simp [hx]
  · intro bytes xs hread hraw
    obtain ⟨count, b, hcount, hms⟩ := Reader.andThen_ok (decode_ok hread)
    obtain ⟨hlen, hb⟩ := eq_of_readModules hms hraw
    rw [encode_entries_raw, eq_of_readHeader hcount, hb, hlen, List.append_nil]

/-- An artifact of one module, whose bytes are these. -/
theorem artifact_oneModule_prefixCode :
    let files : String → Except Fault Bytes := fun p => .error ⟨"open", p, .missing⟩
    let bytes : Bytes := [0x4C, 1, 0, 0, 0, 1, 0, 0, 0, 0, 1, 0, 0, 0, 0x6D, 2, 0, 0, 0, 7, 8]
    (decode (m := Id) files bytes = .ok [⟨[0x6D], .raw, [7, 8]⟩] ∧
      (∀ p, p <+: bytes → p ≠ bytes → ∃ e, decode (m := Id) files p = .error e ∧ e.root = .endOfData) ∧
      (∀ x, x ≠ [] → decode (m := Id) files (bytes ++ x) = .error (.trailing x.length))) ∧
    encode .raw [⟨[0x6D], [7, 8], none⟩] = .ok bytes := by
  intro files bytes
  obtain ⟨hwritten, hread⟩ := artifact_prefixCode files
  have hfits : ∀ e ∈ [(⟨[0x6D], [7, 8], none⟩ : Entry)], e.Fits .raw := by
    refine List.forall_mem_singleton.mpr ⟨by decide, fun b hb => ?_⟩
    cases hb
    decide
  have hdecode : decode (m := Id) files bytes = .ok [⟨[0x6D], .raw, [7, 8]⟩] := rfl
  exact ⟨hwritten .raw [⟨[0x6D], [7, 8], none⟩] bytes rfl (by decide) hfits (fun e _ h => by cases h),
    hread bytes [⟨[0x6D], .raw, [7, 8]⟩] hdecode (List.forall_mem_singleton.mpr rfl)⟩

/-! ### Modules without room -/

theorem length_of_readBytes {b rest x : Bytes} (h : readBytes b = .ok (x, rest)) : x.length < 2 ^ 32 := by
  obtain ⟨n, b', hn, hx⟩ := Reader.andThen_ok (r := readWord) (k := takeBytes) h
  have hword : n < 2 ^ 32 := by
    match b, hn with
    | [], hn | [_], hn | [_, _], hn | [_, _, _], hn => cases hn
    | a :: b :: c :: d :: rest', hn =>
      have hpower : Number.power 256 4 = 2 ^ 32 := by decide
      rw [← (Prod.mk.inj (Except.ok.inj hn)).1, ← hpower]
      exact Number.ofLowBytes_lt [a, b, c, d]
  unfold takeBytes at hx
  split at hx
  · cases hx
  · obtain ⟨rfl, -⟩ := Prod.mk.inj (Except.ok.inj hx)
    exact (List.length_take_le n b').trans_lt hword

/-- What is read of a module has room in its fields. -/
theorem fits_of_readStored {b rest : Bytes} {s : Stored} (h : readStored b = .ok (s, rest)) : s.Fits := by
  rw [readStored_eq] at h
  obtain ⟨enc, b₁, -, h⟩ := Reader.andThen_ok h
  obtain ⟨name, b₂, hname, h⟩ := Reader.andThen_ok h
  obtain ⟨payload, b₃, hpayload, h⟩ := Reader.andThen_ok h
  obtain ⟨rfl, -⟩ := Prod.mk.inj (Except.ok.inj h)
  exact ⟨enc.toNat_lt, length_of_readBytes hname, length_of_readBytes hpayload⟩

/-- If the bytes of a module are read as one module, and its name has room, then its payload has room too. -/
theorem room_of_readStored {s t : Stored} (hname : s.name.length < 2 ^ 32) (h : readStored s.bytes = .ok (t, [])) :
    s.payload.length < 2 ^ 32 := by
  have hfits := fits_of_readStored h
  have hbytes := eq_of_readStored h
  rw [List.append_nil] at hbytes
  obtain ⟨-, htail⟩ := List.cons.inj hbytes
  -- both names end at the same place, so the two payloads are equally long
  have hs := (codes_bytes hname).whole (writeBytes s.payload)
  have ht := (codes_bytes hfits.name).whole (writeBytes t.payload)
  obtain ⟨-, hpayload⟩ := Prod.mk.inj (Except.ok.inj (hs.symm.trans ((congrArg readBytes htail).trans ht)))
  have hlength := congrArg List.length hpayload
  simp only [writeBytes, writeWord, List.length_append, Number.length_lowBytes] at hlength
  have hroom := hfits.payload
  omega

theorem room_of_decode {files : String → Except Fault Bytes} {s : Stored} {xs : List Loaded} (hname : s.name.length < 2 ^ 32)
    (h : decode (m := Id) files (headerBytes 1 ++ s.bytes) = .ok xs) : s.payload.length < 2 ^ 32 := by
  obtain ⟨count, b, hcount, hms⟩ := Reader.andThen_ok (decode_ok h)
  obtain ⟨rfl, rfl⟩ := Prod.mk.inj (Except.ok.inj (hcount.symm.trans ((codes_header (by decide)).whole _)))
  rw [readModules_succ] at hms
  obtain ⟨x, b₁, hx, hms⟩ := Reader.andThen_ok hms
  obtain ⟨more, b₂, hmore, hms⟩ := Reader.andThen_ok hms
  obtain ⟨-, rfl⟩ := Prod.mk.inj (Except.ok.inj hms)
  obtain ⟨-, rfl⟩ := Prod.mk.inj (Except.ok.inj hmore)
  obtain ⟨t, hread, -⟩ := readLoaded_ok hx
  exact room_of_readStored hname hread

/-- Room for the module itself is not enough: a module shorter than `2 ^ 32` bytes may have a longer frame. Its artifact is
written without an error, with a wrong length in front of the frame, and is not read back. -/
theorem artifact_longFrame_unreadable : ∃ (e : Entry) (bytes : Bytes), e.name.length < 2 ^ 32 ∧ e.payload.length < 2 ^ 32 ∧
    encode .lz4 [e] = .ok bytes ∧ ∀ files xs, decode (m := Id) files bytes ≠ .ok xs := by
  obtain ⟨payload, hlength, hlong⟩ := Lz4.exists_longFrame (2 ^ 32 - 1)
  have hname : ([0x6D] : Bytes).length < 2 ^ 32 := by decide
  have hwritten : encode .lz4 [⟨[0x6D], payload, none⟩] =
      .ok (headerBytes 1 ++ [(⟨1, [0x6D], Lz4.compress payload⟩ : Stored)].flatMap Stored.bytes) :=
    encode_ok.mpr ⟨_, .cons ⟨_, rfl, rfl⟩ .nil, rfl⟩
  have hpayload : payload.length < 2 ^ 32 := by omega
  refine ⟨_, _, hname, hpayload, hwritten, fun files xs hread => ?_⟩
  rw [List.flatMap_singleton] at hread
  have hroom := room_of_decode hname hread
  simp only at hroom
  omega

end Artifact

end Weft
