/-
  Yabiir.Format.Entry

  `.bitcask.data` entries (`src/format/entry.rs`): their encoding, the reading
  of one entry from the front of a source, and what the two say to each other.
-/

import Yabiir.Format.Basic

namespace Yabiir.Format

def headerSize : Nat := 16

structure Entry where
  header : EntryHeader
  key : Bytes
  value : Bytes
  deriving DecidableEq, Repr

def Entry.isTombstone (entry : Entry) : Bool := entry.header.tombstone

/-- A fully encoded entry, with the length of the value at its end. -/
structure EncodedEntry where
  bytes : Bytes
  valueLen : Nat
  deriving DecidableEq, Repr

/-- Result of reading one entry: a valid one with its total length, a torn
    one, or a complete one whose checksum does not match. -/
inductive EntryRead where
  | ok (entry : Entry) (totalLen : Nat)
  | truncated
  | crcMismatch (totalLen : Nat)
  deriving DecidableEq, Repr

/-- The entry without its checksum: timestamp, key size and flag, value size,
    key, value. -/
def entryBody (key value : Bytes) (tombstone : Bool) (timestamp : UInt32) : Bytes :=
  toLeBytes 4 timestamp.toNat
    ++ toLeBytes 4 (encodeKeySize (key.length % 2 ^ 32) tombstone)
    ++ toLeBytes 4 (value.length % 2 ^ 32)
    ++ key ++ value

section Checksum

variable [Crc32Fast]

/-- Encode a full entry, checksum included. -/
def encodeEntry (key value : Bytes) (tombstone : Bool) (timestamp : UInt32) : EncodedEntry where
  bytes :=
    let body := entryBody key value tombstone timestamp
    toLeBytes 4 (Crc32Fast.hash body).toNat ++ body
  valueLen := value.length

/-- Decode a 16-byte entry header into the stored checksum and the fields. -/
def decodeEntryHeader (buf : Bytes) : UInt32 × EntryHeader :=
  let crc := UInt32.ofNat (ofLeBytes (buf.take 4))
  let timestamp := UInt32.ofNat (ofLeBytes ((buf.drop 4).take 4))
  let keySizeAndFlags := ofLeBytes ((buf.drop 8).take 4)
  let valueSize := ofLeBytes ((buf.drop 12).take 4)
  let (keySize, tombstone) := decodeKeySize keySizeAndFlags
  (crc, { timestamp, keySize, valueSize, tombstone })

def verifyCrc (crc : UInt32) (restOfEntry : Bytes) : Bool :=
  Crc32Fast.hash restOfEntry == crc

/-- Read one entry from `r`, which stands at the start of the entry.  `none` is
    a clean end of file at an entry boundary. -/
def readEntry {R : Type} [Read R] (r : R) : Option EntryRead × R :=
  let (headerBuf, r) := readUpTo r headerSize
  if headerBuf.length = 0 then (none, r)
  else if headerBuf.length < headerSize then (some .truncated, r)
  else
    let (crc, header) := decodeEntryHeader headerBuf
    let bodyLen := header.keySize + header.valueSize
    let (body, r) := readUpTo r bodyLen
    if body.length < bodyLen then (some .truncated, r)
    else
      let totalLen := headerSize + bodyLen
      if !verifyCrc crc (headerBuf.drop 4 ++ body) then (some (.crcMismatch totalLen), r)
      else
        let key := body.take header.keySize
        let value := body.drop header.keySize
        (some (.ok { header, key, value } totalLen), r)

/-! ## Lengths -/

omit [Crc32Fast] in
@[simp] theorem length_entryBody (key value : Bytes) (tombstone : Bool) (timestamp : UInt32) :
    (entryBody key value tombstone timestamp).length = 12 + key.length + value.length := by
  simp [entryBody]
  omega

@[simp] theorem length_encodeEntry (key value : Bytes) (tombstone : Bool)
    (timestamp : UInt32) :
    (encodeEntry key value tombstone timestamp).bytes.length
      = headerSize + key.length + value.length := by
  simp [encodeEntry, headerSize]
  omega

@[simp] theorem valueLen_encodeEntry (key value : Bytes) (tombstone : Bool)
    (timestamp : UInt32) :
    (encodeEntry key value tombstone timestamp).valueLen = value.length := rfl

/-! ## Reading back an encoding -/

/-- The header fields an encoding of these components carries. -/
def headerOf (key value : Bytes) (tombstone : Bool) (timestamp : UInt32) : EntryHeader where
  timestamp := timestamp
  keySize := key.length
  valueSize := value.length
  tombstone := tombstone

/-- The first 16 bytes of an encoding. -/
def entryHeader (key value : Bytes) (tombstone : Bool) (timestamp : UInt32) : Bytes :=
  toLeBytes 4 (Crc32Fast.hash (entryBody key value tombstone timestamp)).toNat
    ++ toLeBytes 4 timestamp.toNat
    ++ toLeBytes 4 (encodeKeySize (key.length % 2 ^ 32) tombstone)
    ++ toLeBytes 4 (value.length % 2 ^ 32)

theorem encodeEntry_bytes (key value : Bytes) (tombstone : Bool) (timestamp : UInt32) :
    (encodeEntry key value tombstone timestamp).bytes
      = entryHeader key value tombstone timestamp ++ (key ++ value) := by
  simp [encodeEntry, entryHeader, entryBody, List.append_assoc]

@[simp] theorem length_entryHeader (key value : Bytes) (tombstone : Bool)
    (timestamp : UInt32) :
    (entryHeader key value tombstone timestamp).length = headerSize := by
  simp [entryHeader, headerSize]

/-- Decoding the header of an encoding gives its checksum and its fields. -/
theorem decodeEntryHeader_entryHeader {key value : Bytes} (hkey : key.length ≤ maxKeyLen)
    (hvalue : value.length < 2 ^ 32) (tombstone : Bool) (timestamp : UInt32) :
    decodeEntryHeader (entryHeader key value tombstone timestamp)
      = (Crc32Fast.hash (entryBody key value tombstone timestamp),
          headerOf key value tombstone timestamp) := by
  have hklt : key.length < 2 ^ 32 := by simp only [maxKeyLen, keySizeMask] at hkey; omega
  have hk : key.length % 2 ^ 32 = key.length := Nat.mod_eq_of_lt hklt
  have hv : value.length % 2 ^ 32 = value.length := Nat.mod_eq_of_lt hvalue
  simp only [decodeEntryHeader, entryHeader, List.append_assoc]
  rw [List.take_left' (length_toLeBytes ..)]
  have h4 : ∀ rest : Bytes, (toLeBytes 4 (Crc32Fast.hash
      (entryBody key value tombstone timestamp)).toNat ++ rest).drop 4 = rest :=
    fun rest => List.drop_left' (length_toLeBytes ..)
  have h8 : ∀ (a b rest : Bytes), a.length = 4 → b.length = 4 →
      (a ++ (b ++ rest)).drop 8 = rest := by
    intro a b rest ha hb
    rw [show 8 = 4 + 4 from rfl, ← List.drop_drop, List.drop_left' ha, List.drop_left' hb]
  have h12 : ∀ (a b c rest : Bytes), a.length = 4 → b.length = 4 → c.length = 4 →
      (a ++ (b ++ (c ++ rest))).drop 12 = rest := by
    intro a b c rest ha hb hc
    rw [show 12 = 8 + 4 from rfl, ← List.drop_drop, h8 a b _ ha hb, List.drop_left' hc]
  rw [h4, List.take_left' (length_toLeBytes ..),
    h8 _ _ _ (length_toLeBytes ..) (length_toLeBytes ..), List.take_left' (length_toLeBytes ..),
    h12 _ _ _ _ (length_toLeBytes ..) (length_toLeBytes ..) (length_toLeBytes ..),
    List.take_of_length_le (le_of_eq (length_toLeBytes ..)),
    ofLeBytes_toLeBytes_of_lt (UInt32.toNat_lt _), ofLeBytes_toLeBytes_of_lt (UInt32.toNat_lt _),
    hk, hv, ofLeBytes_toLeBytes_of_lt (encodeKeySize_lt hkey tombstone),
    ofLeBytes_toLeBytes_of_lt (by simpa using hvalue),
    decodeKeySize_encodeKeySize hkey tombstone]
  simp [headerOf]

theorem drop_entryHeader (key value : Bytes) (tombstone : Bool) (timestamp : UInt32) :
    (entryHeader key value tombstone timestamp).drop 4 ++ (key ++ value)
      = entryBody key value tombstone timestamp := by
  simp only [entryHeader, entryBody, List.append_assoc]
  rw [List.drop_left' (length_toLeBytes ..)]
  simp [List.append_assoc]

/-- What `readEntry` does on a buffer, with the buffer's own slices in place of
    the reads. -/
theorem readEntry_bytes (bs : Bytes) :
    readEntry bs =
      if bs = [] then (none, [])
      else if bs.length < headerSize then (some .truncated, [])
      else
        let header := (decodeEntryHeader (bs.take headerSize)).2
        let bodyLen := header.keySize + header.valueSize
        let body := (bs.drop headerSize).take bodyLen
        if bs.length < headerSize + bodyLen then (some .truncated, [])
        else if verifyCrc (decodeEntryHeader (bs.take headerSize)).1
            ((bs.take headerSize).drop 4 ++ body) then
          (some (.ok { header, key := body.take header.keySize, value := body.drop header.keySize }
            (headerSize + bodyLen)), bs.drop (headerSize + bodyLen))
        else (some (.crcMismatch (headerSize + bodyLen)), bs.drop (headerSize + bodyLen)) := by
  unfold readEntry
  simp only [readUpTo_bytes, List.length_take, List.length_drop]
  by_cases hnil : bs = []
  · simp [hnil]
  · have hpos : 0 < bs.length := List.length_pos_iff.mpr hnil
    by_cases hhdr : bs.length < headerSize
    · have hmin : min headerSize bs.length = bs.length := by omega
      rw [hmin, if_neg (by omega), if_pos hhdr, if_neg hnil, if_pos hhdr,
        List.drop_eq_nil_of_le (by omega)]
    · have hmin : min headerSize bs.length = headerSize := by omega
      rw [hmin, if_neg (by simp [headerSize]), if_neg (by omega), if_neg hnil, if_neg hhdr]
      generalize decodeEntryHeader (bs.take headerSize) = parsed
      obtain ⟨crc, header⟩ := parsed
      dsimp only
      by_cases hbody : bs.length < headerSize + (header.keySize + header.valueSize)
      · rw [if_pos (by omega), if_pos hbody, List.drop_eq_nil_of_le]
        simp only [List.length_drop]
        omega
      · rw [if_neg (by omega), if_neg hbody, List.drop_drop]
        cases verifyCrc crc _ <;> rfl

/-- Reading from the front of an encoding gives the entry back and leaves what
    follows it. -/
theorem readEntry_encodeEntry {key value : Bytes} (hkey : key.length ≤ maxKeyLen)
    (hvalue : value.length < 2 ^ 32) (tombstone : Bool) (timestamp : UInt32) (rest : Bytes) :
    readEntry ((encodeEntry key value tombstone timestamp).bytes ++ rest)
      = (some (.ok { header := headerOf key value tombstone timestamp, key, value }
            (headerSize + (key.length + value.length))), rest) := by
  have hlen : (key ++ value).length = key.length + value.length := List.length_append
  have hhdr := length_entryHeader key value tombstone timestamp
  have hdrop : ((encodeEntry key value tombstone timestamp).bytes ++ rest).drop
      (headerSize + (key.length + value.length)) = rest :=
    List.drop_left' (by simp [Nat.add_assoc])
  have htake : ((encodeEntry key value tombstone timestamp).bytes ++ rest).take headerSize
      = entryHeader key value tombstone timestamp := by
    rw [encodeEntry_bytes, List.append_assoc, List.take_left' hhdr]
  have hbody : (((encodeEntry key value tombstone timestamp).bytes ++ rest).drop headerSize).take
      (key.length + value.length) = key ++ value := by
    rw [encodeEntry_bytes, List.append_assoc, List.drop_left' hhdr, List.take_left' hlen]
  have hdec := decodeEntryHeader_entryHeader hkey hvalue tombstone timestamp
  have hk : (headerOf key value tombstone timestamp).keySize = key.length := rfl
  have hv : (headerOf key value tombstone timestamp).valueSize = value.length := rfl
  have hsum : verifyCrc (Crc32Fast.hash (entryBody key value tombstone timestamp))
      (entryBody key value tombstone timestamp) = true := by simp [verifyCrc]
  have hfit : ¬ ((encodeEntry key value tombstone timestamp).bytes ++ rest).length
      < headerSize + (key.length + value.length) := by simp; omega
  rw [readEntry_bytes, if_neg (by simp [encodeEntry_bytes, ← List.length_eq_zero_iff, headerSize]),
    if_neg (by simp; omega)]
  simp only [htake, hdec, hk, hv, hbody, hdrop, drop_entryHeader, hsum, hfit, if_true, if_false]
  simp

/-- A proper prefix of an encoding that is not empty reads as torn. -/
theorem readEntry_cut {key value : Bytes} (hkey : key.length ≤ maxKeyLen)
    (hvalue : value.length < 2 ^ 32) (tombstone : Bool) (timestamp : UInt32) {bs : Bytes}
    (hpre : bs <+: (encodeEntry key value tombstone timestamp).bytes) (hpos : bs ≠ [])
    (hlt : bs.length < headerSize + (key.length + value.length)) :
    readEntry bs = (some .truncated, []) := by
  rw [readEntry_bytes, if_neg hpos]
  by_cases hhdr : bs.length < headerSize
  · rw [if_pos hhdr]
  · -- the header is whole, so it names the length the prefix falls short of
    obtain ⟨rest, hrest⟩ := hpre
    have htake : bs.take headerSize = entryHeader key value tombstone timestamp := by
      have h := congrArg (List.take headerSize) hrest
      rwa [encodeEntry_bytes, List.take_append_of_le_length (by omega),
        List.take_left' (length_entryHeader ..)] at h
    have hdec := decodeEntryHeader_entryHeader hkey hvalue tombstone timestamp
    have hk : (headerOf key value tombstone timestamp).keySize = key.length := rfl
    have hv : (headerOf key value tombstone timestamp).valueSize = value.length := rfl
    simp only [htake, hdec, hk, hv, hhdr, hlt, if_true, if_false]

/-! ## What a successful read says about the bytes -/

/-- Where `readEntry` finds a valid entry, the key and the value are the slices
    of the buffer behind the header, and the rest is what follows them. -/
theorem readEntry_ok {bs rest : Bytes} {entry : Entry} {n : Nat}
    (h : readEntry bs = (some (.ok entry n), rest)) :
    n = headerSize + (entry.header.keySize + entry.header.valueSize) ∧ n ≤ bs.length ∧
      rest = bs.drop n ∧ entry.key = (bs.drop headerSize).take entry.header.keySize ∧
      entry.value = (bs.drop (headerSize + entry.header.keySize)).take entry.header.valueSize := by
  rw [readEntry_bytes] at h
  split at h
  · cases h
  · split at h
    · cases h
    · dsimp only at h
      generalize hhdr : (decodeEntryHeader (bs.take headerSize)).2 = header at h
      split at h
      · cases h
      · rename_i hlen
        split at h
        · cases h
          refine ⟨rfl, by omega, rfl, ?_, ?_⟩
          · rw [List.take_take, Nat.min_eq_left (by omega)]
          · rw [List.drop_take, List.drop_drop, Nat.add_sub_cancel_left]
        · cases h

omit [Crc32Fast] in
/-- A decoded header is within the format's limits. -/
theorem decodeEntryHeader_fits (buf : Bytes) (h : buf.length = headerSize) :
    (decodeEntryHeader buf).2.keySize ≤ maxKeyLen ∧ (decodeEntryHeader buf).2.valueSize < 2 ^ 32 := by
  have hlen : ((buf.drop 12).take 4).length = 4 := by simp [h, headerSize]
  have hlt := ofLeBytes_lt ((buf.drop 12).take 4)
  rw [hlen] at hlt
  exact ⟨decodeKeySize_fst_le _, by simpa [decodeEntryHeader] using hlt⟩

/-- An entry whose header carries the lengths of its key and its value, both
    within the format's limits. -/
structure Entry.Fits (entry : Entry) : Prop where
  keySize : entry.header.keySize = entry.key.length
  valueSize : entry.header.valueSize = entry.value.length
  key : entry.key.length ≤ maxKeyLen
  value : entry.value.length < 2 ^ 32

/-- Every entry that reads as valid is of that kind. -/
theorem readEntry_fits {bs rest : Bytes} {entry : Entry} {n : Nat}
    (h : readEntry bs = (some (.ok entry n), rest)) : entry.Fits := by
  obtain ⟨hn, hle, -, hkey, hvalue⟩ := readEntry_ok h
  have hheader : entry.header = (decodeEntryHeader (bs.take headerSize)).2 := by
    rw [readEntry_bytes] at h
    split at h
    · cases h
    · split at h
      · cases h
      · dsimp only at h
        split at h
        · cases h
        · split at h <;> cases h
          rfl
  have hfits := decodeEntryHeader_fits (bs.take headerSize) (by simp; omega)
  rw [← hheader] at hfits
  have hk : entry.header.keySize = entry.key.length := by rw [hkey]; simp; omega
  have hv : entry.header.valueSize = entry.value.length := by rw [hvalue]; simp; omega
  exact ⟨hk, hv, hk ▸ hfits.1, hv ▸ hfits.2⟩

omit [Crc32Fast] in
/-- A header is the encoding of what it decodes to. -/
theorem encode_decodeEntryHeader {buf : Bytes} (h : buf.length = headerSize) {crc : UInt32}
    {header : EntryHeader} (hdec : decodeEntryHeader buf = (crc, header)) :
    buf = toLeBytes 4 crc.toNat ++ toLeBytes 4 header.timestamp.toNat
      ++ toLeBytes 4 (encodeKeySize header.keySize header.tombstone)
      ++ toLeBytes 4 header.valueSize := by
  have h4 : (buf.take 4).length = 4 := by simp [h, headerSize]
  have h8 : ((buf.drop 4).take 4).length = 4 := by simp [h, headerSize]
  have h12 : ((buf.drop 8).take 4).length = 4 := by simp [h, headerSize]
  have h16 : ((buf.drop 12).take 4).length = 4 := by simp [h, headerSize]
  have hsplit : buf = buf.take 4 ++ (buf.drop 4).take 4 ++ (buf.drop 8).take 4
      ++ (buf.drop 12).take 4 := by
    have hlast : (buf.drop 12).take 4 = buf.drop 12 :=
      List.take_of_length_le (by simp [h, headerSize])
    have hthird : (buf.drop 8).take 4 ++ buf.drop 12 = buf.drop 8 := by
      rw [show buf.drop 12 = (buf.drop 8).drop 4 by rw [List.drop_drop], List.take_append_drop]
    have hsecond : (buf.drop 4).take 4 ++ buf.drop 8 = buf.drop 4 := by
      rw [show buf.drop 8 = (buf.drop 4).drop 4 by rw [List.drop_drop], List.take_append_drop]
    rw [hlast, List.append_assoc, hthird, List.append_assoc, hsecond, List.take_append_drop]
  cases hdec
  have hword : ∀ {bs : Bytes}, bs.length = 4 →
      toLeBytes 4 (UInt32.ofNat (ofLeBytes bs)).toNat = bs := fun {bs} hbs => by
    rw [UInt32.toNat_ofNat_of_lt' (by simpa [UInt32.size] using ofLeBytes_four_lt hbs),
      toLeBytes_four hbs]
  have hpack := encodeKeySize_decodeKeySize (ofLeBytes_four_lt h12)
  unfold decodeKeySize at hpack
  dsimp only at hpack ⊢
  rw [hword h4, hword h8, hpack, toLeBytes_four h12, toLeBytes_four h16]
  exact hsplit

/-- What reads as a valid entry is the encoding of that entry. -/
theorem take_of_readEntry {bs rest : Bytes} {entry : Entry} {n : Nat}
    (h : readEntry bs = (some (.ok entry n), rest)) :
    bs.take n = (encodeEntry entry.key entry.value entry.header.tombstone
      entry.header.timestamp).bytes := by
  have hfits := readEntry_fits h
  have hklt : entry.key.length % 2 ^ 32 = entry.header.keySize := by
    have := hfits.key
    simp only [maxKeyLen, keySizeMask] at this
    rw [hfits.keySize, Nat.mod_eq_of_lt (by omega)]
  have hvlt : entry.value.length % 2 ^ 32 = entry.header.valueSize := by
    rw [hfits.valueSize, Nat.mod_eq_of_lt hfits.value]
  rw [readEntry_bytes] at h
  split at h
  · cases h
  · split at h
    · cases h
    · rename_i hhdr
      have hbuf : (bs.take headerSize).length = headerSize := by simp; omega
      generalize hdec : decodeEntryHeader (bs.take headerSize) = parsed at h
      obtain ⟨crc, header⟩ := parsed
      have hheader := encode_decodeEntryHeader hbuf hdec
      dsimp only at h
      split at h
      · cases h
      · split at h
        · rename_i hcrc
          cases h
          dsimp only at hklt hvlt ⊢
          -- the body the checksum covers is the one the encoder would write
          have hbody : (bs.take headerSize).drop 4
                ++ (bs.drop headerSize).take (header.keySize + header.valueSize)
              = entryBody (((bs.drop headerSize).take (header.keySize + header.valueSize)).take
                  header.keySize)
                (((bs.drop headerSize).take (header.keySize + header.valueSize)).drop
                  header.keySize) header.tombstone header.timestamp := by
            unfold entryBody
            rw [hklt, hvlt, hheader]
            simp only [List.append_assoc]
            rw [List.drop_left' (length_toLeBytes ..)]
            simp
          have hhash : Crc32Fast.hash (entryBody
              (((bs.drop headerSize).take (header.keySize + header.valueSize)).take header.keySize)
              (((bs.drop headerSize).take (header.keySize + header.valueSize)).drop header.keySize)
              header.tombstone header.timestamp) = crc := by
            rw [← hbody]
            simpa [verifyCrc] using hcrc
          have hfour : toLeBytes 4 crc.toNat = (bs.take headerSize).take 4 := by
            rw [hheader]
            simp only [List.append_assoc]
            rw [List.take_left' (length_toLeBytes ..)]
          unfold encodeEntry
          dsimp only
          rw [hhash, ← hbody, hfour, ← List.append_assoc, List.take_append_drop, List.take_add]
        · cases h

/-- `readEntry` accepts exactly the encodings: an encoding, with anything behind
    it, reads as the entry it encodes and is consumed whole; its proper prefixes
    read as torn; and what reads as an entry is that entry's encoding. -/
theorem readEntry_iff_encodeEntry :
    (∀ (key value : Bytes) (tombstone : Bool) (timestamp : UInt32) (rest : Bytes),
      key.length ≤ maxKeyLen → value.length < 2 ^ 32 →
        ∃ entry : Entry, readEntry ((encodeEntry key value tombstone timestamp).bytes ++ rest)
            = (some (.ok entry (16 + key.length + value.length)), rest) ∧
          entry.key = key ∧ entry.value = value ∧ entry.header.tombstone = tombstone ∧
          entry.header.timestamp = timestamp) ∧
    (∀ (key value : Bytes) (tombstone : Bool) (timestamp : UInt32) (bs : Bytes),
      key.length ≤ maxKeyLen → value.length < 2 ^ 32 → bs ≠ [] →
        bs <+: (encodeEntry key value tombstone timestamp).bytes →
        bs ≠ (encodeEntry key value tombstone timestamp).bytes →
          (readEntry bs).1 = some .truncated) ∧
    ∀ (bs rest : Bytes) (entry : Entry) (n : Nat), readEntry bs = (some (.ok entry n), rest) →
      bs.take n = (encodeEntry entry.key entry.value entry.header.tombstone
        entry.header.timestamp).bytes := by
  refine ⟨?_, ?_, fun bs rest entry n h => take_of_readEntry h⟩
  · intro key value tombstone timestamp rest hkey hvalue
    refine ⟨{ header := headerOf key value tombstone timestamp, key, value }, ?_, rfl, rfl, rfl, rfl⟩
    rw [readEntry_encodeEntry hkey hvalue, headerSize, Nat.add_assoc]
  · intro key value tombstone timestamp bs hkey hvalue hne hpre hproper
    have hlt : bs.length < headerSize + (key.length + value.length) := by
      have hle := hpre.length_le
      have hlen : bs.length ≠ (encodeEntry key value tombstone timestamp).bytes.length :=
        fun heq => hproper (hpre.eq_of_length heq)
      rw [length_encodeEntry] at hle hlen
      omega
    rw [readEntry_cut hkey hvalue tombstone timestamp hpre hne hlt]

/-- A complete entry with a bad checksum is skipped whole. -/
theorem readEntry_crcMismatch {bs rest : Bytes} {n : Nat}
    (h : readEntry bs = (some (.crcMismatch n), rest)) :
    headerSize ≤ n ∧ n ≤ bs.length ∧ rest = bs.drop n := by
  rw [readEntry_bytes] at h
  split at h
  · cases h
  · split at h
    · cases h
    · dsimp only at h
      split at h
      · cases h
      · rename_i hlen
        split at h
        · cases h
        · cases h
          exact ⟨by omega, by omega, rfl⟩

/-- A complete entry reads the same whatever follows it. -/
theorem readEntry_append {bs rest : Bytes} {x : EntryRead} (h : readEntry bs = (some x, rest))
    (hx : x ≠ .truncated) (tail : Bytes) : readEntry (bs ++ tail) = (some x, rest ++ tail) := by
  rw [readEntry_bytes] at h ⊢
  split at h
  · cases h
  · rename_i hne
    split at h
    · cases h
      exact absurd rfl hx
    · rename_i hhdr
      have htake : (bs ++ tail).take headerSize = bs.take headerSize :=
        List.take_append_of_le_length (by omega)
      have hdrop : (bs ++ tail).drop headerSize = bs.drop headerSize ++ tail :=
        List.drop_append_of_le_length (by omega)
      rw [if_neg (by simp [hne]), if_neg (by simp; omega), htake, hdrop]
      dsimp only at h ⊢
      generalize decodeEntryHeader (bs.take headerSize) = parsed at h ⊢
      obtain ⟨crc, header⟩ := parsed
      dsimp only at h ⊢
      split at h
      · cases h
        exact absurd rfl hx
      · rename_i hbody
        have hbody' : (bs.drop headerSize ++ tail).take (header.keySize + header.valueSize)
            = (bs.drop headerSize).take (header.keySize + header.valueSize) :=
          List.take_append_of_le_length (by simp; omega)
        rw [if_neg (by simp; omega), hbody',
          List.drop_append_of_le_length (by omega : headerSize + _ ≤ bs.length)]
        split at h
        · rename_i hcrc
          rw [if_pos hcrc]
          cases h
          rfl
        · rename_i hcrc
          rw [if_neg hcrc]
          cases h
          rfl

/-- Only the empty buffer reads as a clean end of file. -/
theorem readEntry_none {bs rest : Bytes} (h : readEntry bs = (none, rest)) : bs = [] := by
  rw [readEntry_bytes] at h
  by_contra hne
  rw [if_neg hne] at h
  dsimp only at h
  split at h
  · cases h
  · split at h
    · cases h
    · split at h <;> cases h

end Checksum

end Yabiir.Format
