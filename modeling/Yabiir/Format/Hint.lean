/-
  Yabiir.Format.Hint

  `.bitcask.hint` records and the whole-file checksum behind them
  (`src/format/hint.rs`).  A hint file is the records of a data file's entries
  followed by one trailer, the checksum of all the records' bytes.
-/

import Yabiir.Format.Entry

namespace Yabiir.Format

def hintHeaderSize : Nat := 20
def hintTrailerSize : Nat := 4

/-- Encode one hint record for `key`, whose entry has the given header and whose
    value starts at `valuePos` in the data file. -/
def encodeHint (key : Bytes) (header : EntryHeader) (valuePos : Nat) : Bytes :=
  toLeBytes 4 header.timestamp.toNat
    ++ toLeBytes 4 (encodeKeySize header.keySize header.tombstone)
    ++ toLeBytes 4 header.valueSize
    ++ toLeBytes 8 valuePos
    ++ key

/-- Decode a 20-byte hint header into the entry header and the value position. -/
def decodeHintHeader (buf : Bytes) : EntryHeader × Nat :=
  let timestamp := UInt32.ofNat (ofLeBytes (buf.take 4))
  let keySizeAndFlags := ofLeBytes ((buf.drop 4).take 4)
  let valueSize := ofLeBytes ((buf.drop 8).take 4)
  let valuePos := ofLeBytes ((buf.drop 12).take 8)
  let (keySize, tombstone) := decodeKeySize keySizeAndFlags
  ({ timestamp, keySize, valueSize, tombstone }, valuePos)

/-- Result of reading one hint record. -/
inductive HintRead where
  | ok (header : EntryHeader) (valuePos : Nat) (key : Bytes)
  | truncated
  deriving DecidableEq, Repr

/-- Read one record from `r`, which stands at the start of the record.  `none`
    is a clean end of file at a record boundary. -/
def readHint {R : Type} [Read R] (r : R) : Option HintRead × R :=
  let (headerBuf, r) := readUpTo r hintHeaderSize
  if headerBuf.length = 0 then (none, r)
  else if headerBuf.length < hintHeaderSize then (some .truncated, r)
  else
    let (header, valuePos) := decodeHintHeader headerBuf
    let (key, r) := readUpTo r header.keySize
    if key.length < header.keySize then (some .truncated, r)
    else (some (.ok header valuePos key), r)

/-- Check a hint file's trailer against everything before it; the records
    without the trailer where it matches. -/
def verifyHintFile [Crc32Fast] (bytes : Bytes) : Option Bytes :=
  if bytes.length < hintTrailerSize then none
  else
    let content := bytes.take (bytes.length - hintTrailerSize)
    let trailer := bytes.drop (bytes.length - hintTrailerSize)
    if Crc32Fast.hash content = UInt32.ofNat (ofLeBytes trailer) then some content else none

/-! ## Reading back an encoding -/

@[simp] theorem length_encodeHint (key : Bytes) (header : EntryHeader) (valuePos : Nat) :
    (encodeHint key header valuePos).length = hintHeaderSize + key.length := by
  simp [encodeHint, hintHeaderSize]
  omega

/-- What a header can hold: the fields of an entry within the format's limits. -/
def EntryHeader.Fits (header : EntryHeader) : Prop :=
  header.keySize ≤ maxKeyLen ∧ header.valueSize < 2 ^ 32

theorem Entry.Fits.header {entry : Entry} (h : entry.Fits) : entry.header.Fits :=
  ⟨h.keySize ▸ h.key, h.valueSize ▸ h.value⟩

/-- The first 20 bytes of a hint record. -/
def hintHeader (header : EntryHeader) (valuePos : Nat) : Bytes :=
  toLeBytes 4 header.timestamp.toNat
    ++ toLeBytes 4 (encodeKeySize header.keySize header.tombstone)
    ++ toLeBytes 4 header.valueSize
    ++ toLeBytes 8 valuePos

@[simp] theorem length_hintHeader (header : EntryHeader) (valuePos : Nat) :
    (hintHeader header valuePos).length = hintHeaderSize := by
  simp [hintHeader, hintHeaderSize]

theorem encodeHint_eq (key : Bytes) (header : EntryHeader) (valuePos : Nat) :
    encodeHint key header valuePos = hintHeader header valuePos ++ key := by
  simp [encodeHint, hintHeader]

theorem decodeHintHeader_hintHeader {header : EntryHeader} (hfits : header.Fits)
    {valuePos : Nat} (hpos : valuePos < 2 ^ 64) :
    decodeHintHeader (hintHeader header valuePos) = (header, valuePos) := by
  obtain ⟨hkey, hvalue⟩ := hfits
  simp only [decodeHintHeader, hintHeader, List.append_assoc]
  have h4 : ∀ (a rest : Bytes), a.length = 4 → (a ++ rest).drop 4 = rest :=
    fun a rest ha => List.drop_left' ha
  have h8 : ∀ (a b rest : Bytes), a.length = 4 → b.length = 4 →
      (a ++ (b ++ rest)).drop 8 = rest := by
    intro a b rest ha hb
    rw [show 8 = 4 + 4 from rfl, ← List.drop_drop, h4 a _ ha, h4 b _ hb]
  have h12 : ∀ (a b c rest : Bytes), a.length = 4 → b.length = 4 → c.length = 4 →
      (a ++ (b ++ (c ++ rest))).drop 12 = rest := by
    intro a b c rest ha hb hc
    rw [show 12 = 8 + 4 from rfl, ← List.drop_drop, h8 a b _ ha hb, h4 c _ hc]
  rw [List.take_left' (length_toLeBytes ..), h4 _ _ (length_toLeBytes ..),
    List.take_left' (length_toLeBytes ..),
    h8 _ _ _ (length_toLeBytes ..) (length_toLeBytes ..), List.take_left' (length_toLeBytes ..),
    h12 _ _ _ _ (length_toLeBytes ..) (length_toLeBytes ..) (length_toLeBytes ..),
    List.take_of_length_le (le_of_eq (length_toLeBytes ..)),
    ofLeBytes_toLeBytes_of_lt (UInt32.toNat_lt _),
    ofLeBytes_toLeBytes_of_lt (encodeKeySize_lt hkey _),
    ofLeBytes_toLeBytes_of_lt (by simpa using hvalue),
    ofLeBytes_toLeBytes_of_lt (by simpa using hpos), decodeKeySize_encodeKeySize hkey]
  simp

/-- What `readHint` does on a buffer. -/
theorem readHint_bytes (bs : Bytes) :
    readHint bs =
      if bs = [] then (none, [])
      else if bs.length < hintHeaderSize then (some .truncated, [])
      else
        let header := (decodeHintHeader (bs.take hintHeaderSize)).1
        if bs.length < hintHeaderSize + header.keySize then (some .truncated, [])
        else (some (.ok header (decodeHintHeader (bs.take hintHeaderSize)).2
          ((bs.drop hintHeaderSize).take header.keySize)),
          bs.drop (hintHeaderSize + header.keySize)) := by
  unfold readHint
  simp only [readUpTo_bytes, List.length_take, List.length_drop]
  by_cases hnil : bs = []
  · simp [hnil]
  · have hpos : 0 < bs.length := List.length_pos_iff.mpr hnil
    by_cases hhdr : bs.length < hintHeaderSize
    · have hmin : min hintHeaderSize bs.length = bs.length := by omega
      rw [hmin, if_neg (by omega), if_pos hhdr, if_neg hnil, if_pos hhdr,
        List.drop_eq_nil_of_le (by omega)]
    · have hmin : min hintHeaderSize bs.length = hintHeaderSize := by omega
      rw [hmin, if_neg (by simp [hintHeaderSize]), if_neg (by omega), if_neg hnil, if_neg hhdr]
      generalize decodeHintHeader (bs.take hintHeaderSize) = parsed
      obtain ⟨header, valuePos⟩ := parsed
      dsimp only
      by_cases hbody : bs.length < hintHeaderSize + header.keySize
      · rw [if_pos (by omega), if_pos hbody, List.drop_eq_nil_of_le]
        simp only [List.length_drop]
        omega
      · rw [if_neg (by omega), if_neg hbody, List.drop_drop]

/-- Reading from the front of an encoded record gives its parts back. -/
theorem readHint_encodeHint {key : Bytes} {header : EntryHeader} (hfits : header.Fits)
    (hkey : header.keySize = key.length) {valuePos : Nat} (hpos : valuePos < 2 ^ 64)
    (rest : Bytes) :
    readHint (encodeHint key header valuePos ++ rest)
      = (some (.ok header valuePos key), rest) := by
  have hhdr := length_hintHeader header valuePos
  have htake : (encodeHint key header valuePos ++ rest).take hintHeaderSize
      = hintHeader header valuePos := by
    rw [encodeHint_eq, List.append_assoc, List.take_left' hhdr]
  have hbody : ((encodeHint key header valuePos ++ rest).drop hintHeaderSize).take key.length
      = key := by
    rw [encodeHint_eq, List.append_assoc, List.drop_left' hhdr, List.take_left' rfl]
  have hdrop : (encodeHint key header valuePos ++ rest).drop (hintHeaderSize + key.length)
      = rest := List.drop_left' (length_encodeHint ..)
  have hdec := decodeHintHeader_hintHeader hfits hpos
  have hfit : ¬ (encodeHint key header valuePos ++ rest).length
      < hintHeaderSize + key.length := by simp
  rw [readHint_bytes, if_neg (by simp [← List.length_eq_zero_iff, hintHeaderSize]),
    if_neg (by simp; omega)]
  simp only [htake, hdec, hkey, hbody, hdrop, hfit, if_false]

/-- A proper prefix of a record that is not empty reads as torn. -/
theorem readHint_cut {key : Bytes} {header : EntryHeader} (hfits : header.Fits)
    (hkey : header.keySize = key.length) {valuePos : Nat} (hpos : valuePos < 2 ^ 64)
    {bs : Bytes} (hpre : bs <+: encodeHint key header valuePos) (hne : bs ≠ [])
    (hlt : bs.length < hintHeaderSize + key.length) :
    readHint bs = (some .truncated, []) := by
  rw [readHint_bytes, if_neg hne]
  by_cases hhdr : bs.length < hintHeaderSize
  · rw [if_pos hhdr]
  · obtain ⟨rest, hrest⟩ := hpre
    have htake : bs.take hintHeaderSize = hintHeader header valuePos := by
      have h := congrArg (List.take hintHeaderSize) hrest
      rwa [encodeHint_eq, List.take_append_of_le_length (by omega),
        List.take_left' (length_hintHeader ..)] at h
    have hdec := decodeHintHeader_hintHeader hfits hpos
    simp only [htake, hdec, hkey, hhdr, hlt, if_true, if_false]

/-- A file of records closed by the checksum of their bytes verifies. -/
theorem verifyHintFile_trailer [Crc32Fast] (content : Bytes) :
    verifyHintFile (content ++ toLeBytes 4 (Crc32Fast.hash content).toNat) = some content := by
  have hlen : (content ++ toLeBytes 4 (Crc32Fast.hash content).toNat).length - hintTrailerSize
      = content.length := by simp [hintTrailerSize]
  unfold verifyHintFile
  rw [if_neg (by simp [hintTrailerSize]), hlen]
  simp only [List.take_left' rfl, List.drop_left' rfl]
  rw [ofLeBytes_toLeBytes_of_lt (UInt32.toNat_lt _)]
  simp

theorem verifyHintFile_short [Crc32Fast] {bytes : Bytes} (h : bytes.length < hintTrailerSize) :
    verifyHintFile bytes = none := if_pos h

/-- What verifies is a prefix of the file, four bytes short of it. -/
theorem verifyHintFile_some [Crc32Fast] {bytes content : Bytes}
    (h : verifyHintFile bytes = some content) :
    content <+: bytes ∧ content.length + hintTrailerSize = bytes.length := by
  unfold verifyHintFile at h
  split at h
  · cases h
  · rename_i hlen
    dsimp only at h
    split at h
    · cases h
      exact ⟨List.take_prefix .., by simp; omega⟩
    · cases h

/-- The last four bytes of what verifies spell the checksum of the rest. -/
theorem hash_of_verifyHintFile [Crc32Fast] {bytes content : Bytes}
    (h : verifyHintFile bytes = some content) :
    Crc32Fast.hash content = UInt32.ofNat (ofLeBytes (bytes.drop content.length)) := by
  unfold verifyHintFile at h
  split at h
  · cases h
  · dsimp only at h
    split at h
    · rename_i hhash
      cases h
      rw [hhash, List.length_take, Nat.min_eq_left (Nat.sub_le ..)]
    · cases h

end Yabiir.Format
