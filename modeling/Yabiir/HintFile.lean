/-
  Yabiir.HintFile

  A hint file is written record by record behind its data file, and closed by
  the checksum of the records.  Here is what it says when it is read back, whole
  or cut anywhere: nothing, or the first so many of the records.
-/

import Yabiir.Recovery

namespace Yabiir

open Format

/-- The hint record of an entry at its place. -/
def hintRecord (p : Nat × Entry) : EntryHeader × Nat × Bytes :=
  (p.2.header, valuePosOf p.1 p.2, p.2.key)

theorem hintOp_hintRecord (fileId : FileId) (p : Nat × Entry) :
    hintOp fileId (hintRecord p) = entryOp fileId p := rfl

/-- The hint records of entries at their places, encoded. -/
def encodeHintRecords (ps : List (Nat × Entry)) : Bytes :=
  ps.flatMap fun p => encodeHint p.2.key p.2.header (valuePosOf p.1 p.2)

@[simp] theorem encodeHintRecords_nil : encodeHintRecords [] = [] := rfl

@[simp] theorem encodeHintRecords_cons (p : Nat × Entry) (ps : List (Nat × Entry)) :
    encodeHintRecords (p :: ps)
      = encodeHint p.2.key p.2.header (valuePosOf p.1 p.2) ++ encodeHintRecords ps := rfl

@[simp] theorem encodeHintRecords_append (ps qs : List (Nat × Entry)) :
    encodeHintRecords (ps ++ qs) = encodeHintRecords ps ++ encodeHintRecords qs := by
  simp [encodeHintRecords]

/-- An entry whose hint record can be read back, in a data file of `n` bytes. -/
structure Hintable (n : Nat) (p : Nat × Entry) : Prop where
  fits : p.2.Fits
  le : valuePosOf p.1 p.2 + p.2.header.valueSize ≤ n

section

variable {m n : Nat} {ps : List (Nat × Entry)} {bs : Bytes}
  {acc records : List (EntryHeader × Nat × Bytes)}

/-- Reading the front of the records of `ps` gives the records of the first so
    many of them, provided it ends with a record. -/
theorem readHintRecords_of_front (hps : ∀ p ∈ ps, Hintable m p) (hm : m < 2 ^ 64)
    (hpre : bs <+: encodeHintRecords ps) {turns : Nat} (hturns : bs.length < turns)
    (h : readHintRecords n turns bs acc = some records) :
    ∃ qs, qs <+: ps ∧ records = acc ++ qs.map hintRecord ∧ bs = encodeHintRecords qs := by
  obtain ⟨turns, rfl⟩ : ∃ k, turns = k + 1 := ⟨turns - 1, by omega⟩
  induction ps generalizing bs acc turns with
  | nil =>
    have hbs : bs = [] := by simpa using hpre
    subst hbs
    rw [readHintRecords, readHint_bytes, if_pos rfl] at h
    cases h
    exact ⟨[], List.nil_prefix, by simp, rfl⟩
  | cons p ps ih =>
    have hp := hps p List.mem_cons_self
    have hpos : valuePosOf p.1 p.2 < 2 ^ 64 := by have := hp.le; omega
    have hlength := length_encodeHint p.2.key p.2.header (valuePosOf p.1 p.2)
    rw [encodeHintRecords_cons] at hpre
    by_cases hnil : bs = []
    · subst hnil
      rw [readHintRecords, readHint_bytes, if_pos rfl] at h
      cases h
      exact ⟨[], List.nil_prefix, by simp, rfl⟩
    by_cases hcut : bs.length < hintHeaderSize + p.2.key.length
    · -- the cut is inside the next record, which reads as torn
      have hpre' : bs <+: encodeHint p.2.key p.2.header (valuePosOf p.1 p.2) :=
        List.prefix_of_prefix_length_le hpre (List.prefix_append ..) (by omega)
      rw [readHintRecords, readHint_cut hp.fits.header hp.fits.keySize hpos hpre' hnil hcut] at h
      cases h
    · have hfull : encodeHint p.2.key p.2.header (valuePosOf p.1 p.2) <+: bs :=
        List.prefix_of_prefix_length_le (List.prefix_append ..) hpre (by omega)
      obtain ⟨rest, rfl⟩ := hfull
      rw [readHintRecords, readHint_encodeHint hp.fits.header hp.fits.keySize hpos] at h
      dsimp only at h
      split at h
      · cases h
      · obtain ⟨turns, rfl⟩ : ∃ k, turns = k + 1 := ⟨turns - 1, by
          simp [hintHeaderSize] at hturns
          omega⟩
        obtain ⟨qs, hqs, hrecords, hrest⟩ := ih (fun q hq => hps q (List.mem_cons_of_mem _ hq))
          ((List.prefix_append_right_inj _).mp hpre) turns
          (by simp [hintHeaderSize] at hturns; omega) h
        exact ⟨p :: qs, (List.prefix_cons_inj p).mpr hqs, by simp [hrecords, hintRecord],
          by simp [hrest]⟩

/-- Records within the data file are all read. -/
theorem readHintRecords_complete (hps : ∀ p ∈ ps, Hintable n p) (hn : n < 2 ^ 64) {turns : Nat}
    (hturns : (encodeHintRecords ps).length < turns) :
    readHintRecords n turns (encodeHintRecords ps) acc = some (acc ++ ps.map hintRecord) := by
  obtain ⟨turns, rfl⟩ : ∃ k, turns = k + 1 := ⟨turns - 1, by omega⟩
  induction ps generalizing acc turns with
  | nil =>
    rw [encodeHintRecords_nil, readHintRecords, readHint_bytes, if_pos rfl]
    simp
  | cons p ps ih =>
    have hp := hps p List.mem_cons_self
    have hle := hp.le
    rw [encodeHintRecords_cons, readHintRecords,
      readHint_encodeHint hp.fits.header hp.fits.keySize (by omega)]
    dsimp only
    obtain ⟨turns, rfl⟩ : ∃ k, turns = k + 1 := ⟨turns - 1, by
      simp [hintHeaderSize] at hturns
      omega⟩
    rw [if_neg (by omega), ih (fun q hq => hps q (List.mem_cons_of_mem _ hq)) turns (by
      simp [hintHeaderSize] at hturns
      omega)]
    simp [hintRecord]

variable [Crc32Fast]

/-- The front of a hint file of `ps`, its four-byte trailer included: where it
    validates it lists the first so many of the entries, and is four bytes
    longer than their records. -/
theorem validHintRecords_of_front (hps : ∀ p ∈ ps, Hintable m p) (hm : m < 2 ^ 64)
    {trailer : Bytes} (htrailer : trailer.length = hintTrailerSize)
    (hpre : bs <+: encodeHintRecords ps ++ trailer)
    (h : validHintRecords bs n = some records) :
    ∃ qs, qs <+: ps ∧ records = qs.map hintRecord ∧
      bs.length = (encodeHintRecords qs).length + hintTrailerSize := by
  unfold validHintRecords at h
  split at h
  · cases h
  · rename_i content hverify
    obtain ⟨hcontent, hlength⟩ := verifyHintFile_some hverify
    have hle := hpre.length_le
    rw [List.length_append] at hle
    have hpre' : content <+: encodeHintRecords ps :=
      List.prefix_of_prefix_length_le (hcontent.trans hpre) (List.prefix_append ..) (by omega)
    obtain ⟨qs, hqs, hrecords, rfl⟩ :=
      readHintRecords_of_front hps hm hpre' (Nat.lt_succ_self _) h
    exact ⟨qs, hqs, by simpa using hrecords, hlength.symm⟩

/-- A whole hint file lists every entry. -/
theorem validHintRecords_complete (hps : ∀ p ∈ ps, Hintable n p) (hn : n < 2 ^ 64) :
    validHintRecords (encodeHintRecords ps
      ++ toLeBytes 4 (Crc32Fast.hash (encodeHintRecords ps)).toNat) n
      = some (ps.map hintRecord) := by
  unfold validHintRecords
  rw [verifyHintFile_trailer]
  simp [readHintRecords_complete hps hn]

/-! ## Cut hint files -/

/-- No entry has the checksum of the hint records before its own for a timestamp
    (the first one that of nothing). -/
def NoTimestampIsChecksum (ps : List (Nat × Entry)) : Prop :=
  ∀ front p back, ps = front ++ p :: back →
    Crc32Fast.hash (encodeHintRecords front) ≠ p.2.header.timestamp

omit [Crc32Fast] in
/-- A hint record begins with the timestamp. -/
theorem timestamp_prefix_encodeHint (key : Bytes) (header : EntryHeader) (valuePos : Nat) :
    toLeBytes 4 header.timestamp.toNat <+: encodeHint key header valuePos := by
  unfold encodeHint
  simp only [List.append_assoc]
  exact List.prefix_append ..

omit [Crc32Fast] in
theorem cut_prefix (front back : List (Nat × Entry)) (p : Nat × Entry) (trailer : Bytes) :
    encodeHintRecords front ++ toLeBytes 4 p.2.header.timestamp.toNat
      <+: encodeHintRecords (front ++ p :: back) ++ trailer := by
  obtain ⟨tail, htail⟩ := timestamp_prefix_encodeHint p.2.key p.2.header (valuePosOf p.1 p.2)
  rw [encodeHintRecords_append, encodeHintRecords_cons, ← htail]
  exact ⟨tail ++ (encodeHintRecords back ++ trailer), by simp⟩

omit [Crc32Fast] in
theorem ofLeBytes_timestamp (t : UInt32) : UInt32.ofNat (ofLeBytes (toLeBytes 4 t.toNat)) = t := by
  rw [ofLeBytes_toLeBytes_of_lt (UInt32.toNat_lt _)]
  simp

/-- A hint file cut behind the timestamp of a record verifies where that is the
    checksum of the records before it. -/
theorem validHintRecords_cut {front back : List (Nat × Entry)} {p : Nat × Entry}
    (hps : ∀ q ∈ front ++ p :: back, Hintable n q) (hn : n < 2 ^ 64)
    (hhash : Crc32Fast.hash (encodeHintRecords front) = p.2.header.timestamp) :
    validHintRecords (encodeHintRecords front ++ toLeBytes 4 p.2.header.timestamp.toNat) n
      = some (front.map hintRecord) := by
  rw [← hhash]
  exact validHintRecords_complete (fun q hq => hps q (List.mem_append_left _ hq)) hn

/-- Nothing else cut from a hint file verifies. -/
theorem timestamp_of_validHintRecords (hps : ∀ p ∈ ps, Hintable n p) (hn : n < 2 ^ 64)
    {trailer : Bytes} (htrailer : trailer.length = hintTrailerSize)
    (hpre : bs <+: encodeHintRecords ps ++ trailer) (hne : bs ≠ encodeHintRecords ps ++ trailer)
    (h : validHintRecords bs n = some records) :
    ∃ front p back, ps = front ++ p :: back ∧
      Crc32Fast.hash (encodeHintRecords front) = p.2.header.timestamp := by
  obtain ⟨qs, ⟨rest, rfl⟩, -, hlength⟩ := validHintRecords_of_front hps hn htrailer hpre h
  cases rest with
  | nil =>
    -- then nothing was cut
    rw [List.append_nil] at hpre hne
    exact absurd (hpre.eq_of_length (by rw [hlength, List.length_append, htrailer])) hne
  | cons p back =>
    refine ⟨qs, p, back, rfl, ?_⟩
    unfold validHintRecords at h
    split at h
    · cases h
    · rename_i content hverify
      obtain ⟨hcontent, hlen⟩ := verifyHintFile_some hverify
      have hhash := hash_of_verifyHintFile hverify
      have hbs : bs = encodeHintRecords qs ++ toLeBytes 4 p.2.header.timestamp.toNat := by
        apply (List.prefix_of_prefix_length_le hpre ( cut_prefix qs back p trailer) ?_).eq_of_length
        · simp [hlength, hintTrailerSize]
        · simp [hlength, hintTrailerSize]
      have hsize : content.length = (encodeHintRecords qs).length := by omega
      rw [hbs] at hcontent
      have hfront : content = encodeHintRecords qs :=
        (List.prefix_of_prefix_length_le hcontent (List.prefix_append ..) hsize.le).eq_of_length
          hsize
      rw [hfront, hbs, List.drop_left' rfl, ofLeBytes_timestamp] at hhash
      exact hhash

/-- Of a hint file cut anywhere nothing is used, if and only if no timestamp is
    the checksum of the records before it. -/
theorem cut_rejected_iff (hps : ∀ p ∈ ps, Hintable n p) (hn : n < 2 ^ 64) {trailer : Bytes}
    (htrailer : trailer.length = hintTrailerSize) (fileId : FileId) :
    (∀ bs, bs <+: encodeHintRecords ps ++ trailer → bs ≠ encodeHintRecords ps ++ trailer →
      ∀ kd, tryScanHintFile bs fileId n kd = none) ↔ NoTimestampIsChecksum ps := by
  constructor
  · rintro h front p back rfl hhash
    have hnone := h _ ( cut_prefix front back p trailer) ?_ ∅
    · rw [tryScanHintFile, validHintRecords_cut hps hn hhash] at hnone
      cases hnone
    · intro heq
      have hlen := congrArg List.length heq
      simp [hintHeaderSize, htrailer, hintTrailerSize] at hlen
      omega
  · intro h bs hpre hne kd
    cases hvalid : validHintRecords bs n with
    | none => simp [tryScanHintFile, hvalid]
    | some records =>
      obtain ⟨front, p, back, hps', hhash⟩ :=
        timestamp_of_validHintRecords hps hn htrailer hpre hne hvalid
      exact absurd hhash (h front p back hps')

end

end Yabiir
