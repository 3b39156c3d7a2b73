/-
  Yabiir.Recovered

  What recovery makes of any bytes at all: its loops end by themselves, without
  a bound on their turns, and every entry they leave is inside one of the files.
-/

import Yabiir.Recovery

namespace Yabiir

open Format

variable [Crc32Fast]

/-! ## The loops without a bound -/

section

variable {σ : Type} {onEntry : σ → Nat → Entry → σ}

/-- The loop of `scan_data_file` and of `read_all_entries` runs to its end. -/
inductive ScanRun (onEntry : σ → Nat → Entry → σ) : Bytes → Nat → σ → σ → Prop where
  | eof {bs rest : Bytes} {pos : Nat} {s : σ} (h : readEntry bs = (none, rest)) :
      ScanRun onEntry bs pos s s
  | torn {bs rest : Bytes} {pos : Nat} {s : σ} (h : readEntry bs = (some .truncated, rest)) :
      ScanRun onEntry bs pos s s
  | entry {bs rest : Bytes} {pos totalLen : Nat} {e : Entry} {s s' : σ}
      (h : readEntry bs = (some (.ok e totalLen), rest))
      (hrun : ScanRun onEntry rest (pos + totalLen) (onEntry s pos e) s') :
      ScanRun onEntry bs pos s s'
  | skipped {bs rest : Bytes} {pos totalLen : Nat} {s s' : σ}
      (h : readEntry bs = (some (.crcMismatch totalLen), rest))
      (hrun : ScanRun onEntry rest (pos + totalLen) s s') : ScanRun onEntry bs pos s s'

/-- Every turn that goes on consumes a header at least. -/
theorem scanRun_scanFrom {turns : Nat} {bs : Bytes} (hturns : bs.length < turns) (pos : Nat) (s : σ) :
    ScanRun onEntry bs pos s (scanFrom onEntry turns bs pos s) := by
  induction turns generalizing bs pos s with
  | zero => omega
  | succ turns ih =>
    unfold scanFrom
    split
    · rename_i h
      exact .eof h
    · rename_i h
      exact .torn h
    · rename_i e totalLen rest h
      obtain ⟨hn, hlen, hrest, -⟩ := readEntry_ok h
      apply ScanRun.entry h
      apply ih
      rw [hrest, List.length_drop]
      simp only [headerSize] at hn
      omega
    · rename_i totalLen rest h
      obtain ⟨hn, hlen, hrest⟩ := readEntry_crcMismatch h
      apply ScanRun.skipped h
      apply ih
      rw [hrest, List.length_drop]
      simp only [headerSize] at hn
      omega

/-- The loop has one result. -/
theorem ScanRun.unique {bs : Bytes} {pos : Nat} {s s₁ s₂ : σ} (h₁ : ScanRun onEntry bs pos s s₁)
    (h₂ : ScanRun onEntry bs pos s s₂) : s₁ = s₂ := by
  induction h₁ with
  | eof h | torn h =>
    cases h₂ with
    | eof h' | torn h' => rfl
    | entry h' | skipped h' => cases h.symm.trans h'
  | entry h hrun ih =>
    cases h₂ with
    | eof h' | torn h' | skipped h' => cases h.symm.trans h'
    | entry h' hrun' =>
      cases h.symm.trans h'
      exact ih hrun'
  | skipped h hrun ih =>
    cases h₂ with
    | eof h' | torn h' | entry h' => cases h.symm.trans h'
    | skipped h' hrun' =>
      cases h.symm.trans h'
      exact ih hrun'

end

/-- Records of a hint file, gathered by the validation. -/
abbrev HintRecords := List (EntryHeader × Nat × Bytes)

/-- The validation loop of `try_scan_hint_file` runs to its end. -/
inductive HintRun (dataFileLen : Nat) : Bytes → HintRecords → Option HintRecords → Prop where
  | eof {bs rest : Bytes} {records : HintRecords} (h : readHint bs = (none, rest)) :
      HintRun dataFileLen bs records (some records)
  | torn {bs rest : Bytes} {records : HintRecords} (h : readHint bs = (some .truncated, rest)) :
      HintRun dataFileLen bs records none
  | outside {bs rest key : Bytes} {records : HintRecords} {header : EntryHeader} {valuePos : Nat}
      (h : readHint bs = (some (.ok header valuePos key), rest))
      (hout : min (valuePos + header.valueSize) (2 ^ 64 - 1) > dataFileLen) :
      HintRun dataFileLen bs records none
  | record {bs rest key : Bytes} {records : HintRecords} {result : Option HintRecords}
      {header : EntryHeader} {valuePos : Nat}
      (h : readHint bs = (some (.ok header valuePos key), rest))
      (hin : ¬ min (valuePos + header.valueSize) (2 ^ 64 - 1) > dataFileLen)
      (hrun : HintRun dataFileLen rest (records ++ [(header, valuePos, key)]) result) :
      HintRun dataFileLen bs records result

omit [Crc32Fast] in
/-- A record that reads as complete is consumed, a header at least. -/
theorem length_of_readHint {bs rest key : Bytes} {header : EntryHeader} {valuePos : Nat}
    (h : readHint bs = (some (.ok header valuePos key), rest)) : rest.length < bs.length := by
  rw [readHint_bytes] at h
  split at h
  · cases h
  · split at h
    · cases h
    · dsimp only at h
      split at h
      · cases h
      · cases h
        rw [List.length_drop]
        simp only [hintHeaderSize] at *
        omega

omit [Crc32Fast] in
theorem hintRun_readHintRecords (dataFileLen : Nat) {turns : Nat} {bs : Bytes} (hturns : bs.length < turns)
    (records : HintRecords) :
    HintRun dataFileLen bs records (readHintRecords dataFileLen turns bs records) := by
  induction turns generalizing bs records with
  | zero => omega
  | succ turns ih =>
    rw [readHintRecords]
    split
    · rename_i h
      exact .eof h
    · rename_i h
      exact .torn h
    · rename_i header valuePos key rest h
      split
      · rename_i hout
        exact .outside h hout
      · rename_i hin
        have hlt := length_of_readHint h
        exact .record h hin (ih (by omega) _)

omit [Crc32Fast] in
theorem HintRun.unique {dataFileLen : Nat} {bs : Bytes} {records : HintRecords}
    {result₁ result₂ : Option HintRecords} (h₁ : HintRun dataFileLen bs records result₁)
    (h₂ : HintRun dataFileLen bs records result₂) : result₁ = result₂ := by
  induction h₁ with
  | eof h =>
    cases h₂ with
    | eof h' => rfl
    | torn h' | outside h' | record h' => cases h.symm.trans h'
  | torn h =>
    cases h₂ with
    | torn h' => rfl
    | eof h' | outside h' | record h' => cases h.symm.trans h'
  | outside h hout =>
    cases h₂ with
    | outside h' hout' => rfl
    | eof h' | torn h' => cases h.symm.trans h'
    | record h' hin' =>
      cases h.symm.trans h'
      exact absurd hout hin'
  | record h hin hrun ih =>
    cases h₂ with
    | eof h' | torn h' => cases h.symm.trans h'
    | outside h' hout' =>
      cases h.symm.trans h'
      exact absurd hout' hin
    | record h' hin' hrun' =>
      cases h.symm.trans h'
      exact ih hrun'

/-! ## Recovery without a bound -/

/-- The bytes of the data file `id`. -/
def Disk.dataOf (disk : Disk) (id : FileId) : Bytes :=
  ((disk.data.open? id).map FileState.content).getD []

/-- The hint file of `id` passes its checksum and its validation. -/
def Disk.UsableHint (disk : Disk) (id : FileId) (records : HintRecords) : Prop :=
  ∃ hint content, disk.hint.open? id = some hint ∧ verifyHintFile hint.content = some content ∧
    HintRun (disk.dataOf id).length content [] (some records)

/-- One turn of `recover`'s loop. -/
inductive FileRun (disk : Disk) (id : FileId) (kd : Keydir) : Keydir → Prop where
  | hinted {records : HintRecords} (h : disk.UsableHint id records) :
      FileRun disk id kd (records.foldl (applyHint id) kd)
  | scanned {kd' : Keydir} (h : ∀ records, ¬ disk.UsableHint id records)
      (hrun : ScanRun (applyEntry id) (disk.dataOf id) 0 kd kd') : FileRun disk id kd kd'

/-- `recover`, with its loops as they are. -/
inductive RecoverRun (disk : Disk) : List FileId → Keydir → Keydir → Prop where
  | nil (kd : Keydir) : RecoverRun disk [] kd kd
  | cons {id : FileId} {ids : List FileId} {kd kd' kd'' : Keydir} (hfile : FileRun disk id kd kd')
      (hrest : RecoverRun disk ids kd' kd'') : RecoverRun disk (id :: ids) kd kd''

theorem usableHint_iff {disk : Disk} {id : FileId} {records : HintRecords} :
    disk.UsableHint id records ↔ (disk.hint.open? id).bind
      (fun hint => validHintRecords hint.content (disk.dataOf id).length) = some records := by
  rw [Option.bind_eq_some_iff]
  constructor
  · rintro ⟨hint, content, hopen, hverify, hrun⟩
    refine ⟨hint, hopen, ?_⟩
    unfold validHintRecords
    rw [hverify]
    exact (hintRun_readHintRecords _ (Nat.lt_succ_self _) []).unique hrun
  · rintro ⟨hint, hopen, hvalid⟩
    unfold validHintRecords at hvalid
    split at hvalid
    · cases hvalid
    · rename_i content hverify
      have hrun := hintRun_readHintRecords (disk.dataOf id).length (Nat.lt_succ_self content.length) []
      rw [hvalid] at hrun
      exact ⟨hint, content, hopen, hverify, hrun⟩

/-- A turn ends, with the keydir `recoverFile` gives. -/
theorem fileRun_iff {disk : Disk} {id : FileId} {kd kd' : Keydir} :
    FileRun disk id kd kd' ↔ kd' = recoverFile disk kd id := by
  have hscan : ScanRun (applyEntry id) (disk.dataOf id) 0 kd (scanDataFile (disk.dataOf id) id kd) :=
    scanRun_scanFrom (Nat.lt_succ_self _) 0 kd
  have hfile : recoverFile disk kd id = ((disk.hint.open? id).bind
      (fun hint => validHintRecords hint.content (disk.dataOf id).length)).elim
        (scanDataFile (disk.dataOf id) id kd) fun records => records.foldl (applyHint id) kd := by
    unfold recoverFile tryScanHintFile Disk.dataOf
    cases disk.hint.open? id with
    | none => rfl
    | some hint =>
      dsimp only [Option.bind_some]
      cases validHintRecords hint.content _ <;> rfl
  cases hvalid : (disk.hint.open? id).bind
      (fun hint => validHintRecords hint.content (disk.dataOf id).length) with
  | none =>
    have hnone : ∀ records, ¬ disk.UsableHint id records := fun records h => by
      cases hvalid.symm.trans (usableHint_iff.mp h)
    rw [hfile, hvalid]
    constructor
    · intro h
      cases h with
      | hinted h => exact absurd h (hnone _)
      | scanned h hrun => exact hrun.unique hscan
    · rintro rfl
      exact .scanned hnone hscan
  | some records =>
    have husable := usableHint_iff.mpr hvalid
    rw [hfile, hvalid]
    constructor
    · intro h
      cases h with
      | hinted h =>
        cases hvalid.symm.trans (usableHint_iff.mp h)
        rfl
      | scanned h hrun => exact absurd husable (h records)
    · rintro rfl
      exact .hinted husable

/-- Recovery ends, with the keydir `recover` gives. -/
theorem recoverRun_iff {disk : Disk} {ids : List FileId} {kd kd' : Keydir} :
    RecoverRun disk ids kd kd' ↔ kd' = recover disk ids kd := by
  induction ids generalizing kd with
  | nil =>
    constructor
    · intro h
      cases h
      rfl
    · rintro rfl
      exact .nil _
  | cons id ids ih =>
    constructor
    · intro h
      cases h with
      | cons hfile hrest =>
        rw [fileRun_iff.mp hfile] at hrest
        exact ih.mp hrest
    · rintro rfl
      exact .cons (fileRun_iff.mpr rfl) (ih.mpr rfl)

/-! ## Where the entries are -/

/-- The entry is the value range of a record of `key` that is complete, with the
    checksum it should have, and not a tombstone. -/
def InRecord (bs : Bytes) (key : Bytes) (entry : KeydirEntry) : Prop :=
  ∃ front tail : Bytes, ∃ r : Record, bs = front ++ r.encode ++ tail ∧ r.Fits ∧ r.key = key ∧
    r.tombstone = false ∧ r.timestamp = entry.timestamp ∧ r.value.length = entry.valueSize ∧
    entry.valuePos = front.length + headerSize + key.length

/-- What a scan makes an entry of. -/
theorem inRecord_of_scan {bs key : Bytes} {entry : KeydirEntry} {id : FileId} {p : Nat × Entry}
    (hp : p ∈ readAllEntries bs) (hop : entryOp id p = (key, some entry)) :
    InRecord bs key entry := by
  obtain ⟨htombstone, rfl, rfl⟩ := entryOp_eq_some.mp hop
  obtain ⟨n, rest, hread⟩ := readEntry_of_mem hp
  obtain ⟨hn, hlen, -⟩ := readEntry_ok hread
  rw [List.length_drop] at hlen
  have hfits := readEntry_fits hread
  have hfront : (bs.take p.1).length = p.1 := by
    rw [List.length_take]
    simp only [headerSize] at hn
    omega
  refine ⟨bs.take p.1, (bs.drop p.1).drop n,
    ⟨p.2.key, p.2.value, p.2.header.tombstone, p.2.header.timestamp⟩, ?_, ⟨hfits.key, hfits.value⟩,
    rfl, htombstone, rfl, hfits.valueSize.symm, ?_⟩
  · have hrecord := take_of_readEntry hread
    rw [Record.encode, ← hrecord, List.append_assoc, List.take_append_drop, List.take_append_drop]
  · rw [keydirEntryOf, valuePosOf, hfront, hfits.keySize]

/-- Whatever the bytes of the data and hint files: recovery ends; each entry of
    its keydir is in one of the files it was given, its value within that file;
    and where that file was scanned for want of a usable hint file, the entry is
    the value range of a whole record of its key.  (A file is shorter than the
    greatest `u64`, at which `saturating_add` stops.) -/
theorem recovered_in_bounds (disk : Disk) (ids : List FileId)
    (hlen : ∀ id ∈ ids, (disk.dataOf id).length < 2 ^ 64 - 1) :
    ∃ kd, (∀ kd', RecoverRun disk ids ∅ kd' ↔ kd' = kd) ∧
      ∀ key entry, kd.get key = some entry →
        entry.fileId ∈ ids ∧
        entry.valuePos + entry.valueSize ≤ (disk.dataOf entry.fileId).length ∧
        ((∀ records, ¬ disk.UsableHint entry.fileId records) →
          InRecord (disk.dataOf entry.fileId) key entry) := by
  refine ⟨recover disk ids ∅, fun kd' => recoverRun_iff, fun key entry hget => ?_⟩
  obtain ⟨id, hid, hop⟩ := mem_of_recover hget
  obtain ⟨rfl, hle⟩ := fileOps_some hop
  refine ⟨hid, ?_, fun hnone => ?_⟩
  · have hlt := hlen entry.fileId hid
    unfold Disk.dataOf at hlt ⊢
    omega
  · have hvalid : (disk.hint.open? entry.fileId).bind
        (fun hint => validHintRecords hint.content (disk.dataOf entry.fileId).length) = none := by
      cases hvalid : (disk.hint.open? entry.fileId).bind
        (fun hint => validHintRecords hint.content (disk.dataOf entry.fileId).length) with
      | none => rfl
      | some records => exact absurd (usableHint_iff.mpr hvalid) (hnone records)
    unfold fileOps at hop
    unfold Disk.dataOf at hvalid
    dsimp only at hop
    rw [hvalid] at hop
    obtain ⟨p, hp, heq⟩ := List.mem_map.mp hop
    exact inRecord_of_scan hp heq

/-- A directory with one data file, of one record, and no hint file. -/
def oneRecordDisk : Disk where
  data := AList.singleton 0 ⟨(encodeEntry [1] [2] false 7).bytes, [], true, 0⟩
  hint := ∅

omit [Crc32Fast] in
theorem recovered_in_bounds_one : letI := ieee
    ∃ kd, (∀ kd', RecoverRun oneRecordDisk [0] ∅ kd' ↔ kd' = kd) ∧
      ∀ key entry, kd.get key = some entry →
        entry.fileId ∈ [0] ∧
        entry.valuePos + entry.valueSize ≤ (oneRecordDisk.dataOf entry.fileId).length ∧
        ((∀ records, ¬ oneRecordDisk.UsableHint entry.fileId records) →
          InRecord (oneRecordDisk.dataOf entry.fileId) key entry) :=
  letI := ieee
  recovered_in_bounds oneRecordDisk [0] (by decide +kernel)

end Yabiir
