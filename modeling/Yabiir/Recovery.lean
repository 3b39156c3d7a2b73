/-
  Yabiir.Recovery

  Rebuilding the keydir from a directory (`src/recovery.rs`), and the scan of a
  data file it shares with merge (`read_all_entries` in `src/merge/mod.rs`).

  Recovery is a fold: each file stands for a list of keydir operations
  (`fileOps`), from its hint file where that passes validation and from a scan
  of its data otherwise, and `recover` applies them in ascending id order.
-/

import Yabiir.Format.Hint
import Yabiir.DataFile
import Yabiir.Lib.Segments
import Mathlib.Data.List.Induction

namespace Yabiir

open Format

variable [Crc32Fast]

/-! ## The scan of a data file -/

/-- The loop of `scan_data_file` and of `read_all_entries`: entry by entry from
    position `pos`, stopping at the end or at a torn entry, skipping complete
    entries with a bad checksum.  Every turn consumes at least a header, so
    `bs.length + 1` turns are enough. -/
def scanFrom {σ : Type} (onEntry : σ → Nat → Entry → σ) : Nat → Bytes → Nat → σ → σ
  | 0, _, _, s => s
  | turns + 1, bs, pos, s =>
    match readEntry bs with
    | (none, _) => s
    | (some .truncated, _) => s
    | (some (.ok entry totalLen), rest) =>
      scanFrom onEntry turns rest (pos + totalLen) (onEntry s pos entry)
    | (some (.crcMismatch totalLen), rest) => scanFrom onEntry turns rest (pos + totalLen) s

/-- Merge's reading of an input file: its entries with their offsets,
    tombstones included. -/
def readAllEntries (bs : Bytes) : List (Nat × Entry) :=
  scanFrom (fun out pos entry => out ++ [(pos, entry)]) (bs.length + 1) bs 0 []

/-- Where an entry at offset `pos` has its value. -/
def valuePosOf (pos : Nat) (entry : Entry) : Nat := pos + headerSize + entry.header.keySize

/-- The keydir entry of a live entry at offset `pos` of file `fileId`. -/
def keydirEntryOf (fileId : FileId) (pos : Nat) (entry : Entry) : KeydirEntry where
  fileId := fileId
  valueSize := entry.header.valueSize
  valuePos := valuePosOf pos entry
  timestamp := entry.header.timestamp

/-- Overwrite or remove, unconditionally. -/
def applyEntry (fileId : FileId) (kd : Keydir) (entryStartPos : Nat) (entry : Entry) : Keydir :=
  if entry.header.tombstone then kd.remove entry.key
  else kd.put entry.key (keydirEntryOf fileId entryStartPos entry)

/-- Full scan of one data file, the slow path. -/
def scanDataFile (bs : Bytes) (fileId : FileId) (kd : Keydir) : Keydir :=
  scanFrom (applyEntry fileId) (bs.length + 1) bs 0 kd

/-! ## Hint files -/

/-- The validation loop of `try_scan_hint_file`: all records, provided none is
    torn and none points past the end of the data file. -/
def readHintRecords (dataFileLen : Nat) :
    Nat → Bytes → List (EntryHeader × Nat × Bytes) → Option (List (EntryHeader × Nat × Bytes))
  | 0, _, records => some records
  | turns + 1, bs, records =>
    match readHint bs with
    | (none, _) => some records
    | (some .truncated, _) => none
    | (some (.ok header valuePos key), rest) =>
      -- `saturating_add`
      if min (valuePos + header.valueSize) (2 ^ 64 - 1) > dataFileLen then none
      else readHintRecords dataFileLen turns rest (records ++ [(header, valuePos, key)])

/-- Apply one validated hint record. -/
def applyHint (fileId : FileId) (kd : Keydir) : EntryHeader × Nat × Bytes → Keydir
  | (header, valuePos, key) =>
    if header.tombstone then kd.remove key
    else kd.put key
      { fileId, valueSize := header.valueSize, valuePos, timestamp := header.timestamp }

/-- The records of a hint file that passes its checksum and its validation. -/
def validHintRecords (hintBytes : Bytes) (dataFileLen : Nat) :
    Option (List (EntryHeader × Nat × Bytes)) :=
  match verifyHintFile hintBytes with
  | none => none
  | some content => readHintRecords dataFileLen (content.length + 1) content []

/-- Fast-path recovery from a hint file; `none` (the source's `false`) leaves
    the keydir untouched. -/
def tryScanHintFile (hintBytes : Bytes) (fileId : FileId) (dataFileLen : Nat) (kd : Keydir) :
    Option Keydir :=
  (validHintRecords hintBytes dataFileLen).map fun records => records.foldl (applyHint fileId) kd

/-! ## The directory -/

/-- One turn of `recover`'s loop: the hint file where there is a valid one, the
    data file otherwise. -/
def recoverFile (disk : Disk) (kd : Keydir) (fileId : FileId) : Keydir :=
  let data := ((disk.data.open? fileId).map FileState.content).getD []
  match (disk.hint.open? fileId).bind
      fun hint => tryScanHintFile hint.content fileId data.length kd with
  | some kd' => kd'
  | none => scanDataFile data fileId kd

/-- Rebuild the keydir from the files of `fileIds`, in that order. -/
def recover (disk : Disk) (fileIds : List FileId) (kd : Keydir) : Keydir :=
  fileIds.foldl (recoverFile disk) kd

/-! ## Recovery as a list of keydir operations -/

/-- A keydir operation: insert the entry, or remove the key. -/
abbrev KeydirOp := Bytes × Option KeydirEntry

def Keydir.applyOp (kd : Keydir) (op : KeydirOp) : Keydir :=
  match op.2 with
  | some entry => kd.put op.1 entry
  | none => kd.remove op.1

/-- The operation a scanned entry stands for. -/
def entryOp (fileId : FileId) (p : Nat × Entry) : KeydirOp :=
  (p.2.key, if p.2.header.tombstone then none else some (keydirEntryOf fileId p.1 p.2))

/-- The operation a hint record stands for. -/
def hintOp (fileId : FileId) : EntryHeader × Nat × Bytes → KeydirOp
  | (header, valuePos, key) =>
    (key, if header.tombstone then none
      else some { fileId, valueSize := header.valueSize, valuePos, timestamp := header.timestamp })

/-- The operations recovery takes from file `fileId`. -/
def fileOps (disk : Disk) (fileId : FileId) : List KeydirOp :=
  let data := ((disk.data.open? fileId).map FileState.content).getD []
  match (disk.hint.open? fileId).bind fun hint => validHintRecords hint.content data.length with
  | some records => records.map (hintOp fileId)
  | none => (readAllEntries data).map (entryOp fileId)

/-- Scanning with any accumulator is folding over the scanned entries. -/
theorem scanFrom_eq_foldl {σ : Type} (onEntry : σ → Nat → Entry → σ) (turns : Nat) (bs : Bytes)
    (pos : Nat) (s : σ) (out : List (Nat × Entry)) :
    (scanFrom (fun out pos entry => out ++ [(pos, entry)]) turns bs pos out).foldl
        (fun s p => onEntry s p.1 p.2) s
      = scanFrom onEntry turns bs pos (out.foldl (fun s p => onEntry s p.1 p.2) s) := by
  induction turns generalizing bs pos out with
  | zero => rfl
  | succ turns ih =>
    unfold scanFrom
    split
    · rfl
    · rfl
    · rw [ih]
      simp
    · rw [ih]

omit [Crc32Fast] in
theorem applyEntry_eq (fileId : FileId) (kd : Keydir) (pos : Nat) (entry : Entry) :
    applyEntry fileId kd pos entry = kd.applyOp (entryOp fileId (pos, entry)) := by
  unfold applyEntry entryOp Keydir.applyOp
  split <;> simp_all

omit [Crc32Fast] in
theorem applyHint_eq (fileId : FileId) (kd : Keydir) (r : EntryHeader × Nat × Bytes) :
    applyHint fileId kd r = kd.applyOp (hintOp fileId r) := by
  obtain ⟨header, valuePos, key⟩ := r
  unfold applyHint hintOp Keydir.applyOp
  dsimp only
  split <;> simp_all

omit [Crc32Fast] in
/-- The operation of a live entry. -/
theorem entryOp_eq_some {key : Bytes} {entry : KeydirEntry} {f : FileId} {p : Nat × Entry} :
    entryOp f p = (key, some entry) ↔
      p.2.isTombstone = false ∧ p.2.key = key ∧ keydirEntryOf f p.1 p.2 = entry := by
  unfold entryOp Entry.isTombstone
  cases p.2.header.tombstone <;> simp [and_comm]

theorem scanDataFile_eq (bs : Bytes) (fileId : FileId) (kd : Keydir) :
    scanDataFile bs fileId kd
      = ((readAllEntries bs).map (entryOp fileId)).foldl Keydir.applyOp kd := by
  have h := scanFrom_eq_foldl (applyEntry fileId) (bs.length + 1) bs 0 kd []
  rw [List.foldl_nil] at h
  rw [scanDataFile, ← h, List.foldl_map, readAllEntries]
  simp only [applyEntry_eq]

theorem recoverFile_eq (disk : Disk) (kd : Keydir) (fileId : FileId) :
    recoverFile disk kd fileId = (fileOps disk fileId).foldl Keydir.applyOp kd := by
  unfold recoverFile fileOps
  dsimp only
  cases disk.hint.open? fileId with
  | none => simp [scanDataFile_eq]
  | some hint =>
    simp only [Option.bind_some, tryScanHintFile]
    cases validHintRecords hint.content _ with
    | none => simp [scanDataFile_eq]
    | some records =>
      have hfun : applyHint fileId = fun kd r => kd.applyOp (hintOp fileId r) :=
        funext fun kd => funext fun r => applyHint_eq fileId kd r
      simp [List.foldl_map, hfun]

/-- The operations of the whole directory, in recovery's order. -/
def diskOps (disk : Disk) (fileIds : List FileId) : List KeydirOp :=
  fileIds.flatMap (fileOps disk)

/-- Recovery applies the directory's operations in order. -/
theorem recover_eq (disk : Disk) (fileIds : List FileId) (kd : Keydir) :
    recover disk fileIds kd = (diskOps disk fileIds).foldl Keydir.applyOp kd := by
  unfold recover diskOps
  induction fileIds generalizing kd with
  | nil => rfl
  | cons id ids ih => simp [ih, recoverFile_eq]

omit [Crc32Fast] in
theorem get_applyOp (kd : Keydir) (op : KeydirOp) (key : Bytes) :
    (kd.applyOp op).get key = if key = op.1 then op.2 else kd.get key := by
  obtain ⟨key', entry⟩ := op
  cases entry with
  | some entry => simp [Keydir.applyOp, Keydir.get_put]
  | none => simp [Keydir.applyOp, Keydir.get_remove]

omit [Crc32Fast] in
/-- After a list of operations a key has what the last one that names it says. -/
theorem get_foldl_applyOp (ops : List KeydirOp) (kd : Keydir) (key : Bytes) :
    (ops.foldl Keydir.applyOp kd).get key = (lastOn key ops).getD (kd.get key) := by
  induction ops using List.reverseRecOn with
  | nil => rfl
  | append_singleton ops op ih =>
    obtain ⟨key', op⟩ := op
    rw [List.foldl_append, List.foldl_cons, List.foldl_nil, get_applyOp, lastOn_append,
      lastOn_singleton, ih]
    by_cases hkey : key' = key
    · simp [hkey]
    · have hne : key ≠ key' := fun h => hkey h.symm
      simp [hkey, hne]

/-! ## What a scan finds, whatever the bytes -/

/-- An entry found at offset `p.1` of `bs`: it is within the format's limits and
    its key and value are the slices its header says. -/
structure Found (bs : Bytes) (p : Nat × Entry) : Prop where
  fits : p.2.Fits
  le : valuePosOf p.1 p.2 + p.2.header.valueSize ≤ bs.length
  value : p.2.value = (bs.drop (valuePosOf p.1 p.2)).take p.2.header.valueSize

/-- What a scan finds at an offset is read there. -/
theorem readEntry_of_scanFrom (turns : Nat) (whole bs : Bytes) (pos : Nat) (out : List (Nat × Entry))
    (hbs : bs = whole.drop pos)
    (hout : ∀ p ∈ out, ∃ n rest, readEntry (whole.drop p.1) = (some (.ok p.2 n), rest)) :
    ∀ p ∈ scanFrom (fun out pos entry => out ++ [(pos, entry)]) turns bs pos out,
      ∃ n rest, readEntry (whole.drop p.1) = (some (.ok p.2 n), rest) := by
  induction turns generalizing bs pos out with
  | zero => exact hout
  | succ turns ih =>
    unfold scanFrom
    split
    · exact hout
    · exact hout
    · rename_i entry totalLen rest hread
      obtain ⟨-, -, hrest, -⟩ := readEntry_ok hread
      refine ih rest _ _ (by rw [hrest, hbs, List.drop_drop]) ?_
      intro p hp
      rcases List.mem_append.mp hp with hp | hp
      · exact hout p hp
      · cases List.mem_singleton.mp hp
        exact ⟨totalLen, rest, hbs ▸ hread⟩
    · rename_i totalLen rest hread
      obtain ⟨-, -, hrest⟩ := readEntry_crcMismatch hread
      exact ih rest _ _ (by rw [hrest, hbs, List.drop_drop]) hout

theorem readEntry_of_mem {bs : Bytes} {p : Nat × Entry} (h : p ∈ readAllEntries bs) :
    ∃ n rest, readEntry (bs.drop p.1) = (some (.ok p.2 n), rest) :=
  readEntry_of_scanFrom (bs.length + 1) bs bs 0 [] (by simp) (by simp) p h

theorem mem_readAllEntries {bs : Bytes} {p : Nat × Entry} (h : p ∈ readAllEntries bs) :
    Found bs p := by
  obtain ⟨n, rest, hread⟩ := readEntry_of_mem h
  obtain ⟨hn, hlen, -, -, hvalue⟩ := readEntry_ok hread
  rw [List.length_drop] at hlen
  refine ⟨readEntry_fits hread, ?_, ?_⟩
  · simp only [valuePosOf, headerSize] at hn ⊢
    omega
  · rw [hvalue, List.drop_drop, valuePosOf, Nat.add_assoc]

/-- The values a scan finds are at ascending positions. -/
theorem scanFrom_pairwise (turns : Nat) (bs : Bytes) (pos : Nat) (out : List (Nat × Entry))
    (hout : (out.map fun p => valuePosOf p.1 p.2).Pairwise (· < ·))
    (hle : ∀ p ∈ out, valuePosOf p.1 p.2 ≤ pos) :
    ((scanFrom (fun out pos entry => out ++ [(pos, entry)]) turns bs pos out).map
      fun p => valuePosOf p.1 p.2).Pairwise (· < ·) := by
  induction turns generalizing bs pos out with
  | zero => exact hout
  | succ turns ih =>
    unfold scanFrom
    split
    · exact hout
    · exact hout
    · rename_i entry totalLen rest hread
      obtain ⟨hn, -⟩ := readEntry_ok hread
      have hpos : pos < valuePosOf pos entry ∧ valuePosOf pos entry ≤ pos + totalLen := by
        simp only [valuePosOf, hn, headerSize]
        omega
      apply ih
      · rw [List.map_append, List.pairwise_append]
        refine ⟨hout, List.pairwise_singleton _ _, fun a ha b hb => ?_⟩
        obtain ⟨p, hp, rfl⟩ := List.mem_map.mp ha
        obtain rfl : b = valuePosOf pos entry := by simpa using hb
        exact (hle p hp).trans_lt hpos.1
      · intro p hp
        rcases List.mem_append.mp hp with hp | hp
        · exact (hle p hp).trans (by omega)
        · rw [List.mem_singleton.mp hp]
          exact hpos.2
    · exact ih _ _ _ hout fun p hp => (hle p hp).trans (by omega)

theorem readAllEntries_nil : readAllEntries [] = [] := rfl

/-- The position of its value tells an entry from the others of its file. -/
theorem readAllEntries_inj {bs : Bytes} {p q : Nat × Entry} (hp : p ∈ readAllEntries bs)
    (hq : q ∈ readAllEntries bs) (h : valuePosOf p.1 p.2 = valuePosOf q.1 q.2) : p = q := by
  have hsorted := scanFrom_pairwise (bs.length + 1) bs 0 [] (by simp) (by simp)
  exact List.inj_on_of_nodup_map (hsorted.imp fun h => h.ne) hp hq h

/-! ## Where recovered entries point -/

omit [Crc32Fast] in
/-- The validated records of a hint file point into the data file, as far as
    `saturating_add` can tell. -/
theorem readHintRecords_le {n turns : Nat} {bs : Bytes}
    {acc records : List (EntryHeader × Nat × Bytes)}
    (h : readHintRecords n turns bs acc = some records)
    (hacc : ∀ x ∈ acc, min (x.2.1 + x.1.valueSize) (2 ^ 64 - 1) ≤ n) :
    ∀ x ∈ records, min (x.2.1 + x.1.valueSize) (2 ^ 64 - 1) ≤ n := by
  induction turns generalizing bs acc with
  | zero =>
    cases h
    exact hacc
  | succ turns ih =>
    rw [readHintRecords] at h
    split at h
    · cases h
      exact hacc
    · cases h
    · split at h
      · cases h
      · rename_i hle
        apply ih h
        intro x hx
        rcases List.mem_append.mp hx with hx | hx
        · exact hacc x hx
        · rw [List.mem_singleton.mp hx]
          exact not_lt.mp hle

/-- The insertions a file stands for are of entries in that file. -/
theorem fileOps_some {disk : Disk} {id : FileId} {key : Bytes} {entry : KeydirEntry}
    (h : (key, some entry) ∈ fileOps disk id) :
    entry.fileId = id ∧ min (entry.valuePos + entry.valueSize) (2 ^ 64 - 1)
      ≤ (((disk.data.open? id).map FileState.content).getD []).length := by
  unfold fileOps at h
  dsimp only at h
  split at h
  · rename_i records hrecords
    obtain ⟨hint, -, hvalid⟩ := Option.bind_eq_some_iff.mp hrecords
    obtain ⟨⟨header, valuePos, key'⟩, hx, heq⟩ := List.mem_map.mp h
    obtain ⟨-, heq⟩ := Prod.mk.inj heq
    split at heq <;> cases heq
    refine ⟨rfl, ?_⟩
    unfold validHintRecords at hvalid
    split at hvalid
    · cases hvalid
    · exact readHintRecords_le hvalid (by simp) _ hx
  · obtain ⟨p, hp, heq⟩ := List.mem_map.mp h
    obtain ⟨-, -, rfl⟩ := entryOp_eq_some.mp heq
    exact ⟨rfl, (Nat.min_le_left _ _).trans (mem_readAllEntries hp).le⟩

/-- A recovered entry is in one of the files. -/
theorem mem_of_recover {disk : Disk} {ids : List FileId} {key : Bytes} {entry : KeydirEntry}
    (h : (recover disk ids ∅).get key = some entry) :
    ∃ id ∈ ids, (key, some entry) ∈ fileOps disk id := by
  rw [recover_eq, get_foldl_applyOp, Keydir.get_empty] at h
  cases hlast : lastOn key (diskOps disk ids) with
  | none =>
    rw [hlast] at h
    cases h
  | some op =>
    rw [hlast] at h
    cases h
    exact List.mem_flatMap.mp (mem_of_lastOn hlast)

/-! ## Scanning a file that grows -/

/-- A scan keeps what it has found. -/
theorem front_scanFrom (turns : Nat) (bs : Bytes) (pos : Nat) (out : List (Nat × Entry)) :
    out <+: scanFrom (fun out pos entry => out ++ [(pos, entry)]) turns bs pos out := by
  induction turns generalizing bs pos out with
  | zero => exact List.prefix_rfl
  | succ turns ih =>
    unfold scanFrom
    split
    · exact List.prefix_rfl
    · exact List.prefix_rfl
    · exact (List.prefix_append ..).trans (ih _ _ _)
    · exact ih _ _ _

theorem scanFrom_append {turns turns' : Nat} (hturns : turns ≤ turns') (bs tail : Bytes) (pos : Nat)
    (out : List (Nat × Entry)) :
    scanFrom (fun out pos entry => out ++ [(pos, entry)]) turns bs pos out
      <+: scanFrom (fun out pos entry => out ++ [(pos, entry)]) turns' (bs ++ tail) pos out := by
  induction turns generalizing turns' bs pos out with
  | zero => exact front_scanFrom ..
  | succ turns ih =>
    obtain ⟨turns', rfl⟩ : ∃ n, turns' = n + 1 := ⟨turns' - 1, by omega⟩
    -- where the shorter scan ends, the longer one may go on
    rw [scanFrom]
    split
    · exact front_scanFrom ..
    · exact front_scanFrom ..
    · rename_i entry totalLen rest hread
      rw [scanFrom, readEntry_append hread (by simp)]
      exact ih (by omega) ..
    · rename_i totalLen rest hread
      rw [scanFrom, readEntry_append hread (by simp)]
      exact ih (by omega) ..

/-- What a scan finds in a file, it finds there still when the file has grown. -/
theorem readAllEntries_front {bs bs' : Bytes} (h : bs <+: bs') :
    readAllEntries bs <+: readAllEntries bs' := by
  obtain ⟨tail, rfl⟩ := h
  exact scanFrom_append (by simp) bs tail 0 []

/-! ## Scanning what was written -/

/-- A record as the engine appends it. -/
structure Record where
  key : Bytes
  value : Bytes
  tombstone : Bool
  timestamp : UInt32
  deriving DecidableEq, Repr

/-- Within the format's limits. -/
def Record.Fits (r : Record) : Prop := r.key.length ≤ maxKeyLen ∧ r.value.length < 2 ^ 32

def Record.encode (r : Record) : Bytes :=
  (encodeEntry r.key r.value r.tombstone r.timestamp).bytes

/-- A record as `readEntry` gives it back. -/
def Record.entry (r : Record) : Entry where
  header := headerOf r.key r.value r.tombstone r.timestamp
  key := r.key
  value := r.value

def encodeAll (rs : List Record) : Bytes := rs.flatMap Record.encode

/-- The entries of records written one behind the other from `pos` on. -/
def layout : Nat → List Record → List (Nat × Entry)
  | _, [] => []
  | pos, r :: rs => (pos, r.entry) :: layout (pos + r.encode.length) rs

/-- A scan that gets to `tail` ends there: nothing is left, or what is left is a
    torn entry. -/
def Torn (tail : Bytes) : Prop :=
  (readEntry tail).1 = none ∨ (readEntry tail).1 = some .truncated

theorem torn_nil : Torn [] := Or.inl (by rw [readEntry_bytes, if_pos rfl])

@[simp] theorem Record.length_encode (r : Record) :
    r.encode.length = headerSize + (r.key.length + r.value.length) := by
  simp [Record.encode, Nat.add_assoc]

/-- A proper prefix of a record is torn. -/
theorem torn_of_front {r : Record} (hfits : r.Fits) {tail : Bytes} (hpre : tail <+: r.encode)
    (hlt : tail.length < r.encode.length) : Torn tail := by
  by_cases hnil : tail = []
  · rw [hnil]
    exact torn_nil
  · have h := readEntry_cut hfits.1 hfits.2 r.tombstone r.timestamp hpre hnil
      (by simpa using hlt)
    exact Or.inr (congrArg Prod.fst h)

@[simp] theorem encodeAll_nil : encodeAll [] = [] := rfl

@[simp] theorem encodeAll_cons (r : Record) (rs : List Record) :
    encodeAll (r :: rs) = r.encode ++ encodeAll rs := rfl

@[simp] theorem encodeAll_append (rs rs' : List Record) :
    encodeAll (rs ++ rs') = encodeAll rs ++ encodeAll rs' := by
  simp [encodeAll]

theorem layout_append (pos : Nat) (rs rs' : List Record) :
    layout pos (rs ++ rs') = layout pos rs ++ layout (pos + (encodeAll rs).length) rs' := by
  induction rs generalizing pos with
  | nil => simp [layout]
  | cons r rs ih => simp [layout, ih, Nat.add_assoc]

/-- A scan of records within the limits, with a torn tail at most, finds exactly
    the records, each at its place. -/
theorem scanFrom_encodeAll {rs : List Record} (hfits : ∀ r ∈ rs, r.Fits) {tail : Bytes}
    (htail : Torn tail) {turns : Nat} (hturns : rs.length < turns) (pos : Nat)
    (out : List (Nat × Entry)) :
    scanFrom (fun out pos entry => out ++ [(pos, entry)]) turns (encodeAll rs ++ tail) pos out
      = out ++ layout pos rs := by
  induction rs generalizing turns pos out with
  | nil =>
    obtain ⟨turns, rfl⟩ : ∃ n, turns = n + 1 := ⟨turns - 1, by simp at hturns; omega⟩
    unfold scanFrom
    rw [encodeAll_nil, List.nil_append]
    rcases hread : readEntry tail with ⟨res, rest⟩
    rw [Torn, hread] at htail
    rcases htail with h | h <;> cases h <;> simp [layout]
  | cons r rs ih =>
    obtain ⟨turns, rfl⟩ : ∃ n, turns = n + 1 := ⟨turns - 1, by simp at hturns; omega⟩
    have hr := hfits r List.mem_cons_self
    unfold scanFrom
    rw [encodeAll_cons, List.append_assoc, Record.encode, readEntry_encodeEntry hr.1 hr.2]
    dsimp only
    rw [ih (fun r' h' => hfits r' (List.mem_cons_of_mem r h')) (by simpa using hturns)]
    simp [layout, Record.entry, Record.length_encode]

theorem length_le_encodeAll (rs : List Record) : rs.length ≤ (encodeAll rs).length := by
  induction rs with
  | nil => rfl
  | cons r rs ih => simp [headerSize]; omega

/-- Merge's reading of a file of records is their layout. -/
theorem readAllEntries_encodeAll {rs : List Record} (hfits : ∀ r ∈ rs, r.Fits) {tail : Bytes}
    (htail : Torn tail) : readAllEntries (encodeAll rs ++ tail) = layout 0 rs := by
  have hlen := length_le_encodeAll rs
  rw [readAllEntries, scanFrom_encodeAll hfits htail (by simp; omega)]
  simp

end Yabiir
