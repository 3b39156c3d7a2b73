/-
  Yabiir.Damaged

  Recovery of data files in which entries were altered and whose last entry may
  be torn: it finds exactly the records that are intact, each where it stands,
  and so does merge's reading of a file.
-/

import Yabiir.Recovery

namespace Yabiir

open Format

variable [Crc32Fast]

/-- What became of an encoded record that was altered: as long as before, with
    the same two lengths in its header, and a checksum that does not match. -/
structure Altered (r : Record) (bs : Bytes) : Prop where
  length : bs.length = r.encode.length
  keySize : (decodeEntryHeader (bs.take headerSize)).2.keySize = r.key.length
  valueSize : (decodeEntryHeader (bs.take headerSize)).2.valueSize = r.value.length
  checksum : verifyCrc (decodeEntryHeader (bs.take headerSize)).1 (bs.drop 4) = false

/-- A stretch of a data file: a record as it was written, or altered. -/
inductive Stretch where
  | intact (r : Record)
  | altered (r : Record) (bytes : Bytes)

namespace Stretch

def bytes : Stretch → Bytes
  | intact r => r.encode
  | altered _ bytes => bytes

/-- The record is within the format's limits. -/
def Ok : Stretch → Prop
  | intact r => r.Fits
  | altered r bytes => r.Fits ∧ Altered r bytes

end Stretch

/-- The intact records of stretches that begin at `pos`, each with its offset. -/
def intactFrom : Nat → List Stretch → List (Nat × Record)
  | _, [] => []
  | pos, .intact r :: rest => (pos, r) :: intactFrom (pos + r.encode.length) rest
  | pos, .altered _ bytes :: rest => intactFrom (pos + bytes.length) rest

/-- A data file: stretches, and perhaps a torn record behind them. -/
structure DamagedFile where
  id : FileId
  stretches : List Stretch
  tail : Bytes

namespace DamagedFile

def bytes (f : DamagedFile) : Bytes := f.stretches.flatMap Stretch.bytes ++ f.tail

/-- The intact records with their offsets. -/
def intact (f : DamagedFile) : List (Nat × Record) := intactFrom 0 f.stretches

/-- The tail is a proper prefix of one more record. -/
structure Ok (f : DamagedFile) : Prop where
  stretches : ∀ s ∈ f.stretches, s.Ok
  tail : ∃ r : Record, r.Fits ∧ f.tail <+: r.encode ∧ f.tail ≠ r.encode

end DamagedFile

/-! ## Scanning -/

/-- An altered record is skipped whole. -/
theorem readEntry_altered {r : Record} {bs : Bytes} (h : Altered r bs) (rest : Bytes) :
    readEntry (bs ++ rest) = (some (.crcMismatch bs.length), rest) := by
  have hlen : bs.length = headerSize + (r.key.length + r.value.length) := by
    rw [h.length, Record.length_encode]
  have htake : (bs ++ rest).take headerSize = bs.take headerSize :=
    List.take_append_of_le_length (by omega)
  have hbody : ((bs ++ rest).drop headerSize).take (r.key.length + r.value.length)
      = bs.drop headerSize := by
    rw [List.drop_append_of_le_length (by omega), List.take_left' (by simp; omega)]
  have hrest : (bs ++ rest).drop (headerSize + (r.key.length + r.value.length)) = rest :=
    List.drop_left' hlen
  have hcovered : (bs.take headerSize).drop 4 ++ bs.drop headerSize = bs.drop 4 := by
    rw [← List.drop_append_of_le_length (by simp [headerSize] at *; omega),
      List.take_append_drop]
  rw [readEntry_bytes, if_neg (by simp [← List.length_eq_zero_iff, hlen, headerSize]),
    if_neg (by simp; omega)]
  simp only [htake, h.keySize, h.valueSize, hbody, hrest, hcovered, h.checksum]
  rw [if_neg (by simp; omega), hlen]
  simp

theorem scanFrom_stretches {ss : List Stretch} (hss : ∀ s ∈ ss, s.Ok) {tail : Bytes}
    (htail : Torn tail) {turns : Nat} (hturns : ss.length < turns) (pos : Nat)
    (out : List (Nat × Entry)) :
    scanFrom (fun out pos entry => out ++ [(pos, entry)]) turns
        (ss.flatMap Stretch.bytes ++ tail) pos out
      = out ++ (intactFrom pos ss).map fun p => (p.1, p.2.entry) := by
  induction ss generalizing turns pos out with
  | nil =>
    have h := @scanFrom_encodeAll _ [] (by simp) tail htail turns hturns pos out
    simpa [layout, intactFrom] using h
  | cons s ss ih =>
    obtain ⟨turns, rfl⟩ : ∃ n, turns = n + 1 := ⟨turns - 1, by simp at hturns; omega⟩
    have hs := hss s List.mem_cons_self
    have ih := @ih (fun s' hs' => hss s' (List.mem_cons_of_mem s hs')) turns
      (by simpa using hturns)
    rw [scanFrom, List.flatMap_cons, List.append_assoc]
    cases s with
    | intact r =>
      rw [Stretch.bytes, Record.encode, readEntry_encodeEntry hs.1 hs.2]
      dsimp only
      rw [ih]
      simp [intactFrom, Record.entry, Record.length_encode]
    | altered r bytes =>
      rw [Stretch.bytes, readEntry_altered hs.2]
      dsimp only
      rw [ih]
      rfl

theorem length_le_stretches {ss : List Stretch} (hss : ∀ s ∈ ss, s.Ok) :
    ss.length ≤ (ss.flatMap Stretch.bytes).length := by
  induction ss with
  | nil => rfl
  | cons s ss ih =>
    have hrest := ih fun s' hs' => hss s' (List.mem_cons_of_mem s hs')
    have hpos : 1 ≤ s.bytes.length := by
      have hs := hss s List.mem_cons_self
      cases s with
      | intact r => simp [Stretch.bytes, headerSize]; omega
      | altered r bytes =>
        have hlen := hs.2.length
        rw [Record.length_encode] at hlen
        simp only [Stretch.bytes, headerSize] at hlen ⊢
        omega
    rw [List.flatMap_cons, List.length_append, List.length_cons]
    omega

/-- Merge reads the intact records of a damaged file. -/
theorem readAllEntries_damaged {f : DamagedFile} (hf : f.Ok) :
    readAllEntries f.bytes = f.intact.map fun p => (p.1, p.2.entry) := by
  obtain ⟨r, hr, hpre, hne⟩ := hf.tail
  have htorn : Torn f.tail := by
    refine torn_of_front hr hpre ?_
    have hle := hpre.length_le
    have hlen : f.tail.length ≠ r.encode.length := fun heq => hne (hpre.eq_of_length heq)
    omega
  have hlen := length_le_stretches hf.stretches
  have h := @scanFrom_stretches _ _ hf.stretches _ htorn
    (f.bytes.length + 1) (by rw [DamagedFile.bytes, List.length_append]; omega) 0 []
  rwa [List.nil_append] at h

/-! ## Recovery -/

/-- The intact records of all files: file, offset, record. -/
def allIntact (files : List DamagedFile) : List (FileId × Nat × Record) :=
  files.flatMap fun f => f.intact.map fun p => (f.id, p.1, p.2)

/-- The order of places in a log: by file id, then by offset. -/
def Before (x y : FileId × Nat × Record) : Prop :=
  x.1 < y.1 ∨ x.1 = y.1 ∧ x.2.1 < y.2.1

/-- `x` is the last intact record of its key. -/
def LastIntact (files : List DamagedFile) (key : Bytes) (x : FileId × Nat × Record) : Prop :=
  x ∈ allIntact files ∧ x.2.2.key = key ∧
    ∀ y ∈ allIntact files, y.2.2.key = key → y = x ∨ Before y x

theorem intactFrom_ge {pos : Nat} {ss : List Stretch} :
    ∀ p ∈ intactFrom pos ss, pos ≤ p.1 := by
  induction ss generalizing pos with
  | nil => simp [intactFrom]
  | cons s ss ih =>
    intro p hp
    cases s with
    | intact r =>
      rcases List.mem_cons.mp hp with rfl | hp
      · rfl
      · have := ih p hp
        omega
    | altered r bytes =>
      have := ih p hp
      omega

theorem pairwise_intactFrom {pos : Nat} {ss : List Stretch} :
    (intactFrom pos ss).Pairwise fun p q => p.1 < q.1 := by
  induction ss generalizing pos with
  | nil => exact .nil
  | cons s ss ih =>
    cases s with
    | intact r =>
      refine .cons (fun q hq => ?_) ih
      have hge := intactFrom_ge q hq
      simp only [Record.length_encode, headerSize] at hge
      simp only
      omega
    | altered r bytes => exact ih

theorem pairwise_allIntact {files : List DamagedFile}
    (hsorted : (files.map DamagedFile.id).Pairwise (· < ·)) :
    (allIntact files).Pairwise Before := by
  refine List.pairwise_flatMap.mpr ⟨fun f _ => ?_, ?_⟩
  · exact List.pairwise_map.mpr (pairwise_intactFrom.imp fun h => Or.inr ⟨rfl, h⟩)
  · refine (List.pairwise_map.mp hsorted).imp fun hlt x hx y hy => ?_
    obtain ⟨p, -, rfl⟩ := List.mem_map.mp hx
    obtain ⟨q, -, rfl⟩ := List.mem_map.mp hy
    exact Or.inl hlt

omit [Crc32Fast] in
/-- In a list in strict order the last element is the greatest. -/
theorem getLast?_eq_some_of_pairwise {α : Type} {r : α → α → Prop} {xs : List α}
    (h : xs.Pairwise r) (hasymm : ∀ x y, r x y → ¬ r y x) (hirrefl : ∀ x, ¬ r x x) (x : α) :
    xs.getLast? = some x ↔ x ∈ xs ∧ ∀ y ∈ xs, y = x ∨ r y x := by
  constructor
  · intro hlast
    obtain ⟨ys, rfl⟩ := List.getLast?_eq_some_iff.mp hlast
    refine ⟨by simp, fun y hy => ?_⟩
    rcases List.mem_append.mp hy with hy | hy
    · exact Or.inr ((List.pairwise_append.mp h).2.2 y hy x (by simp))
    · exact Or.inl (List.mem_singleton.mp hy)
  · rintro ⟨hx, hmax⟩
    obtain ⟨z, hz⟩ : ∃ z, xs.getLast? = some z := by
      cases hl : xs.getLast? with
      | none =>
        rw [List.getLast?_eq_none_iff.mp hl] at hx
        cases hx
      | some z => exact ⟨z, rfl⟩
    obtain ⟨ys, rfl⟩ := List.getLast?_eq_some_iff.mp hz
    rcases List.mem_append.mp hx with hx' | hx'
    · -- `x` stands before the last element, which must not come before `x`
      have hlt := (List.pairwise_append.mp h).2.2 x hx' z (by simp)
      rcases hmax z (by simp) with rfl | hgt
      · exact absurd hlt (hirrefl _)
      · exact absurd hlt (hasymm _ _ hgt)
    · rw [hz, List.mem_singleton.mp hx']

omit [Crc32Fast] in
theorem before_asymm (x y : FileId × Nat × Record) (h : Before x y) : ¬ Before y x := by
  unfold Before at *
  lia

omit [Crc32Fast] in
theorem before_irrefl (x : FileId × Nat × Record) : ¬ Before x x := by
  unfold Before
  lia

/-- What recovery takes from the directory: the intact records' operations. -/
theorem diskOps_damaged {files : List DamagedFile} (hok : ∀ f ∈ files, f.Ok) {disk : Disk}
    (hdata : ∀ f ∈ files, ∃ data, disk.data.open? f.id = some data ∧ data.content = f.bytes)
    (hhint : ∀ f ∈ files, disk.hint.open? f.id = none) :
    diskOps disk (files.map DamagedFile.id)
      = (allIntact files).map fun x => entryOp x.1 (x.2.1, x.2.2.entry) := by
  unfold diskOps allIntact
  rw [List.flatMap_map, List.map_flatMap]
  refine List.flatMap_congr fun f hf => ?_
  obtain ⟨data, hd, hcontent⟩ := hdata f hf
  unfold fileOps
  simp only [hd, hhint f hf, Option.bind_none, Option.map_some, Option.getD_some, hcontent]
  rw [readAllEntries_damaged (hok f hf)]
  simp

/-- Recovery of damaged files: a key is there exactly if its last intact record
    is not a tombstone, and then points at that record's value.  Merge's reading
    of each file finds the same records at the same offsets. -/
theorem recover_damaged {files : List DamagedFile}
    (hsorted : (files.map DamagedFile.id).Pairwise (· < ·)) (hok : ∀ f ∈ files, f.Ok)
    {disk : Disk}
    (hdata : ∀ f ∈ files, ∃ data, disk.data.open? f.id = some data ∧ data.content = f.bytes)
    (hhint : ∀ f ∈ files, disk.hint.open? f.id = none) :
    (∀ key entry, (recover disk (files.map DamagedFile.id) ∅).get key = some entry ↔
      ∃ id pos r, LastIntact files key (id, pos, r) ∧ r.tombstone = false ∧
        entry = { fileId := id, valueSize := r.value.length, valuePos := pos + 16 + r.key.length
                  timestamp := r.timestamp }) ∧
    ∀ f ∈ files, readAllEntries f.bytes = f.intact.map fun p => (p.1, p.2.entry) := by
  refine ⟨fun key entry => ?_, fun f hf => readAllEntries_damaged (hok f hf)⟩
  have hops := diskOps_damaged hok hdata hhint
  have hlast : lastOn key (diskOps disk (files.map DamagedFile.id))
      = (((allIntact files).filter fun x => x.2.2.key = key).getLast?).map
        fun x => (entryOp x.1 (x.2.1, x.2.2.entry)).2 := by
    rw [hops, lastOn, List.filter_map, List.map_map, List.getLast?_map]
    rfl
  have hmax := getLast?_eq_some_of_pairwise
    ((pairwise_allIntact hsorted).filter fun x => decide (x.2.2.key = key)) before_asymm before_irrefl
  rw [recover_eq, get_foldl_applyOp, hlast, Keydir.get_empty]
  constructor
  · intro h
    cases hx : ((allIntact files).filter fun x => x.2.2.key = key).getLast? with
    | none => simp [hx] at h
    | some x =>
      obtain ⟨id, pos, r⟩ := x
      obtain ⟨hmem, hlt⟩ := (hmax _).mp hx
      obtain ⟨hmem, hkey⟩ := List.mem_filter.mp hmem
      rw [hx] at h
      simp only [entryOp, Option.map_some, Option.getD_some] at h
      split at h
      · cases h
      · rename_i hlive
        cases h
        refine ⟨id, pos, r, ⟨hmem, by simpa using hkey, fun y hy hk => ?_⟩,
          by simpa [Record.entry, headerOf] using hlive, rfl⟩
        exact hlt y (List.mem_filter.mpr ⟨hy, by simpa using hk⟩)
  · rintro ⟨id, pos, r, ⟨hmem, hkey, hlt⟩, hlive, rfl⟩
    have hx := (hmax (id, pos, r)).mpr ⟨List.mem_filter.mpr ⟨hmem, by simpa using hkey⟩,
      fun y hy => hlt y (List.mem_filter.mp hy).1 (by simpa using (List.mem_filter.mp hy).2)⟩
    rw [hx]
    simp [entryOp, Record.entry, headerOf, hlive, keydirEntryOf, valuePosOf, headerSize]

/-- A file of one record, the same record with its value byte changed, and the
    first five bytes of it once more. -/
def damagedFile : DamagedFile where
  id := 3
  stretches :=
    let r : Record := ⟨[1], [2], false, 7⟩
    [.intact r, .altered r (r.encode.take 17 ++ [4])]
  tail := (Record.encode ⟨[1], [2], false, 7⟩).take 5

omit [Crc32Fast] in
/-- Its first record is what recovery finds. -/
theorem recover_damagedFile :
    letI := ieee
    (recover ⟨(∅ : FileTable).insert 3 ⟨damagedFile.bytes, [], true, 0⟩, ∅⟩ [3] ∅).get [1]
      = some { fileId := 3, valueSize := 1, valuePos := 17, timestamp := 7 } := by
  let _ := ieee
  have hfits : (⟨[1], [2], false, 7⟩ : Record).Fits := ⟨by decide, by decide⟩
  refine ((@recover_damaged ieee [damagedFile] (by simp) ?_
    ⟨(∅ : FileTable).insert 3 ⟨damagedFile.bytes, [], true, 0⟩, ∅⟩ ?_ ?_).1 [1] _).mpr
    ⟨3, 0, ⟨[1], [2], false, 7⟩, ⟨by simp [allIntact, damagedFile, DamagedFile.intact, intactFrom],
      rfl, fun y hy _ => ?_⟩, rfl, rfl⟩
  · intro f hf
    cases List.mem_singleton.mp hf
    refine ⟨fun s hs => ?_, ⟨_, hfits, List.take_prefix 5 _, by decide +kernel⟩⟩
    rcases List.mem_pair.mp hs with rfl | rfl
    · exact hfits
    · exact ⟨hfits, by decide +kernel, by decide +kernel, by decide +kernel, by decide +kernel⟩
  · intro f hf
    cases List.mem_singleton.mp hf
    have hopen : FileTable.open? ((∅ : FileTable).insert 3 ⟨damagedFile.bytes, [], true, 0⟩) 3
        = some ⟨damagedFile.bytes, [], true, 0⟩ := by
      rw [FileTable.open?, AList.lookup_insert]
      rfl
    exact ⟨_, hopen, rfl⟩
  · simp [FileTable.open?]
  · left
    simpa [allIntact, damagedFile, DamagedFile.intact, intactFrom] using hy

end Yabiir
