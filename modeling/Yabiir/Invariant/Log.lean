/-
  Yabiir.Invariant.Log

  A directory as a log in segments: each data file stands for the keydir
  operations that recovery takes from it.  What appending and rotating do to the
  log.
-/

import Yabiir.Invariant.Values
import Yabiir.Invariant.Open

namespace Yabiir

open Format

variable [Crc32Fast]

/-- The log of a directory, by data file. -/
def Disk.log (disk : Disk) : Segments Bytes (Option KeydirEntry) :=
  fun id => (disk.data.open? id).map fun _ => fileOps disk id

/-- What a scan of the file makes of it. -/
def World.scanOps (w : World) (id : FileId) : List KeydirOp :=
  (readAllEntries (w.contentOf id)).map (entryOp id)

section

variable {disk disk' : Disk} {id : FileId} {key : Bytes} {entry : KeydirEntry}

theorem isSome_log : (disk.log id).isSome ↔ id ∈ disk.data.discover := by
  rw [FileTable.mem_discover, Disk.log, Option.isSome_map]
  cases h : disk.data.open? id with
  | none =>
    constructor
    · exact fun h => by cases h
    · rintro ⟨f, hl, hlinked⟩
      cases h.symm.trans (open?_eq_some.mpr ⟨hl, hlinked⟩)
  | some f => exact ⟨fun _ => ⟨f, open?_eq_some.mp h⟩, fun _ => rfl⟩

/-- Recovery finds what the log says last. -/
theorem get_recover : (recover disk disk.data.discover ∅).get key = some entry ↔
    ∃ id, disk.log.Newest key id (some entry) := by
  have hops : diskOps disk disk.data.discover
      = disk.data.discover.flatMap fun id => (disk.log id).getD [] := by
    unfold diskOps
    apply List.flatMap_congr
    intro id hid
    obtain ⟨f, hf⟩ := Option.isSome_iff_exists.mp (isSome_log.mpr hid)
    rw [hf]
    obtain ⟨data, -, heq⟩ := Option.map_eq_some_iff.mp hf
    exact heq
  rw [← Segments.lastOn_flatMap (FileTable.pairwise_discover _) fun id => isSome_log.symm, ← hops,
    recover_eq, get_foldl_applyOp, Keydir.get_empty]
  cases lastOn key (diskOps disk disk.data.discover) <;> simp

/-- The log of a file depends on the bytes of its data and its hint file. -/
theorem log_congr
    (hdata : (disk'.data.open? id).map FileState.content = (disk.data.open? id).map FileState.content)
    (hhint : (disk'.hint.open? id).map FileState.content
      = (disk.hint.open? id).map FileState.content) : disk'.log id = disk.log id := by
  have hbind : ∀ (t : FileTable) (n : Nat),
      ((t.open? id).bind fun hint => validHintRecords hint.content n)
        = ((t.open? id).map FileState.content).bind fun bytes => validHintRecords bytes n := by
    intro t n
    cases t.open? id <;> rfl
  have hops : fileOps disk' id = fileOps disk id := by
    unfold fileOps
    simp only [hbind, hdata, hhint]
  unfold Disk.log
  rw [hops]
  cases hd : disk.data.open? id <;> cases hd' : disk'.data.open? id <;> simp [hd, hd'] at hdata ⊢

theorem linked_of_log {w : World} {ops : List KeydirOp} (h : w.disk.log id = some ops) :
    w.Linked id ∧ fileOps w.disk id = ops := by
  obtain ⟨data, hopen, heq⟩ := Option.map_eq_some_iff.mp h
  exact ⟨⟨data, hopen⟩, heq⟩

theorem log_of_linked {w : World} (h : w.Linked id) : w.disk.log id = some (fileOps w.disk id) := by
  obtain ⟨data, hopen⟩ := h
  rw [Disk.log, hopen]
  rfl

theorem log_of_not_linked {w : World} (h : ¬ w.Linked id) : w.disk.log id = none := by
  cases hlog : w.disk.log id with
  | none => rfl
  | some ops => exact absurd (linked_of_log hlog).1 h

/-- Without a hint file, the data file is scanned. -/
theorem fileOps_noHint {w : World} (h : w.Linked id) (hhint : w.disk.hint.open? id = none) :
    fileOps w.disk id = w.scanOps id := by
  obtain ⟨data, hopen⟩ := h
  unfold fileOps World.scanOps
  rw [hhint, hopen, contentOf_of_lookup (open?_eq_some.mp hopen).1]
  rfl

end

section

variable {own : FileId → Prop} {w : World} {id : FileId} {key : Bytes} {entry : KeydirEntry}

theorem FilesOk.noHint_active (h : FilesOk True own w) :
    w.disk.hint.open? w.active.fileId = none := by
  rw [FileTable.open?, h.activeHint trivial]
  rfl

theorem FilesOk.linked_active {tidy : Prop} (h : FilesOk tidy own w) : w.Linked w.active.fileId := by
  obtain ⟨data, hl, hok⟩ := h.active
  exact ⟨data, open?_eq_some.mpr ⟨hl, hok.linked⟩⟩

/-- What the log says of a file is found by a scan of it. -/
theorem FilesOk.log_sublist (h : FilesOk True own w) (hlinked : w.Linked id) (hown : ¬ own id) :
    fileOps w.disk id <+: w.scanOps id := by
  by_cases hactive : id = w.active.fileId
  · rw [fileOps_noHint hlinked (hactive ▸ h.noHint_active)]
  · have hlinked' := hlinked
    obtain ⟨data, hopen⟩ := hlinked'
    have hsealed := h.sealed_ trivial id data hopen hown hactive
    cases hhint : w.disk.hint.open? id with
    | none => rw [fileOps_noHint hlinked hhint]
    | some hint =>
      obtain ⟨-, hsound⟩ := hsealed.hint hint hhint
      unfold fileOps World.scanOps
      rw [contentOf_of_lookup (open?_eq_some.mp hopen).1, hhint, hopen]
      simp only [Option.bind_some, Option.map_some, Option.getD_some]
      split
      · rename_i records hvalid
        have hfront := (hsound records hvalid).map (hintOp id)
        rwa [List.map_map] at hfront
      · exact List.prefix_rfl

theorem FilesOk.scans_of_log (h : FilesOk True own w) (hown : ¬ own id) {ops : List KeydirOp}
    (hlog : w.disk.log id = some ops) (hop : (key, some entry) ∈ ops) :
    entry.fileId = id ∧ w.Linked id ∧ w.Scans key entry := by
  obtain ⟨hlinked, rfl⟩ := linked_of_log hlog
  obtain ⟨hid, -⟩ := fileOps_some hop
  refine ⟨hid, hlinked, ?_⟩
  subst hid
  exact (h.log_sublist hlinked hown).subset hop

/-! ## Appending and rotating -/

omit [Crc32Fast] in
theorem contentOf_appended (h : ∃ data, w.disk.data.lookup w.active.fileId = some data ∧
    data.buffer = []) (bytes : Bytes) : (w.appended bytes).contentOf id
      = if id = w.active.fileId then w.contentOf id ++ bytes else w.contentOf id := by
  obtain ⟨data, hl, hdrained⟩ := h
  have hlookup : (w.appended bytes).disk.data.lookup id = _ := World.lookup_appended w bytes
  split
  · rename_i heq
    rw [if_pos heq, heq, hl] at hlookup
    rw [heq, contentOf_of_lookup hlookup, contentOf_of_lookup hl, FileState.content_flushBuf,
      FileState.logical_writeAll, FileState.content_eq_logical hdrained]
  · rename_i hne
    rw [if_neg hne] at hlookup
    rw [World.contentOf, hlookup, World.contentOf]

/-- The operation a record stands for that is appended to file `id` at `pos`. -/
def Record.op (r : Record) (id : FileId) (pos : Nat) : Option KeydirEntry :=
  if r.tombstone then none else some (keydirEntryOf id pos r.entry)

/-- A scan of the active file finds one more entry once it is appended. -/
theorem FilesOk.scan_appended (h : FilesOk True own w) {r : Record} (hr : r.Fits) :
    readAllEntries ((w.appended r.encode).contentOf w.active.fileId)
      = readAllEntries (w.contentOf w.active.fileId) ++ [(w.active.offset, r.entry)] := by
  obtain ⟨data, hl, hok⟩ := h.active
  obtain ⟨rs, hfits, hcontent⟩ := hok.records trivial
  have hscan : ∀ rs : List Record, (∀ r ∈ rs, r.Fits) →
      readAllEntries (encodeAll rs) = layout 0 rs := fun rs hfits => by
    simpa using readAllEntries_encodeAll hfits torn_nil
  have hfits' : ∀ r' ∈ rs ++ [r], r'.Fits := by
    intro r' hr'
    rcases List.mem_append.mp hr' with hr' | hr'
    · exact hfits r' hr'
    · exact List.mem_singleton.mp hr' ▸ hr
  have henc : encodeAll rs ++ r.encode = encodeAll (rs ++ [r]) := by simp
  rw [contentOf_appended ⟨data, hl, hok.drained⟩, if_pos rfl, contentOf_of_lookup hl, hok.offset,
    hcontent, henc, hscan _ hfits', hscan rs hfits, layout_append, Nat.zero_add]
  rfl

/-- What was appended can be read. -/
theorem FilesOk.appended_holds (h : FilesOk True own w) {r : Record} (hr : r.Fits) :
    (w.appended r.encode).Holds (keydirEntryOf w.active.fileId w.active.offset r.entry) r.value := by
  have hmem : (w.active.offset, r.entry)
      ∈ readAllEntries ((w.appended r.encode).contentOf w.active.fileId) := by
    rw [h.scan_appended hr]
    exact List.mem_append_right _ List.mem_cons_self
  exact (mem_readAllEntries hmem).holds List.prefix_rfl

/-- Appending a record appends its operation to the log of the active file. -/
theorem FilesOk.log_appended (h : FilesOk True own w) {r : Record} (hr : r.Fits) :
    ∃ ops, w.disk.log w.active.fileId = some ops ∧
      (w.appended r.encode).disk.log = Function.update w.disk.log w.active.fileId
        (some (ops ++ [(r.key, r.op w.active.fileId w.active.offset)])) := by
  obtain ⟨data, hl, hok⟩ := h.active
  have hlookup : (w.appended r.encode).disk.data.lookup w.active.fileId
      = some (data.writeAll r.encode).flushBuf := by
    rw [World.lookup_appended, if_pos rfl, hl]
    rfl
  have hlinked : (w.appended r.encode).Linked w.active.fileId :=
    ⟨_, open?_eq_some.mpr ⟨hlookup, by simp [hok.linked]⟩⟩
  refine ⟨w.scanOps w.active.fileId, ?_, funext fun id => ?_⟩
  · rw [log_of_linked h.linked_active, fileOps_noHint h.linked_active h.noHint_active]
  · by_cases hid : id = w.active.fileId
    · subst hid
      rw [Function.update_self, log_of_linked hlinked, fileOps_noHint hlinked h.noHint_active,
        World.scanOps, h.scan_appended hr, List.map_append]
      rfl
    · rw [Function.update_of_ne hid]
      have hsame : (w.appended r.encode).disk.data.lookup id = w.disk.data.lookup id :=
        (w.lookup_appended r.encode).trans (if_neg hid)
      exact log_congr (by rw [open?_congr hsame]) rfl

/-- Syncing the active file changes no file's bytes. -/
theorem FilesOk.content_synced {tidy : Prop} (h : FilesOk tidy own w) (id : FileId) :
    (w.activeSynced.disk.data.open? id).map FileState.content
        = (w.disk.data.open? id).map FileState.content ∧
      w.activeSynced.contentOf id = w.contentOf id := by
  obtain ⟨data, hl, hok⟩ := h.active
  have hlookup := FileTable.lookup_modify w.disk.data w.active.fileId id
    fun f => f.flushBuf.syncData
  have hcontent : (data.flushBuf.syncData).content = data.content := by
    simp [FileState.logical, hok.drained]
  by_cases hid : id = w.active.fileId
  · rw [if_pos hid, hl] at hlookup
    have hl' : w.activeSynced.disk.data.lookup id = some data.flushBuf.syncData := hlookup
    rw [hid] at hl' ⊢
    constructor
    · have hopen := open?_eq_some.mpr ⟨hl, hok.linked⟩
      have hopen' : w.activeSynced.disk.data.open? w.active.fileId = some data.flushBuf.syncData :=
        open?_eq_some.mpr ⟨hl', by simp [hok.linked]⟩
      rw [hopen, hopen', Option.map_some, Option.map_some, hcontent]
    · rw [contentOf_of_lookup hl', contentOf_of_lookup hl, hcontent]
  · rw [if_neg hid] at hlookup
    have hl' : w.activeSynced.disk.data.lookup id = w.disk.data.lookup id := hlookup
    exact ⟨by rw [open?_congr hl'], by rw [World.contentOf, hl', World.contentOf]⟩

theorem FilesOk.log_synced {tidy : Prop} (h : FilesOk tidy own w) :
    w.activeSynced.disk.log = w.disk.log :=
  funext fun id => log_congr (h.content_synced id).1 rfl

/-- Rotating adds a segment without operations. -/
theorem FilesOk.log_rotated (h : FilesOk True own w) :
    w.disk.log w.nextFileId = none ∧
      w.rotated.disk.log = Function.update w.disk.log w.nextFileId (some []) ∧
      ∀ id, w.rotated.contentOf id = w.contentOf id := by
  obtain ⟨hfresh, hhint⟩ := h.fresh _ le_rfl
  have hne : w.nextFileId ≠ w.active.fileId := ne_of_gt h.active_lt
  have hself := w.lookup_rotated_self hne hfresh
  have hother : ∀ id, id ≠ w.nextFileId →
      w.rotated.disk.data.lookup id = w.activeSynced.disk.data.lookup id :=
    fun id hid => w.lookup_rotated_of_ne hid
  refine ⟨by rw [Disk.log, FileTable.open?, hfresh]; rfl, funext fun id => ?_, fun id => ?_⟩
  · by_cases hid : id = w.nextFileId
    · subst hid
      have hlinked : w.rotated.Linked w.nextFileId := ⟨.fresh, open?_eq_some.mpr ⟨hself, rfl⟩⟩
      have hnone : w.rotated.disk.hint.open? w.nextFileId = none := by
        rw [World.hint_rotated, FileTable.open?, hhint trivial]
        rfl
      rw [Function.update_self, log_of_linked hlinked, fileOps_noHint hlinked hnone, World.scanOps,
        contentOf_of_lookup hself]
      exact congrArg (fun ps => some (ps.map (entryOp w.nextFileId))) readAllEntries_nil
    · rw [Function.update_of_ne hid, ← h.log_synced]
      exact log_congr (by rw [open?_congr (hother id hid)]) rfl
  · by_cases hid : id = w.nextFileId
    · rw [hid, contentOf_of_lookup hself, World.contentOf, hfresh]
      rfl
    · rw [← (h.content_synced id).2, World.contentOf, hother id hid, World.contentOf]

end

end Yabiir
