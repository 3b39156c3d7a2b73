/-
  Yabiir.Invariant.Cut

  What a killed process leaves of a data file, its hint file and the directory.
  Records cut anywhere are records and a torn one (`front_encodeAll`); a hint file cut
  as well lists entries that are there whole, or nothing (`hintSound_cut`).  A
  directory in which a record was being appended stores the map without it or the
  map with it (`Ready.cut`).
-/

import Yabiir.Invariant.Merged
import Yabiir.Invariant.Reopen

namespace Yabiir

open Format

variable [Crc32Fast]

/-! ## Cut bytes -/

/-- The front of records: all of them, or the first so many and of the next one a
    part. -/
theorem front_encodeAll {rs : List Record} {bytes : Bytes} (h : bytes <+: encodeAll rs) :
    bytes = encodeAll rs ∨ ∃ front r back tail, rs = front ++ r :: back ∧
      bytes = encodeAll front ++ tail ∧ tail <+: r.encode ∧ tail.length < r.encode.length := by
  induction rs generalizing bytes with
  | nil => exact Or.inl (List.prefix_nil.mp h)
  | cons r rs ih =>
    rw [encodeAll_cons] at h
    by_cases hlt : bytes.length < r.encode.length
    · have htail : bytes <+: r.encode :=
        List.prefix_of_prefix_length_le h (List.prefix_append ..) hlt.le
      exact Or.inr ⟨[], r, rs, bytes, rfl, rfl, htail, hlt⟩
    · have hwhole : r.encode <+: bytes :=
        List.prefix_of_prefix_length_le (List.prefix_append ..) h (not_lt.mp hlt)
      obtain ⟨rest, rfl⟩ := hwhole
      rcases ih ((List.prefix_append_right_inj _).mp h) with rfl | ⟨front, r', back, tail, rfl, rfl, ht⟩
      · exact Or.inl rfl
      · exact Or.inr ⟨r :: front, r', back, tail, rfl, by simp, ht⟩

section

variable {rs rs' : List Record} {bytes hint trailer : Bytes}

/-- Records cut anywhere. -/
theorem isLog_cut (hfits : ∀ r ∈ rs, r.Fits) (h : bytes <+: encodeAll rs) : IsLog bytes := by
  rcases front_encodeAll h with rfl | ⟨front, r, back, tail, rfl, rfl, hpre, hlt⟩
  · exact .of_records hfits
  · have hr : r.Fits := hfits r (by simp)
    exact ⟨front, tail, fun r hr => hfits r (List.mem_append_left _ hr), torn_of_front hr hpre hlt,
      rfl⟩

/-- A scan of records cut anywhere finds no other records. -/
theorem readAllEntries_cut (hfits : ∀ r ∈ rs, r.Fits) (h : bytes <+: encodeAll rs) :
    readAllEntries bytes <+: layout 0 rs := by
  have hall : readAllEntries (encodeAll rs) = layout 0 rs := by
    simpa using readAllEntries_encodeAll hfits torn_nil
  exact hall ▸ readAllEntries_front h

/-- What a hint file that passes validation lists ends within the data file. -/
theorem validHintRecords_le {n : Nat} {records : List (EntryHeader × Nat × Bytes)}
    (h : validHintRecords hint n = some records) :
    ∀ x ∈ records, min (x.2.1 + x.1.valueSize) (2 ^ 64 - 1) ≤ n := by
  unfold validHintRecords at h
  split at h
  · cases h
  · exact readHintRecords_le h (by simp)

/-- A data file and its hint file, each cut anywhere: where the hint file passes
    validation, what it lists is there whole. -/
theorem hintSound_cut (hfits : ∀ r ∈ rs, r.Fits) (hbytes : bytes <+: encodeAll rs)
    (hrs : rs' <+: rs) (htrailer : trailer.length = hintTrailerSize)
    (hhint : hint <+: encodeHintRecords (layout 0 rs') ++ trailer)
    (hshort : (encodeAll rs).length < 2 ^ 64 - 1) : HintSound bytes hint := by
  intro records hvalid
  have hfits' : ∀ r ∈ rs', r.Fits := fun r hr => hfits r (hrs.subset hr)
  have hlayout : layout 0 rs' <+: layout 0 rs := by
    obtain ⟨rest, rfl⟩ := hrs
    rw [layout_append]
    exact List.prefix_append ..
  have hps : ∀ p ∈ layout 0 rs', Hintable (encodeAll rs).length p := by
    intro p hp
    have hall : readAllEntries (encodeAll rs) = layout 0 rs := by
      simpa using readAllEntries_encodeAll hfits torn_nil
    have hfound := mem_readAllEntries (hall ▸ hlayout.subset hp)
    exact ⟨hfound.fits, hfound.le⟩
  obtain ⟨qs, hqs, rfl, -⟩ := validHintRecords_of_front hps (by omega) htrailer hhint hvalid
  apply List.IsPrefix.map
  rcases front_encodeAll hbytes with rfl | ⟨front, r, back, tail, rfl, rfl, hpre, hlt⟩
  · have hall : readAllEntries (encodeAll rs) = layout 0 rs := by
      simpa using readAllEntries_encodeAll hfits torn_nil
    exact hall ▸ hqs.trans hlayout
  · have hr : r.Fits := hfits r (by simp)
    rw [readAllEntries_encodeAll (fun r hr => hfits r (List.mem_append_left _ hr))
      (torn_of_front hr hpre hlt)]
    rw [layout_append] at hlayout
    rcases List.prefix_or_prefix_of_prefix (hqs.trans hlayout) (List.prefix_append ..) with hle | hge
    · exact hle
    · obtain ⟨ds, rfl⟩ := hge
      cases ds with
      | nil => simp
      | cons d ds =>
        -- the record cut would be listed, but it ends behind the end of the file
        exfalso
        have hd : d = (0 + (encodeAll front).length, r.entry) := by
          have hpre := (List.prefix_append_right_inj _).mp (hqs.trans hlayout)
          exact (List.cons_prefix_cons.mp hpre).1
        have hle := validHintRecords_le hvalid (hintRecord d) (by simp)
        rw [hd] at hle
        simp only [hintRecord, valuePosOf, Record.entry, headerOf, List.length_append,
          encodeAll_append, encodeAll_cons, Record.length_encode] at hle hlt hshort
        omega

end

/-! ## Cut directories -/

/-- A directory nobody has open that is `disk` with more in it, fewer than `n` ids
    allotted: its files are in order, the hint files are the same. -/
structure Disk.Extends (disk disk' : Disk) (n : Nat) : Prop where
  uncut : ∀ keep, disk'.data.cut keep = disk'.data
  hint : disk'.hint = disk.hint
  below : ∀ id f, disk'.data.lookup id = some f → f.linked = true ∧ id < n
  sealed_ : ∀ id f, disk'.data.lookup id = some f → SealedFile f (disk'.hint.open? id)
  stays : ∀ id f, disk.data.lookup id = some f → ∃ f', disk'.data.lookup id = some f'
  grows : ∀ id, disk.contentOf id <+: disk'.contentOf id

section

variable {disk disk' : Disk} {m : KeyMap} {n n' : Nat}

omit [Crc32Fast] in
theorem Disk.Says.grows {value? : Option Bytes} {op : Option KeydirEntry} (h : disk.Says value? op)
    (hgrows : ∀ id, disk.contentOf id <+: disk'.contentOf id) : disk'.Says value? op := by
  cases op with
  | none => exact h
  | some entry =>
    obtain ⟨value, hvalue, hread⟩ := h
    exact ⟨value, hvalue, preadExact_front (hgrows _) hread⟩

/-- With more in it that the log does not show, a directory stores the same map. -/
theorem Disk.Stores.extended (h : disk.Stores False m n) (hE : disk.Extends disk' n')
    (hlast : ∀ key id op, disk'.log.LastIn key id op ↔ disk.log.LastIn key id op) :
    disk'.Stores False m n' where
  uncut := fun keep => ⟨hE.uncut keep, hE.hint ▸ (h.uncut keep).2⟩
  below := hE.below
  sealed_ := hE.sealed_
  hint := fun id hint hl => by
    obtain ⟨id', f, hl', hle⟩ := h.hint id hint (hE.hint ▸ hl)
    obtain ⟨f', hf'⟩ := hE.stays id' f hl'
    exact ⟨id', f', hf', hle⟩
  agrees := fun key id op hn =>
    (h.agrees key id op ((Segments.newest_congr (hlast key)).mp hn)).grows hE.grows
  logged := fun key value hm => by
    obtain ⟨id, op, hn⟩ := h.logged key value hm
    exact ⟨id, op, (Segments.newest_congr (hlast key)).mpr hn⟩
  full := fun hf => hf.elim

/-- With a record more at the end of its log, a directory stores the map with the
    record written. -/
theorem Disk.Stores.written (h : disk.Stores False m n) (hE : disk.Extends disk' n') {r : Record}
    {top : FileId} {op : Option KeydirEntry}
    (hlast : ∀ key id op, key ≠ r.key → (disk'.log.LastIn key id op ↔ disk.log.LastIn key id op))
    (hnewest : disk'.log.Newest r.key top op)
    (hright : disk'.Says (if r.tombstone then none else some r.value) op) :
    disk'.Stores False (m.write r) n' where
  uncut := fun keep => ⟨hE.uncut keep, hE.hint ▸ (h.uncut keep).2⟩
  below := hE.below
  sealed_ := hE.sealed_
  hint := fun id hint hl => by
    obtain ⟨id', f, hl', hle⟩ := h.hint id hint (hE.hint ▸ hl)
    obtain ⟨f', hf'⟩ := hE.stays id' f hl'
    exact ⟨id', f', hf', hle⟩
  agrees := fun key id op' hn => by
    unfold KeyMap.write
    by_cases hkey : key = r.key
    · subst hkey
      obtain ⟨-, rfl⟩ := hnewest.unique hn
      rw [Function.update_self]
      exact hright
    · rw [Function.update_of_ne hkey]
      have hn' := (Segments.newest_congr fun id op => hlast key id op hkey).mp hn
      exact (h.agrees key id op' hn').grows hE.grows
  logged := fun key value hm => by
    by_cases hkey : key = r.key
    · exact ⟨top, op, hkey ▸ hnewest⟩
    · rw [KeyMap.write, Function.update_of_ne hkey] at hm
      obtain ⟨id, op, hn⟩ := h.logged key value hm
      exact ⟨id, op, (Segments.newest_congr fun id op => hlast key id op hkey).mpr hn⟩
  full := fun hf => hf.elim

end

/-! ## Appends and rotations under way -/

/-- From the world `w`, some of `bytes` got to the end of the active file, or all of it
    is buffered, and there may be a new file; the other files are as they were. -/
structure World.Midway (w : World) (bytes : Bytes) (w' : World) : Prop where
  hint : w'.disk.hint = w.disk.hint
  allotted : w.allotted ≤ w'.allotted
  active : ∃ file file', w.disk.data.lookup w.active.fileId = some file ∧
    w'.disk.data.lookup w.active.fileId = some file' ∧ file'.linked = true ∧
    file.content <+: file'.content ∧ file'.logical <+: file.content ++ bytes
  other : ∀ id, id ≠ w.active.fileId → w'.disk.data.lookup id = w.disk.data.lookup id ∨
    id = w.nextFileId ∧ w'.disk.data.lookup id = some .fresh ∧ w.allotted < w'.allotted

/-- The directory `disk` is what a kill in the world `w` would leave, with `front` more at
    the end of the active file and perhaps a new file. -/
structure World.Leaves (w : World) (r : Restart) (front : Bytes) (disk : Disk) (n : Nat) :
    Prop where
  uncut : ∀ keep, disk.data.cut keep = disk.data
  hint : disk.hint = (w.crash r).hint
  allotted : w.allotted ≤ n
  active : ∃ file, disk.data.lookup w.active.fileId = some file ∧ file.linked = true ∧
    file.buffer = [] ∧ file.content = w.contentOf w.active.fileId ++ front
  other : ∀ id, id ≠ w.active.fileId → disk.data.lookup id = (w.crash r).data.lookup id ∨
    id = w.nextFileId ∧ disk.data.lookup id = some .fresh ∧ w.allotted < n

section

variable {w w' : World} {bytes front : Bytes} {r : Restart} {disk : Disk} {n : Nat} {m : KeyMap}
  {kd : Keydir} {rec : Record} {own : FileId → Prop}

theorem FilesOk.of_publish {tidy : Prop} (h : FilesOk tidy own (w.publish kd)) :
    FilesOk tidy own w :=
  have hA : AgreesOff (fun _ => False) (w.publish kd) w := .of_eq rfl rfl rfl rfl rfl
  h.agreesOff hA fun _ hx => hx.elim

theorem World.midway_refl (hfiles : FilesOk True own w) (bytes : Bytes) : w.Midway bytes w where
  hint := rfl
  allotted := le_rfl
  active := by
    obtain ⟨data, hl, hok⟩ := hfiles.active
    refine ⟨data, data, hl, hl, hok.linked, List.prefix_rfl, ?_⟩
    rw [← FileState.content_eq_logical hok.drained]
    exact List.prefix_append ..
  other := fun _ _ => Or.inl rfl

omit [Crc32Fast] in
theorem World.Midway.leaves (h : w.Midway bytes w') (r : Restart) :
    ∃ front, front <+: bytes ∧ w.Leaves r front (w'.crash r) w'.allotted := by
  obtain ⟨file, file', hl, hl', hlinked, ⟨tail, htail⟩, hlogical⟩ := h.active
  have hcut : (w'.crash r).data.lookup w.active.fileId
      = some (file'.cut (r.keepData w.active.fileId)) := by
    rw [World.crash, FileTable.lookup_cut, open?_eq_some.mpr ⟨hl', hlinked⟩]
    rfl
  have hcontent : (file'.cut (r.keepData w.active.fileId)).content
      = file.content ++ (tail ++ file'.buffer.take (r.keepData w.active.fileId)) := by
    show file'.content ++ _ = _
    rw [← htail, List.append_assoc]
  refine ⟨tail ++ file'.buffer.take (r.keepData w.active.fileId), ?_,
    fun keep => FileTable.cut_cut _ _ _, ?_, h.allotted, ⟨_, hcut, hlinked, rfl, ?_⟩,
    fun id hid => ?_⟩
  · rw [FileState.logical, ← htail, List.append_assoc, List.prefix_append_right_inj] at hlogical
    exact ((List.prefix_append_right_inj _).mpr (List.take_prefix ..)).trans hlogical
  · show w'.disk.hint.cut _ = w.disk.hint.cut _
    rw [h.hint]
  · rw [hcontent, contentOf_of_lookup hl]
  · rw [World.crash, FileTable.lookup_cut]
    rcases h.other id hid with heq | ⟨rfl, hfresh, hlt⟩
    · left
      rw [World.crash, FileTable.lookup_cut, open?_congr heq]
    · right
      rw [open?_eq_some.mpr ⟨hfresh, rfl⟩]
      exact ⟨rfl, by simp [FileState.cut, FileState.fresh], hlt⟩

/-- The files of such a directory are in order. -/
theorem World.Leaves.extends (h : w.Leaves r front disk n) (hfiles : FilesOk True own w)
    (hstores : (w.crash r).Stores False m w.allotted)
    (hlog : IsLog (w.contentOf w.active.fileId ++ front)) : (w.crash r).Extends disk n := by
  have hnoHint : (w.crash r).hint.open? w.active.fileId = none := by
    have hopen : w.disk.hint.open? w.active.fileId = none := hfiles.noHint_active
    rw [World.crash, FileTable.open?_cut, hopen]
    rfl
  obtain ⟨file, hl, hlinked, hbuffer, hcontent⟩ := h.active
  refine ⟨h.uncut, h.hint, fun id f hf => ?_, fun id f hf => ?_, fun id f hf => ?_, fun id => ?_⟩
  · by_cases hid : id = w.active.fileId
    · rw [hid, hl] at hf
      cases hf
      have hlt : w.active.fileId < w.nextFileId := hfiles.active_lt
      have hle : w.nextFileId ≤ w.allotted := hfiles.allotted
      have hn := h.allotted
      exact ⟨hlinked, by lia⟩
    · rcases h.other id hid with heq | ⟨rfl, hfresh, hlt⟩
      · obtain ⟨hf', hlt⟩ := hstores.below id f (heq ▸ hf)
        exact ⟨hf', hlt.trans_le h.allotted⟩
      · cases hfresh.symm.trans hf
        have hle : w.nextFileId ≤ w.allotted := hfiles.allotted
        exact ⟨rfl, hle.trans_lt hlt⟩
  · rw [h.hint]
    by_cases hid : id = w.active.fileId
    · rw [hid] at hf ⊢
      cases hl.symm.trans hf
      refine ⟨hbuffer, hcontent ▸ hlog, fun hint hh => ?_⟩
      cases hnoHint.symm.trans hh
    · rcases h.other id hid with heq | ⟨rfl, hfresh, -⟩
      · exact hstores.sealed_ id f (heq ▸ hf)
      · cases hfresh.symm.trans hf
        refine ⟨rfl, isLog_nil, fun hint hh => ?_⟩
        have hnone : w.disk.hint.lookup w.nextFileId = none := (hfiles.fresh _ le_rfl).2 trivial
        rw [World.crash, FileTable.open?_cut, FileTable.open?, hnone] at hh
        cases hh
  · by_cases hid : id = w.active.fileId
    · exact ⟨file, hid ▸ hl⟩
    · rcases h.other id hid with heq | ⟨rfl, hfresh, -⟩
      · exact ⟨f, heq.trans hf⟩
      · exact ⟨_, hfresh⟩
  · by_cases hid : id = w.active.fileId
    · subst hid
      obtain ⟨f, hf⟩ := hfiles.linked_active
      have hopen : w.disk.data.open? w.active.fileId = some f := hf
      have hbefore : (w.crash r).contentOf w.active.fileId = w.contentOf w.active.fileId := by
        rw [Disk.contentOf, World.crash, FileTable.lookup_cut, hopen,
          contentOf_of_lookup (open?_eq_some.mp hopen).1]
        obtain ⟨data, hdata, hok⟩ := hfiles.active
        cases hdata.symm.trans (open?_eq_some.mp hopen).1
        exact FileState.content_cut hok.drained _
      rw [hbefore, Disk.contentOf, hl, Option.map_some, Option.getD_some, hcontent]
      exact List.prefix_append ..
    · rcases h.other id hid with heq | ⟨rfl, hfresh, -⟩
      · rw [Disk.contentOf, Disk.contentOf, heq]
      · have hnone : w.disk.data.lookup w.nextFileId = none := (hfiles.fresh _ le_rfl).1
        rw [Disk.contentOf, World.crash, FileTable.lookup_cut, FileTable.open?, hnone]
        exact List.nil_prefix

/-- What its log says of the active file, and that it says of the others what the log said
    before. -/
theorem World.Leaves.log (h : w.Leaves r front disk n) (hfiles : FilesOk True own w) :
    disk.log w.active.fileId = some ((readAllEntries (w.contentOf w.active.fileId ++ front)).map
        (entryOp w.active.fileId)) ∧
      ∀ key id op, id ≠ w.active.fileId →
        (disk.log.LastIn key id op ↔ (w.crash r).log.LastIn key id op) := by
  obtain ⟨file, hl, hlinked, -, hcontent⟩ := h.active
  constructor
  · have hopen := open?_eq_some.mpr ⟨hl, hlinked⟩
    have hnoHint : disk.hint.open? w.active.fileId = none := by
      have hnone : w.disk.hint.open? w.active.fileId = none := hfiles.noHint_active
      rw [h.hint, World.crash, FileTable.open?_cut, hnone]
      rfl
    unfold Disk.log fileOps
    rw [hopen, hnoHint]
    simp only [Option.map_some, Option.bind_none, Option.getD_some, hcontent]
  · intro key id op hid
    unfold Segments.LastIn
    rcases h.other id hid with heq | ⟨rfl, hfresh, -⟩
    · have hsame : disk.log id = (w.crash r).log id :=
        log_congr (by rw [open?_congr heq]) (by rw [h.hint])
      rw [hsame]
    · -- a new file has no records
      have hnone : w.disk.data.lookup w.nextFileId = none := (hfiles.fresh _ le_rfl).1
      have hhint : w.disk.hint.lookup w.nextFileId = none := (hfiles.fresh _ le_rfl).2 trivial
      have hempty : disk.log w.nextFileId = some [] := by
        have hopen : disk.data.open? w.nextFileId = some .fresh := open?_eq_some.mpr ⟨hfresh, rfl⟩
        have hnoHint : disk.hint.open? w.nextFileId = none := by
          rw [h.hint, World.crash, FileTable.open?_cut, FileTable.open?, hhint]
          rfl
        unfold Disk.log fileOps
        rw [hopen, hnoHint]
        exact congrArg (fun ps => some (ps.map (entryOp w.nextFileId))) readAllEntries_nil
      have hgone : (w.crash r).log w.nextFileId = none := by
        rw [Disk.log, World.crash, FileTable.open?_cut, FileTable.open?, hnone]
        rfl
      rw [hempty, hgone]
      constructor
      · rintro ⟨ops, hops, hlast⟩
        cases hops
        cases hlast
      · rintro ⟨ops, hops, -⟩
        cases hops

/-- What its log says of the active file where nothing was under way. -/
theorem log_crash_active (hfiles : FilesOk True own w) (r : Restart) :
    (w.crash r).log w.active.fileId = some (w.scanOps w.active.fileId) := by
  obtain ⟨front, hfront, hleaves⟩ := (w.midway_refl hfiles []).leaves r
  obtain rfl := List.prefix_nil.mp hfront
  have hlog := (hleaves.log hfiles).1
  rwa [List.append_nil] at hlog

/-- Killed while a record is being appended or the active file replaced, a process leaves
    the map as it was where the record is not there whole. -/
theorem World.Leaves.stores_torn (h : w.Leaves r front disk n) (hfiles : FilesOk True own w)
    (hstores : (w.crash r).Stores False m w.allotted) (htorn : Torn front) :
    disk.Stores False m n := by
  obtain ⟨data, hl, hok⟩ := hfiles.active
  obtain ⟨rs, hfits, hrecords⟩ := hok.records trivial
  have hcontent : w.contentOf w.active.fileId = encodeAll rs :=
    (contentOf_of_lookup hl).trans hrecords
  have hE := h.extends hfiles hstores ⟨rs, front, hfits, htorn, by rw [hcontent]⟩
  obtain ⟨hself, hother⟩ := h.log hfiles
  refine hstores.extended hE fun key id op => ?_
  by_cases hid : id = w.active.fileId
  · have hscan : readAllEntries (w.contentOf w.active.fileId ++ front)
        = readAllEntries (w.contentOf w.active.fileId) := by
      have hwhole : readAllEntries (encodeAll rs) = layout 0 rs := by
        simpa using readAllEntries_encodeAll hfits torn_nil
      rw [hcontent, readAllEntries_encodeAll hfits htorn, hwhole]
    unfold Segments.LastIn
    rw [hid, hself, hscan, log_crash_active hfiles r]
    rfl
  · exact hother key id op hid

/-- Where the record is there whole, the map has it written. -/
theorem World.Leaves.stores_written (h : w.Leaves r rec.encode disk n)
    (hready : Ready False m (w.publish kd)) (hrec : rec.Fits) :
    disk.Stores False (m.write rec) n := by
  have hfiles := hready.files.of_publish
  have hstores : (w.crash r).Stores False m w.allotted := hready.stores r
  obtain ⟨data, hl, hok⟩ := hfiles.active
  obtain ⟨rs, hfits, hrecords⟩ := hok.records trivial
  have hcontent : w.contentOf w.active.fileId = encodeAll rs :=
    (contentOf_of_lookup hl).trans hrecords
  have hfits' : ∀ r' ∈ rs ++ [rec], r'.Fits := by
    intro r' hr'
    rcases List.mem_append.mp hr' with hr' | hr'
    · exact hfits r' hr'
    · exact List.mem_singleton.mp hr' ▸ hrec
  have henc : encodeAll rs ++ rec.encode = encodeAll (rs ++ [rec]) := by simp
  have hE := h.extends hfiles hstores (by
    rw [hcontent, henc]
    exact .of_records hfits')
  obtain ⟨hself, hother⟩ := h.log hfiles
  -- the log of the active file has one more operation
  have hscan : readAllEntries (w.contentOf w.active.fileId ++ rec.encode)
      = readAllEntries (w.contentOf w.active.fileId) ++ [((encodeAll rs).length, rec.entry)] := by
    have hwhole : ∀ rs : List Record, (∀ r ∈ rs, r.Fits) →
        readAllEntries (encodeAll rs) = layout 0 rs := fun rs hfits => by
      simpa using readAllEntries_encodeAll hfits torn_nil
    rw [hcontent, henc, hwhole _ hfits', hwhole rs hfits, layout_append, Nat.zero_add]
    rfl
  have hlog := log_crash_active hfiles r
  have hself' : disk.log w.active.fileId = some (w.scanOps w.active.fileId
      ++ [(rec.key, rec.op w.active.fileId (encodeAll rs).length)]) := by
    rw [hself, hscan, List.map_append]
    rfl
  have hlast : ∀ key id op, disk.log.LastIn key id op ↔ Segments.LastIn (Function.update
      (w.crash r).log w.active.fileId (some (w.scanOps w.active.fileId
        ++ [(rec.key, rec.op w.active.fileId (encodeAll rs).length)]))) key id op := by
    intro key id op
    by_cases hid : id = w.active.fileId
    · unfold Segments.LastIn
      rw [hid, hself', Function.update_self]
    · rw [hother key id op hid, Segments.lastIn_update]
      simp [hid]
  have hnewest : disk.log.Newest rec.key w.active.fileId
      (rec.op w.active.fileId (encodeAll rs).length) := by
    rw [Segments.newest_congr (hlast rec.key)]
    apply Segments.newest_append
    intro id hlt op hlast
    have hbefore : (w.crash r).log = w.disk.log := hready.log_crash r
    rw [hbefore] at hlast
    have hle : id ≤ w.active.fileId :=
      hready.top id (linked_iff_log.mpr (linked_of_lastIn hlast))
    lia
  apply hstores.written hE _ hnewest
  · unfold Record.op
    cases ht : rec.tombstone with
    | true => exact rfl
    | false =>
      refine ⟨rec.value, rfl, ?_⟩
      have hmem : ((encodeAll rs).length, rec.entry)
          ∈ readAllEntries (w.contentOf w.active.fileId ++ rec.encode) := by
        rw [hscan]
        exact List.mem_append_right _ List.mem_cons_self
      obtain ⟨file, hfile, -, -, hbytes⟩ := h.active
      have hread : disk.contentOf w.active.fileId = w.contentOf w.active.fileId ++ rec.encode := by
        rw [Disk.contentOf, hfile, Option.map_some, Option.getD_some, hbytes]
      have hfound := mem_readAllEntries hmem
      show preadExact (disk.contentOf w.active.fileId) (valuePosOf _ rec.entry)
        rec.entry.header.valueSize = .ok rec.value
      rw [hread, preadExact, if_pos (Or.inr hfound.le), ← hfound.value]
      rfl
  · intro key id op hkey
    rw [hlast]
    exact Segments.lastIn_append_of_ne hlog (Ne.symm hkey)

end

/-! ## Sections under way -/

section

variable {w w' : World} {bytes : Bytes} {own : FileId → Prop}

omit [Crc32Fast] in
theorem World.interrupted_mem {P : World → Prop} {s : Section} {stage : Nat} (h : P w)
    (hvisits : ∀ x ∈ s.code.visits performBase w, P (x.1.begin x.2)) :
    P (w.interrupted stage (.locked s)) := by
  unfold World.interrupted
  dsimp only
  split
  · rename_i hx
    exact hvisits _ (List.mem_of_getElem? hx)
  · exact h

omit [Crc32Fast] in
theorem World.begin_same (w : World) (o : Op) :
    (w.begin o).allotted = w.allotted ∧ (w.begin o).refused = w.refused := by
  cases o <;> exact ⟨rfl, rfl⟩

omit [Crc32Fast] in
/-- Ids are not given back, and a refused write is not forgotten. -/
theorem performBase_grows (o : Op) (w : World) : w.allotted ≤ (performBase o w).2.allotted ∧
    (w.refused = true → (performBase o w).2.refused = true) := by
  cases o with
  | fetchAddFileId => exact ⟨Nat.le_succ _, fun h => h⟩
  | locked s => cases s <;> exact ⟨le_rfl, fun h => h⟩
  | writeData id bytes | writeHint id bytes =>
    simp only [performBase]
    split
    · exact ⟨le_rfl, fun _ => rfl⟩
    · exact ⟨le_rfl, fun h => h⟩
  | readFile id | removeData id | removeHint id | commit id =>
    simp only [performBase]
    split <;> exact ⟨le_rfl, fun h => h⟩
  | openReader id =>
    simp only [performBase]
    repeat' split
    all_goals exact ⟨le_rfl, fun h => h⟩
  | _ => exact ⟨le_rfl, fun h => h⟩

omit [Crc32Fast] in
theorem World.interrupted_grows (w : World) (stage : Nat) (o : Op) :
    w.allotted ≤ (w.interrupted stage o).allotted ∧
      (w.refused = true → (w.interrupted stage o).refused = true) := by
  cases o with
  | locked s =>
    let grown : World → Prop := fun w' =>
      w.allotted ≤ w'.allotted ∧ (w.refused = true → w'.refused = true)
    apply World.interrupted_mem (P := grown) ⟨le_rfl, fun h => h⟩
    intro x hx
    have hstep : ∀ o w', grown w' → grown (performBase o w').2 := fun o w' h =>
      ⟨h.1.trans (performBase_grows o w').1, fun hw => (performBase_grows o w').2 (h.2 hw)⟩
    have h : grown x.1 := Prog.visits_keeps hstep ⟨le_rfl, fun h => h⟩ x hx
    obtain ⟨hallotted, hrefused⟩ := x.1.begin_same x.2
    show w.allotted ≤ (x.1.begin x.2).allotted ∧ (_ → (x.1.begin x.2).refused = true)
    rw [hallotted, hrefused]
    exact h
  | _ =>
    obtain ⟨hallotted, hrefused⟩ := w.begin_same _
    show w.allotted ≤ (w.begin _).allotted ∧ (_ → (w.begin _).refused = true)
    rw [hallotted, hrefused]
    exact ⟨le_rfl, fun h => h⟩

omit [Crc32Fast] in
/-- Changes to anything but the files and the counter. -/
theorem World.Midway.congr (h : w.Midway bytes w') {w'' : World} (hdisk : w''.disk = w'.disk)
    (hallotted : w'.allotted ≤ w''.allotted) : w.Midway bytes w'' where
  hint := hdisk ▸ h.hint
  allotted := h.allotted.trans hallotted
  active := hdisk ▸ h.active
  other := fun id hid => by
    rw [hdisk]
    exact (h.other id hid).imp_right fun ⟨hnew, hfresh, hlt⟩ => ⟨hnew, hfresh, hlt.trans_le hallotted⟩

omit [Crc32Fast] in
/-- A change to the active file that adds no bytes. -/
theorem World.Midway.modify (h : w.Midway bytes w') {f : FileState → FileState}
    (hf : ∀ file, (f file).linked = file.linked ∧ (f file).logical = file.logical ∧
      file.content <+: (f file).content) : w.Midway bytes (w'.modifyData w.active.fileId f) where
  hint := h.hint
  allotted := h.allotted
  active := by
    obtain ⟨file, file', hl, hl', hlinked, hcontent, hlogical⟩ := h.active
    obtain ⟨hsame, hbytes, hgrows⟩ := hf file'
    refine ⟨file, f file', hl, ?_, hsame.trans hlinked, hcontent.trans hgrows, hbytes ▸ hlogical⟩
    exact lookup_modifyData hl'
  other := fun id hid => by
    have hsame : (w'.modifyData w.active.fileId f).disk.data.lookup id = w'.disk.data.lookup id :=
      FileTable.lookup_modify_of_ne w'.disk.data f hid
    rw [hsame]
    exact h.other id hid

omit [Crc32Fast] in
theorem World.Midway.flush (h : w.Midway bytes w') :
    w.Midway bytes (w'.modifyData w.active.fileId .flushBuf) :=
  h.modify fun file => ⟨rfl, by simp, file.content_prefix_logical⟩

omit [Crc32Fast] in
theorem World.Midway.sync (h : w.Midway bytes w') :
    w.Midway bytes (w'.modifyData w.active.fileId .syncData) :=
  h.modify fun _ => ⟨rfl, rfl, List.prefix_rfl⟩

omit [Crc32Fast] in
/-- The new file of a rotation. -/
theorem World.Midway.created (h : w.Midway bytes w') (hnone : w'.disk.data.lookup w.nextFileId = none)
    (hne : w.nextFileId ≠ w.active.fileId) (hlt : w.allotted < w'.allotted) :
    w.Midway bytes (w'.createData w.nextFileId).2 where
  hint := h.hint
  allotted := h.allotted
  active := by
    obtain ⟨file, file', hl, hl', hrest⟩ := h.active
    refine ⟨file, file', hl, ?_, hrest⟩
    exact (FileTable.lookup_create_of_ne w'.disk.data hne.symm).trans hl'
  other := fun id hid => by
    by_cases hnew : id = w.nextFileId
    · subst hnew
      exact Or.inr ⟨rfl, FileTable.lookup_create_of_none w'.disk.data hnone, hlt⟩
    · have hsame : (w'.createData w.nextFileId).2.disk.data.lookup id = w'.disk.data.lookup id :=
        FileTable.lookup_create_of_ne w'.disk.data hnew
      rw [hsame]
      exact h.other id hid

/-- A rotation under way, whatever comes after it without touching files. -/
theorem World.Midway.rotate (h : w.Midway bytes w') (hfiles : FilesOk True own w)
    (hnone : w'.disk.data.lookup w.nextFileId = none) (hnext : w'.nextFileId = w.nextFileId)
    {α : Type} {a : ActiveFile} (ha : a.fileId = w.active.fileId)
    {k : Except IoError Unit × ActiveFile → Prog Op Op.Res α}
    (hk : ∀ r a w', w.Midway bytes w' → ∀ x ∈ (k (r, a)).visits performBase w',
      w.Midway bytes (x.1.begin x.2)) :
    ∀ x ∈ (rotateActive a >>= k).visits performBase w', w.Midway bytes (x.1.begin x.2) := by
  rw [rotateActive_bind, ha]
  intro x hx
  have hflushed := h.flush
  have hsynced := hflushed.sync
  rcases Prog.mem_visits_act.mp hx with rfl | hx
  · exact h
  rcases Prog.mem_visits_act.mp hx with rfl | hx
  · exact hflushed
  rcases Prog.mem_visits_act.mp hx with rfl | hx
  · exact hsynced
  rcases Prog.mem_visits_act.mp hx with rfl | hx
  · exact hsynced.congr rfl le_rfl
  rcases Prog.mem_visits_act.mp hx with rfl | hx
  · exact hsynced.congr rfl (Nat.le_succ _)
  -- from here on the new file is there
  refine hk _ _ _ ?_ x hx
  have hclaimed : w.Midway bytes ({ (w'.modifyData w.active.fileId .flushBuf).modifyData
      w.active.fileId .syncData with commit := w'.commit.markAllDurable } : World).fetchAddFileId.2 :=
    hsynced.congr rfl (Nat.le_succ _)
  have hne : w.nextFileId ≠ w.active.fileId := ne_of_gt hfiles.active_lt
  have hnone' : ((w'.modifyData w.active.fileId .flushBuf).modifyData w.active.fileId
      .syncData).disk.data.lookup w.nextFileId = none := by
    rw [← hnone]
    exact (FileTable.lookup_modify_of_ne _ _ hne).trans (FileTable.lookup_modify_of_ne _ _ hne)
  have hcreated := hclaimed.created hnone' hne (Nat.lt_succ_of_le h.allotted)
  rw [← hnext] at hcreated
  exact hcreated

/-- `restore_active_file` under way. -/
theorem World.midway_restoreActive (hfiles : FilesOk True own w) (highest : FileId) (stage : Nat) :
    w.Midway [] (w.interrupted stage (.locked (.restoreActive highest))) := by
  apply World.interrupted_mem (w.midway_refl hfiles [])
  intro x hx
  have hrefl := World.midway_refl hfiles []
  rcases Prog.mem_visits_act.mp hx with rfl | hx
  · exact hrefl
  have hend : ∀ (r : Except IoError Unit) (a : ActiveFile) (w' : World), w.Midway [] w' →
      ∀ x ∈ (Prog.act (.setActive a) fun _ => .ret r).visits performBase w',
        w.Midway [] (x.1.begin x.2) := by
    intro r a w' h x hx
    rcases Prog.mem_visits_act.mp hx with rfl | hx
    · exact h
    · cases hx
  have hx' : x ∈ ((if w.active.fileId ≤ highest then rotateActive else pure () :
      EngineM ActiveFile IoError Unit) w.active >>= fun x => .act (.setActive x.2) fun _ =>
        .ret x.1).visits performBase w := hx
  split at hx'
  · exact hrefl.rotate hfiles (hfiles.fresh _ le_rfl).1 rfl rfl hend x hx'
  · exact hend _ _ w hrefl x hx'

/-- `Engine::append`'s section under way. -/
theorem World.midway_append (hfiles : FilesOk True own w) (n : Nat) (encoded : EncodedEntry)
    (stage : Nat) :
    w.Midway encoded.bytes (w.interrupted stage (.locked (.append n encoded))) := by
  have hrefl := w.midway_refl hfiles encoded.bytes
  obtain ⟨data, hl, hok⟩ := hfiles.active
  have hlogical : data.logical = data.content := (FileState.content_eq_logical hok.drained).symm
  -- the write under way, and after it
  have hbytes : ∀ f : FileState → FileState, (f data).linked = data.linked →
      data.content <+: (f data).content → (f data).logical = data.logical ++ encoded.bytes →
      w.Midway encoded.bytes (w.modifyData w.active.fileId f) := by
    intro f hlinked hcontent hwrite
    refine ⟨rfl, le_rfl, ⟨data, f data, hl, lookup_modifyData hl, hlinked.trans hok.linked, hcontent,
      by rw [hwrite, hlogical]⟩, fun id hid => Or.inl ?_⟩
    exact FileTable.lookup_modify_of_ne w.disk.data f hid
  have hend : ∀ (r : Except IoError (FileId × Nat × Nat)) (a : ActiveFile) (w' : World),
      w.Midway encoded.bytes w' → ∀ x ∈ (Prog.act (.setActive a) fun _ => .ret r).visits performBase w',
        w.Midway encoded.bytes (x.1.begin x.2) := by
    intro r a w' h x hx
    rcases Prog.mem_visits_act.mp hx with rfl | hx
    · exact h
    · cases hx
  apply World.interrupted_mem hrefl
  intro x hx
  replace hx : x ∈ (withActive (appendSection n encoded)).visits performBase w := hx
  rw [withActive_appendSection] at hx
  have hget : performBase .getActive w = (w.active, w) := rfl
  rcases Prog.mem_visits_act.mp hx with rfl | hx
  · exact hrefl
  rw [hget] at hx
  rcases Prog.mem_visits_act.mp hx with rfl | hx
  · refine hbytes (fun f => { f with buffer := f.buffer ++ encoded.bytes }) rfl List.prefix_rfl ?_
    show data.content ++ (data.buffer ++ encoded.bytes) = data.logical ++ encoded.bytes
    rw [FileState.logical, List.append_assoc]
  cases hlong : World.tooLong w.disk.data w.active.fileId encoded.bytes with
  | true =>
    have hrefused : performBase (.writeData w.active.fileId encoded.bytes) w
        = (.error .fileTooLarge, { w with refused := true }) := by
      simp [performBase, hlong]
    rw [hrefused] at hx
    have hsame : w.Midway encoded.bytes { w with refused := true } := hrefl.congr rfl le_rfl
    exact hend _ _ _ hsame x hx
  | false =>
    have htaken : performBase (.writeData w.active.fileId encoded.bytes) w
        = (.ok (), w.modifyData w.active.fileId (·.writeAll encoded.bytes)) := by
      simp [performBase, hlong]
    rw [htaken] at hx
    have hwritten := hbytes (·.writeAll encoded.bytes) (data.linked_writeAll _)
      (data.content_prefix_writeAll _) (data.logical_writeAll _)
    have hflushed := hwritten.flush
    rcases Prog.mem_visits_act.mp hx with rfl | hx
    · exact hwritten
    rcases Prog.mem_visits_act.mp hx with rfl | hx
    · exact hflushed
    have hpending : w.Midway encoded.bytes (performBase .recordPending
        ((w.modifyData w.active.fileId (·.writeAll encoded.bytes)).modifyData w.active.fileId
          .flushBuf)).2 := hflushed.congr rfl le_rfl
    dsimp only at hx
    by_cases hfull : w.active.offset + encoded.bytes.length ≥ n
    · rw [if_pos hfull] at hx
      refine hpending.rotate hfiles ?_ rfl ?_ (fun r a w' h => hend _ a w' h) x hx
      · have hne : w.nextFileId ≠ w.active.fileId := ne_of_gt hfiles.active_lt
        have hnone := (hfiles.fresh _ le_rfl).1
        rw [← hnone]
        exact (FileTable.lookup_modify_of_ne _ _ hne).trans (FileTable.lookup_modify_of_ne _ _ hne)
      · rfl
    · rw [if_neg hfull] at hx
      exact hend _ _ _ hpending x hx

end

end Yabiir
