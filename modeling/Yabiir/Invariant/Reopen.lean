/-
  Yabiir.Invariant.Reopen

  A directory stores a map if its files are in order and its log says what the map
  says (`Disk.Stores`).  A session between two calls leaves such a directory
  (`Ready.stores`), and an engine opened on one is ready for calls
  (`Disk.Stores.opened`).
-/

import Yabiir.Invariant.Ready

namespace Yabiir

open Format

/-! ## Files after a crash -/

section

variable {t : FileTable} {keep : FileId → Nat} {id : FileId}

/-- The files the directory names, each cut. -/
theorem FileTable.lookup_cut :
    (t.cut keep).lookup id = (t.open? id).map fun f => f.cut (keep id) := by
  ext f
  rw [← Option.mem_def, AList.mem_lookup_iff, ← Option.mem_def, Option.mem_map]
  unfold FileTable.cut
  constructor
  · intro h
    obtain ⟨⟨id', f'⟩, hp, heq⟩ := List.mem_map.mp h
    obtain ⟨hmem, hlinked⟩ := List.mem_filter.mp hp
    cases heq
    exact ⟨f', open?_eq_some.mpr ⟨AList.mem_lookup_iff.mpr hmem, hlinked⟩, rfl⟩
  · rintro ⟨f', hopen, rfl⟩
    obtain ⟨hl, hlinked⟩ := open?_eq_some.mp hopen
    exact List.mem_map.mpr ⟨⟨id, f'⟩, List.mem_filter.mpr ⟨AList.mem_lookup_iff.mp hl, hlinked⟩, rfl⟩

theorem FileTable.open?_cut :
    (t.cut keep).open? id = (t.open? id).map fun f => f.cut (keep id) := by
  rw [FileTable.open?, FileTable.lookup_cut]
  cases h : t.open? id with
  | none => rfl
  | some f =>
    have hlinked := (open?_eq_some.mp h).2
    simp [Option.filter, FileState.cut, hlinked]

/-- What is cut once has nothing left to be cut. -/
theorem FileTable.cut_cut (t : FileTable) (keep keep' : FileId → Nat) :
    (t.cut keep).cut keep' = t.cut keep := by
  apply AList.ext
  show ((t.cut keep).entries.filter fun p => p.2.linked).map _ = (t.cut keep).entries
  have hlinked : (t.cut keep).entries.filter (fun p => p.2.linked) = (t.cut keep).entries := by
    apply List.filter_eq_self.mpr
    intro p hp
    obtain ⟨q, hq, rfl⟩ := List.mem_map.mp hp
    exact (List.mem_filter.mp hq).2
  rw [hlinked]
  show ((t.entries.filter _).map _).map _ = (t.entries.filter _).map _
  rw [List.map_map]
  apply List.map_congr_left
  intro p _
  simp [FileState.cut]

/-- With nothing in the buffer, the content stays. -/
theorem FileState.content_cut {f : FileState} (h : f.buffer = []) (keep : Nat) :
    (f.cut keep).content = f.content := by
  simp [FileState.cut, h]

end

/-! ## Opening -/

section

variable [Crc32Fast] {failing : Prop} {m : KeyMap} {disk : Disk} {opts : Options} {allotted : Nat}
  {refused : Bool} {w : World} {id : FileId} {key value : Bytes}

/-- The active file of an engine just opened is a new segment of the log. -/
theorem log_opened (hrw : opts.isReadWrite = true) (hnone : disk.data.lookup disk.nextId = none)
    (hhint : disk.hint.lookup disk.nextId = none) :
    (World.open disk opts allotted refused).disk.log
        = Function.update disk.log disk.nextId (some []) ∧
      (World.open disk opts allotted refused).contentOf disk.nextId = [] := by
  have hopen : World.open disk opts allotted refused = _ := open_eq hrw
  have hself := FileTable.lookup_create_of_none disk.data hnone
  have hl : (World.open disk opts allotted refused).disk.data.lookup disk.nextId = some .fresh := by
    rw [hopen]
    exact hself
  have hcontent := contentOf_of_lookup hl
  refine ⟨funext fun id => ?_, hcontent⟩
  by_cases hid : id = disk.nextId
  · rw [hid, Function.update_self]
    have hlinked : (World.open disk opts allotted refused).Linked disk.nextId :=
      ⟨.fresh, open?_eq_some.mpr ⟨hl, rfl⟩⟩
    have hhint' : (World.open disk opts allotted refused).disk.hint.open? disk.nextId = none := by
      rw [hopen, FileTable.open?, hhint]
      rfl
    rw [log_of_linked hlinked, fileOps_noHint hlinked hhint', World.scanOps, hcontent]
    exact congrArg (fun ps => some (ps.map (entryOp disk.nextId))) readAllEntries_nil
  · rw [Function.update_of_ne hid]
    apply log_congr
    · have hother : (World.open disk opts allotted refused).disk.data.lookup id
          = disk.data.lookup id := by
        rw [hopen]
        exact FileTable.lookup_create_of_ne _ hid
      rw [open?_congr hother]
    · rw [hopen]

/-- An engine just opened finds the bytes that were there. -/
theorem contentOf_opened (hrw : opts.isReadWrite = true) {f : FileState}
    (hl : disk.data.lookup id = some f) (hlinked : f.linked = true) :
    (World.open disk opts allotted refused).contentOf id = f.content := by
  have hcreate : ∃ f', (disk.data.create disk.nextId).lookup id = some f' ∧ f'.content = f.content := by
    by_cases hid : id = disk.nextId
    · subst hid
      refine ⟨{ f with buffer := [] }, ?_, rfl⟩
      simp [FileTable.create, hl, hlinked]
    · exact ⟨f, (FileTable.lookup_create_of_ne _ hid).trans hl, rfl⟩
  obtain ⟨f', hl', hcontent⟩ := hcreate
  rw [open_eq hrw]
  exact (contentOf_of_lookup hl').trans hcontent

/-- The content of file `id`. -/
def Disk.contentOf (disk : Disk) (id : FileId) : Bytes :=
  ((disk.data.lookup id).map FileState.content).getD []

/-- An operation of the log says that the key's value is `value?`. -/
def Disk.Says (disk : Disk) (value? : Option Bytes) : Option KeydirEntry → Prop
  | none => value? = none
  | some entry => ∃ value, value? = some value ∧
      preadExact (disk.contentOf entry.fileId) entry.valuePos entry.valueSize = .ok value

/-- A directory nobody has open, with fewer than `n` ids allotted: its files are in
    order, and its log says what the map `m` says.  Where removals of files may
    fail (`failing`), no hint file leaves out an entry of its data file. -/
structure Disk.Stores (failing : Prop) (m : KeyMap) (n : Nat) (disk : Disk) : Prop where
  uncut : ∀ keep, disk.data.cut keep = disk.data ∧ disk.hint.cut keep = disk.hint
  below : ∀ id f, disk.data.lookup id = some f → f.linked = true ∧ id < n
  sealed_ : ∀ id f, disk.data.lookup id = some f → SealedFile f (disk.hint.open? id)
  hint : ∀ id hint, disk.hint.lookup id = some hint →
    ∃ id' f, disk.data.lookup id' = some f ∧ id ≤ id'
  agrees : ∀ key id op, disk.log.Newest key id op → disk.Says (m key) op
  logged : ∀ key value, m key = some value → ∃ id op, disk.log.Newest key id op
  full : failing → ∀ id ops, disk.log id = some ops →
    ops = (readAllEntries (disk.contentOf id)).map (entryOp id)

/-- The newest record of a key of the map is its value. -/
theorem Disk.Stores.newest {n : Nat} (h : disk.Stores failing m n) (hm : m key = some value) :
    ∃ entry, disk.log.Newest key entry.fileId (some entry) ∧
      preadExact (disk.contentOf entry.fileId) entry.valuePos entry.valueSize = .ok value := by
  obtain ⟨id, op, hn⟩ := h.logged key value hm
  have hsays := h.agrees key id op hn
  rw [hm] at hsays
  cases op with
  | none => cases hsays
  | some entry =>
    obtain ⟨value', hvalue, hholds⟩ := hsays
    cases hvalue
    obtain ⟨ops, hops, hlast⟩ := hn.1
    obtain ⟨f, -, rfl⟩ := Option.map_eq_some_iff.mp hops
    obtain ⟨rfl, -⟩ := fileOps_some (mem_of_lastOn hlast)
    exact ⟨entry, hn, hholds⟩

/-- An engine opened on a directory that stores the map `m`. -/
theorem Disk.Stores.opened {n : Nat} (h : disk.Stores failing m n) (hrw : opts.isReadWrite = true)
    (hn : n ≤ allotted) (hids : allotted + 1 < 2 ^ 32) :
    Ready failing m (World.open disk opts allotted refused) := by
  have hlinked : ∀ id f, disk.data.lookup id = some f → f.linked = true :=
    fun id f hl => (h.below id f hl).1
  have hallotted : ∀ id f, disk.data.lookup id = some f → id < allotted :=
    fun id f hl => (h.below id f hl).2.trans_le hn
  have hcontent : ∀ id f, disk.data.lookup id = some f →
      (World.open disk opts allotted refused).contentOf id = disk.contentOf id := by
    intro id f hl
    rw [contentOf_opened hrw hl (hlinked id f hl), Disk.contentOf, hl]
    rfl
  have hfiles : FilesOk True (fun _ => False) (World.open disk opts allotted refused) :=
    filesOk_open hrw hlinked hallotted hids (fun _ => h.sealed_) fun _ => h.hint
  have hopen : World.open disk opts allotted refused = _ := open_eq hrw
  have hactive : (World.open disk opts allotted refused).active.fileId = disk.nextId := by rw [hopen]
  have hlt : ∀ id f, disk.data.lookup id = some f → id < disk.nextId := by
    intro id f hl
    refine lt_nextId (fun id f hl => ?_) hl (hlinked id f hl)
    have := hallotted id f hl
    lia
  have hnone : disk.data.lookup disk.nextId = none := by
    cases hl : disk.data.lookup disk.nextId with
    | none => rfl
    | some f => exact absurd (hlt _ f hl) (lt_irrefl _)
  have hnoHint : disk.hint.lookup disk.nextId = none := by
    cases hl : disk.hint.lookup disk.nextId with
    | none => rfl
    | some hint =>
      obtain ⟨id', f, hl', hle⟩ := h.hint _ hint hl
      exact absurd (hle.trans_lt (hlt id' f hl')) (lt_irrefl _)
  have hlog : (World.open disk opts allotted refused).disk.log
      = Function.update disk.log disk.nextId (some []) := (log_opened hrw hnone hnoHint).1
  have hlogNone : disk.log disk.nextId = none := by
    rw [Disk.log, FileTable.open?, hnone]
    rfl
  have hother : ∀ id, id ≠ disk.nextId →
      (World.open disk opts allotted refused).disk.log id = disk.log id :=
    fun id hid => by rw [hlog, Function.update_of_ne hid]
  have hsegs : ∀ key id op, (World.open disk opts allotted refused).disk.log.LastIn key id op ↔
      disk.log.LastIn key id op := by
    intro key id op
    rw [hlog]
    exact Segments.lastIn_update_nil hlogNone
  have hkeydir : ∀ key entry, (World.open disk opts allotted refused).keydir.get key = some entry ↔
      ∃ id, disk.log.Newest key id (some entry) := by
    intro key entry
    rw [hopen]
    exact get_recover
  refine ⟨hfiles, fun id hl => ?_, fun key id op hn => ?_, fun key hm => ?_, fun key value hm => ?_,
    fun hf id hl => ?_⟩
  · rw [hactive]
    by_cases hid : id = disk.nextId
    · exact hid.le
    · rw [linked_iff_log, hother id hid] at hl
      obtain ⟨ops, hops⟩ := hl
      obtain ⟨f, hopen', -⟩ := Option.map_eq_some_iff.mp hops
      exact (hlt id f (open?_eq_some.mp hopen').1).le
  · rw [Segments.newest_congr (hsegs key)] at hn
    have hsays := h.agrees key id op hn
    cases op with
    | none => exact hsays
    | some entry =>
      obtain ⟨value, hvalue, hholds⟩ := hsays
      obtain ⟨ops, hops, hlast⟩ := hn.1
      obtain ⟨f, hopen', rfl⟩ := Option.map_eq_some_iff.mp hops
      obtain ⟨rfl, -⟩ := fileOps_some (mem_of_lastOn hlast)
      refine ⟨value, hvalue, ?_⟩
      rw [World.Holds, hcontent _ f (open?_eq_some.mp hopen').1]
      exact hholds
  · cases hkd : (World.open disk opts allotted refused).keydir.get key with
    | none => rfl
    | some entry =>
      obtain ⟨id, hn⟩ := (hkeydir key entry).mp hkd
      obtain ⟨value, hvalue, -⟩ := h.agrees key id _ hn
      cases hm.symm.trans hvalue
  · obtain ⟨entry, hn, hholds⟩ := h.newest hm
    obtain ⟨ops, hops, hlast⟩ := (hsegs key _ _).mpr hn.1
    obtain ⟨-, hl, hscan⟩ := hfiles.scans_of_log (fun h => h) hops (mem_of_lastOn hlast)
    refine ⟨entry, (hkeydir key entry).mpr ⟨_, hn⟩, hscan, ?_, hl, _, ops, hops, hlast⟩
    obtain ⟨ops', hops', -⟩ := hn.1
    obtain ⟨f, hopen', -⟩ := Option.map_eq_some_iff.mp hops'
    rw [World.Holds, hcontent _ f (open?_eq_some.mp hopen').1]
    exact hholds
  · by_cases hid : id = disk.nextId
    · subst hid
      exact fileOps_noHint hl (hactive ▸ hfiles.noHint_active)
    · obtain ⟨ops, hops⟩ := linked_iff_log.mp hl
      have hops' := (hother id hid).symm.trans hops
      obtain ⟨f, hopen', -⟩ := Option.map_eq_some_iff.mp hops'
      rw [(linked_of_log hops).2, h.full hf id ops hops', World.scanOps,
        hcontent id f (open?_eq_some.mp hopen').1]

/-! ## What a session leaves -/

/-- Between two calls no buffer holds anything. -/
theorem FilesOk.drained {own : FileId → Prop} (h : FilesOk True own w) (hown : ¬ own id)
    {f : FileState} (hopen : w.disk.data.open? id = some f) :
    f.buffer = [] ∧ ∀ hint, w.disk.hint.open? id = some hint → hint.buffer = [] := by
  by_cases hid : id = w.active.fileId
  · obtain ⟨f', hl, hok⟩ := h.active
    rw [← hid] at hl
    cases hl.symm.trans (open?_eq_some.mp hopen).1
    refine ⟨hok.drained, fun hint hh => ?_⟩
    rw [hid, h.noHint_active] at hh
    cases hh
  · have hsealed := h.sealed_ trivial id f hopen hown hid
    exact ⟨hsealed.drained, fun hint hh => (hsealed.hint hint hh).1⟩

/-- A file that a session leaves between two calls is one nobody writes to. -/
theorem FilesOk.sealed_crash {own : FileId → Prop} (h : FilesOk True own w) (hown : ¬ own id)
    (r : Restart) {f : FileState} (hopen : w.disk.data.open? id = some f) :
    SealedFile (f.cut (r.keepData id)) ((w.crash r).hint.open? id) := by
  obtain ⟨hdata, hhint⟩ := h.drained hown hopen
  have hcontent := FileState.content_cut hdata (r.keepData id)
  have hopenHint : (w.crash r).hint.open? id
      = (w.disk.hint.open? id).map fun f => f.cut (r.keepHint id) := FileTable.open?_cut
  by_cases hid : id = w.active.fileId
  · obtain ⟨f', hl, hok⟩ := h.active
    rw [← hid] at hl
    cases hl.symm.trans (open?_eq_some.mp hopen).1
    obtain ⟨rs, hfits, hrecords⟩ := hok.records trivial
    refine ⟨rfl, hcontent ▸ hrecords ▸ .of_records hfits, fun hint hh => ?_⟩
    rw [hopenHint, hid, h.noHint_active] at hh
    cases hh
  · have hsealed := h.sealed_ trivial id f hopen hown hid
    refine ⟨rfl, hcontent ▸ hsealed.log, fun hint hh => ⟨?_, ?_⟩⟩
    · rw [hopenHint] at hh
      obtain ⟨hint', -, rfl⟩ := Option.map_eq_some_iff.mp hh
      rfl
    · rw [hopenHint] at hh
      obtain ⟨hint', hh', rfl⟩ := Option.map_eq_some_iff.mp hh
      rw [hcontent, FileState.content_cut (hhint hint' hh')]
      exact (hsealed.hint hint' hh').2

/-- What a session leaves between two calls has the same log. -/
theorem Ready.log_crash (h : Ready failing m w) (r : Restart) : (w.crash r).log = w.disk.log := by
  funext id
  by_cases hl : w.Linked id
  · obtain ⟨f, hopen⟩ := hl
    obtain ⟨hdata, hhint⟩ := h.files.drained (fun h => h) hopen
    apply log_congr
    · rw [World.crash, FileTable.open?_cut, hopen]
      exact congrArg some (FileState.content_cut hdata _)
    · rw [World.crash, FileTable.open?_cut]
      cases hh : w.disk.hint.open? id with
      | none => rfl
      | some hint => exact congrArg some (FileState.content_cut (hhint hint hh) _)
  · rw [log_of_not_linked hl, Disk.log, World.crash, FileTable.open?_cut]
    cases hopen : w.disk.data.open? id with
    | none => rfl
    | some f => exact absurd ⟨f, hopen⟩ hl

/-- A session leaves the map it shows. -/
theorem Ready.stores (h : Ready failing m w) (r : Restart) :
    (w.crash r).Stores failing m w.allotted := by
  have hlookup : ∀ id f, (w.crash r).data.lookup id = some f →
      ∃ f₀, w.disk.data.open? id = some f₀ ∧ f = f₀.cut (r.keepData id) := by
    intro id f hl
    obtain ⟨f₀, hopen, rfl⟩ := Option.map_eq_some_iff.mp (FileTable.lookup_cut.symm.trans hl)
    exact ⟨f₀, hopen, rfl⟩
  have hfound : ∀ id f, w.disk.data.open? id = some f →
      (w.crash r).data.lookup id = some (f.cut (r.keepData id)) := fun id f hopen => by
    rw [World.crash, FileTable.lookup_cut, hopen]
    rfl
  have hcontent : ∀ id, w.Linked id → (w.crash r).contentOf id = w.contentOf id := by
    rintro id ⟨f, hopen⟩
    rw [Disk.contentOf, hfound id f hopen, contentOf_of_lookup (open?_eq_some.mp hopen).1]
    exact FileState.content_cut (h.files.drained (fun h => h) hopen).1 _
  have hlog := h.log_crash r
  refine ⟨fun keep => ⟨FileTable.cut_cut _ _ _, FileTable.cut_cut _ _ _⟩, fun id f hl => ?_,
    fun id f hl => ?_, fun id hint hl => ?_, fun key id op hn => ?_, fun key value hm => ?_,
    fun hf id ops hops => ?_⟩
  · obtain ⟨f₀, hopen, rfl⟩ := hlookup id f hl
    obtain ⟨hl₀, hlinked⟩ := open?_eq_some.mp hopen
    exact ⟨hlinked, (h.files.lt_of_lookup hl₀).trans_le h.files.allotted⟩
  · obtain ⟨f₀, hopen, rfl⟩ := hlookup id f hl
    exact h.files.sealed_crash (fun h => h) r hopen
  · obtain ⟨hint₀, hopen, rfl⟩ := Option.map_eq_some_iff.mp (FileTable.lookup_cut.symm.trans hl)
    rcases h.files.hint_lt trivial id hint₀ hopen (fun h => h) with ⟨f, hf⟩ | hlt
    · exact ⟨id, _, (hfound id f hf), le_rfl⟩
    · obtain ⟨f, hf⟩ := h.files.linked_active
      exact ⟨_, _, hfound _ f hf, hlt.le⟩
  · rw [hlog] at hn
    have hsays := h.newest key id op hn
    cases op with
    | none => exact hsays
    | some entry =>
      obtain ⟨value, hvalue, hholds⟩ := hsays
      obtain ⟨ops, hops, hlast⟩ := hn.1
      obtain ⟨rfl, hl, -⟩ := h.files.scans_of_log (fun h => h) hops (mem_of_lastOn hlast)
      exact ⟨value, hvalue, (hcontent _ hl).symm ▸ hholds⟩
  · rw [hlog]
    obtain ⟨entry, -, hleads⟩ := h.present key value hm
    obtain ⟨op, hlast⟩ := hleads.logged
    refine Segments.exists_newest (n := w.active.fileId) (fun id op hl => ?_) hlast
    exact h.top id (linked_iff_log.mpr (linked_of_lastIn hl))
  · rw [hlog] at hops
    obtain ⟨hl, rfl⟩ := linked_of_log hops
    rw [h.full hf id hl, World.scanOps, hcontent id hl]

end

end Yabiir
