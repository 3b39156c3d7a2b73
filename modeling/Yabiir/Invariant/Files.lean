/-
  Yabiir.Invariant.Files

  What is true of the files at any time, whoever is at work (`FilesOk`), and
  what a thread may rely on while others take steps (`Evolves`): its own outputs
  stay as they are, what has been written stays written.
-/

import Yabiir.Sections
import Yabiir.HintFile
import Yabiir.Merge.Protocol

namespace Yabiir

open Format

variable [Crc32Fast]

/-! ## One file -/

/-- The bytes of the data file are records, with a torn one at the end at most. -/
def IsLog (bytes : Bytes) : Prop :=
  ∃ (rs : List Record) (tail : Bytes), (∀ r ∈ rs, r.Fits) ∧ Torn tail ∧
    bytes = encodeAll rs ++ tail

/-- A hint file that passes validation lists the first so many entries of its
    data file. -/
def HintSound (data hint : Bytes) : Prop :=
  ∀ records, validHintRecords hint data.length = some records →
    records <+: (readAllEntries data).map hintRecord

/-- A data file nobody writes to. -/
structure SealedFile (data : FileState) (hint? : Option FileState) : Prop where
  drained : data.buffer = []
  log : IsLog data.content
  hint : ∀ hint, hint? = some hint → hint.buffer = [] ∧ HintSound data.content hint.content

/-- The active data file: linked, with nothing buffered; made of whole records
    where the bytes are asked about. -/
structure ActiveOk (tidy : Prop) (a : ActiveFile) (data : FileState) : Prop where
  linked : data.linked = true
  drained : data.buffer = []
  records : tidy → ∃ rs : List Record, (∀ r ∈ rs, r.Fits) ∧ data.content = encodeAll rs
  offset : a.offset = data.content.length
  short : data.content.length ≤ maxFileLen

theorem IsLog.of_records {rs : List Record} (h : ∀ r ∈ rs, r.Fits) : IsLog (encodeAll rs) :=
  ⟨rs, [], h, torn_nil, by simp⟩

theorem isLog_nil : IsLog [] := ⟨[], [], by simp, torn_nil, rfl⟩

/-- The same file, perhaps unlinked meanwhile. -/
def SameFile (f f' : Option FileState) : Prop := f' = f ∨ f' = f.map .unlink

/-! ## All files -/

/-- The ids below the counter, files included; `own` are the ids of merges at
    work, whose files are theirs to describe.  In a `tidy` directory every hint
    file belongs to a data file, and describes it; nothing is asked of the bytes
    of files otherwise. -/
structure FilesOk (tidy : Prop) (own : FileId → Prop) (w : World) : Prop where
  readWrite : w.opts.isReadWrite = true
  allotted : w.nextFileId ≤ w.allotted
  fresh : ∀ id, w.nextFileId ≤ id →
    w.disk.data.lookup id = none ∧ (tidy → w.disk.hint.lookup id = none)
  sound : w.allotted < 2 ^ 32
  own_lt : ∀ id, own id → id < w.nextFileId
  own_ne : ∀ id, own id → id ≠ w.active.fileId
  active_lt : w.active.fileId < w.nextFileId
  active : ∃ data, w.disk.data.lookup w.active.fileId = some data ∧ ActiveOk tidy w.active data
  activeHint : tidy → w.disk.hint.lookup w.active.fileId = none
  sealed_ : tidy → ∀ id data, w.disk.data.open? id = some data → ¬ own id → id ≠ w.active.fileId →
    SealedFile data (w.disk.hint.open? id)
  hint_lt : tidy → ∀ id hint, w.disk.hint.open? id = some hint → ¬ own id →
    (∃ data, w.disk.data.open? id = some data) ∨ id < w.active.fileId

/-- What a step of others leaves alone, the files of `X` and the active one
    apart. -/
structure Evolves (X : FileId → Prop) (w w' : World) : Prop where
  next : w.nextFileId ≤ w'.nextFileId
  active : w.active.fileId ≤ w'.active.fileId
  data : ∀ id < w.nextFileId, ¬ X id → id ≠ w.active.fileId →
    SameFile (w.disk.data.lookup id) (w'.disk.data.lookup id)
  hint : ∀ id < w.nextFileId, ¬ X id → id ≠ w.active.fileId →
    SameFile (w.disk.hint.lookup id) (w'.disk.hint.lookup id)
  grows : ∀ id < w.nextFileId, w.contentOf id <+: w'.contentOf id
  stays : ∀ id data, w.disk.data.lookup id = some data →
    ∃ data', w'.disk.data.lookup id = some data' ∧
      (data'.linked = data.linked ∨ data'.linked = false ∧ id < w'.active.fileId)

/-- Only files of `X` differ. -/
structure AgreesOff (X : FileId → Prop) (w w' : World) : Prop where
  opts : w'.opts = w.opts
  active : w'.active = w.active
  next : w'.nextFileId = w.nextFileId
  allotted : w'.allotted = w.allotted
  data : ∀ id, ¬ X id → w'.disk.data.lookup id = w.disk.data.lookup id
  hint : ∀ id, ¬ X id → w'.disk.hint.lookup id = w.disk.hint.lookup id
  grows : ∀ id, w.contentOf id <+: w'.contentOf id
  stays : ∀ id data, w.disk.data.lookup id = some data →
    ∃ data', w'.disk.data.lookup id = some data' ∧ data'.linked = data.linked

section

variable {tidy : Prop} {own X Y : FileId → Prop} {w w' w'' : World}

omit [Crc32Fast] in
theorem open?_eq_some {t : FileTable} {id : FileId} {f : FileState} :
    t.open? id = some f ↔ t.lookup id = some f ∧ f.linked = true := by
  simp [FileTable.open?, Option.filter_eq_some_iff]

omit [Crc32Fast] in
theorem open?_congr {t t' : FileTable} {id : FileId} (h : t'.lookup id = t.lookup id) :
    t'.open? id = t.open? id := by
  rw [FileTable.open?, FileTable.open?, h]

omit [Crc32Fast] in
theorem SameFile.refl (f : Option FileState) : SameFile f f := Or.inl rfl

omit [Crc32Fast] in
theorem Evolves.mono (h : Evolves X w w') (hXY : ∀ id, X id → Y id) : Evolves Y w w' :=
  { h with
    data := fun id hid hY hne => h.data id hid (fun hx => hY (hXY id hx)) hne
    hint := fun id hid hY hne => h.hint id hid (fun hx => hY (hXY id hx)) hne }

omit [Crc32Fast] in
theorem AgreesOff.evolves (h : AgreesOff X w w') : Evolves X w w' where
  next := h.next.ge
  active := by rw [h.active]
  data := fun id _ hX _ => Or.inl (h.data id hX)
  hint := fun id _ hX _ => Or.inl (h.hint id hX)
  grows := fun id _ => h.grows id
  stays := fun id data hdata => (h.stays id data hdata).imp fun _ h => ⟨h.1, Or.inl h.2⟩

theorem FilesOk.congr {own' : FileId → Prop} (h : FilesOk tidy own w) (heq : ∀ id, own id ↔ own' id) :
    FilesOk tidy own' w := by
  have : own = own' := funext fun id => propext (heq id)
  exact this ▸ h

/-- A file of the tables has an id below the counter. -/
theorem FilesOk.lt_of_lookup (h : FilesOk tidy own w) {id : FileId} {data : FileState}
    (hdata : w.disk.data.lookup id = some data) : id < w.nextFileId := by
  by_contra hge
  cases (h.fresh id (not_lt.mp hge)).1.symm.trans hdata

theorem FilesOk.agreesOff (h : FilesOk tidy own w) (hA : AgreesOff X w w')
    (hX : ∀ id, X id → own id) : FilesOk tidy own w' := by
  have hactive : ¬ X w.active.fileId := fun hx => h.own_ne _ (hX _ hx) rfl
  have hoff : ∀ id, ¬ own id → ¬ X id := fun id hid hx => hid (hX id hx)
  refine ⟨by rw [hA.opts, h.readWrite], by rw [hA.next, hA.allotted]; exact h.allotted, ?_,
    by rw [hA.allotted]; exact h.sound, ?_, ?_, ?_, ?_, ?_, ?_, ?_⟩
  · intro id hid
    rw [hA.next] at hid
    have hX' : ¬ X id := fun hx => by
      have := h.own_lt id (hX id hx)
      lia
    rw [hA.data id hX', hA.hint id hX']
    exact h.fresh id hid
  · rw [hA.next]
    exact h.own_lt
  · rw [hA.active]
    exact h.own_ne
  · rw [hA.active, hA.next]
    exact h.active_lt
  · rw [hA.active, hA.data _ hactive]
    exact h.active
  · rw [hA.active, hA.hint _ hactive]
    exact h.activeHint
  · intro ht id data hdata hid hne
    rw [hA.active] at hne
    rw [open?_congr (hA.data id (hoff id hid))] at hdata
    rw [open?_congr (hA.hint id (hoff id hid))]
    exact h.sealed_ ht id data hdata hid hne
  · intro ht id hint hhint hid
    rw [open?_congr (hA.hint id (hoff id hid))] at hhint
    rw [open?_congr (hA.data id (hoff id hid)), hA.active]
    exact h.hint_lt ht id hint hhint hid

omit [Crc32Fast] in
/-- Nothing but the rest of the state differs. -/
theorem AgreesOff.of_eq (hopts : w'.opts = w.opts) (hdisk : w'.disk = w.disk)
    (hactive : w'.active = w.active) (hnext : w'.nextFileId = w.nextFileId)
    (hallotted : w'.allotted = w.allotted) : AgreesOff X w w' where
  opts := hopts
  active := hactive
  next := hnext
  allotted := hallotted
  data := fun id _ => by rw [hdisk]
  hint := fun id _ => by rw [hdisk]
  grows := fun id => by
    rw [World.contentOf, World.contentOf, hdisk]
  stays := fun id data hdata => ⟨data, by rw [hdisk]; exact hdata, rfl⟩

omit [Crc32Fast] in
/-- A change to one data file that keeps what the kernel has. -/
theorem AgreesOff.modifyData {id : FileId} {f : FileState → FileState}
    (hf : ∀ data, w.disk.data.lookup id = some data →
      (f data).linked = data.linked ∧ data.content <+: (f data).content) :
    AgreesOff (· = id) w (w.modifyData id f) := by
  have hlookup : ∀ id', (w.modifyData id f).disk.data.lookup id'
      = if id' = id then (w.disk.data.lookup id).map f else w.disk.data.lookup id' :=
    fun id' => FileTable.lookup_modify w.disk.data id id' f
  refine ⟨rfl, rfl, rfl, rfl, fun id' hid' => (hlookup id').trans (if_neg hid'), fun _ _ => rfl,
    fun id' => ?_, fun id' data hdata => ?_⟩
  · rw [World.contentOf, World.contentOf, hlookup]
    split
    · rename_i heq
      subst heq
      cases h : w.disk.data.lookup id' with
      | none => exact List.prefix_rfl
      | some data => exact (hf data h).2
    · exact List.prefix_rfl
  · rw [hlookup]
    split
    · rename_i heq
      subst heq
      rw [hdata]
      exact ⟨f data, rfl, (hf data hdata).1⟩
    · exact ⟨data, hdata, rfl⟩

omit [Crc32Fast] in
/-- A change to one hint file. -/
theorem AgreesOff.setHint {id : FileId} {table : FileTable}
    (h : ∀ id', id' ≠ id → table.lookup id' = w.disk.hint.lookup id') :
    AgreesOff (· = id) w { w with disk := { w.disk with hint := table } } :=
  ⟨rfl, rfl, rfl, rfl, fun _ _ => rfl, h, fun _ => List.prefix_rfl,
    fun _ data hdata => ⟨data, hdata, rfl⟩⟩

omit [Crc32Fast] in
theorem wrapU32_of_lt {n : Nat} (h : n < 2 ^ 32) : wrapU32 n = n := Nat.mod_eq_of_lt h

/-- A claimed id is the thread's own, with no file yet. -/
theorem FilesOk.claim (h : FilesOk tidy own w) (hsound : w.fetchAddFileId.2.allotted < 2 ^ 32) :
    FilesOk tidy (fun id => own id ∨ id = w.nextFileId) w.fetchAddFileId.2 ∧
      Evolves X w w.fetchAddFileId.2 := by
  have hallotted := h.allotted
  have hactive := h.active_lt
  have hallotted' : w.fetchAddFileId.2.allotted = w.allotted + 1 := rfl
  have hnext : w.fetchAddFileId.2.nextFileId = w.nextFileId + 1 := wrapU32_of_lt (by omega)
  refine ⟨⟨h.readWrite, ?_, ?_, hsound, ?_, ?_, ?_, h.active, h.activeHint, ?_, ?_⟩, ?_⟩
  · omega
  · intro id hid
    rw [hnext] at hid
    exact h.fresh id (by omega)
  · rintro id (hid | rfl)
    · rw [hnext]
      exact Nat.lt_succ_of_lt (h.own_lt id hid)
    · exact hnext ▸ Nat.lt_succ_self _
  · rintro id (hid | rfl)
    · exact h.own_ne id hid
    · exact fun heq => by
        rw [heq] at hactive
        exact absurd hactive (lt_irrefl _)
  · rw [hnext]
    exact Nat.lt_succ_of_lt hactive
  · intro ht id data hdata hid hne
    exact h.sealed_ ht id data hdata (fun ho => hid (Or.inl ho)) hne
  · intro ht id hint hhint hid
    exact h.hint_lt ht id hint hhint fun ho => hid (Or.inl ho)
  · exact ⟨by omega, le_rfl, fun _ _ _ _ => .refl _, fun _ _ _ _ => .refl _,
      fun _ _ => List.prefix_rfl, fun _ data hdata => ⟨data, hdata, Or.inl rfl⟩⟩

/-- Removing a data file older than the active one. -/
theorem FilesOk.removeData (h : FilesOk tidy own w) {f : FileId} (hf : f < w.active.fileId) :
    FilesOk tidy own (w.modifyData f .unlink) ∧ Evolves X w (w.modifyData f .unlink) := by
  have hlookup : ∀ id, (w.modifyData f .unlink).disk.data.lookup id
      = if id = f then (w.disk.data.lookup f).map .unlink else w.disk.data.lookup id :=
    fun id => FileTable.lookup_modify w.disk.data f id _
  have hopen : ∀ id, id ≠ f → (w.modifyData f .unlink).disk.data.open? id = w.disk.data.open? id :=
    fun id hid => open?_congr (by rw [hlookup, if_neg hid])
  have hunlinked : (w.modifyData f .unlink).disk.data.open? f = none := by
    rw [FileTable.open?, hlookup, if_pos rfl]
    cases w.disk.data.lookup f <;> simp
  have hactive : w.active.fileId ≠ f := (ne_of_lt hf).symm
  refine ⟨⟨h.readWrite, h.allotted, ?_, h.sound, h.own_lt, h.own_ne, h.active_lt, ?_, h.activeHint,
    ?_, ?_⟩, le_rfl, le_rfl, ?_, fun _ _ _ _ => .refl _, ?_, ?_⟩
  · intro id hid
    refine ⟨?_, (h.fresh id hid).2⟩
    rw [hlookup]
    split
    · rename_i heq
      rw [← heq, (h.fresh id hid).1]
      rfl
    · exact (h.fresh id hid).1
  · change ∃ data, (w.modifyData f .unlink).disk.data.lookup w.active.fileId = some data ∧ _
    rw [hlookup, if_neg hactive]
    exact h.active
  · intro ht id data hdata hid hne
    by_cases hidf : id = f
    · rw [hidf, hunlinked] at hdata
      cases hdata
    · rw [hopen id hidf] at hdata
      exact h.sealed_ ht id data hdata hid hne
  · intro ht id hint hhint hid
    by_cases hidf : id = f
    · exact Or.inr (hidf ▸ hf)
    · rw [hopen id hidf]
      exact h.hint_lt ht id hint hhint hid
  · intro id _ _ _
    rw [hlookup]
    split
    · rename_i heq
      exact Or.inr (by rw [heq])
    · exact .refl _
  · intro id _
    rw [World.contentOf, World.contentOf, hlookup]
    split
    · rename_i heq
      rw [heq]
      cases w.disk.data.lookup f <;> simp
    · exact List.prefix_rfl
  · intro id data hdata
    rw [hlookup]
    split
    · rename_i heq
      rw [← heq, hdata]
      exact ⟨_, rfl, Or.inr ⟨rfl, heq ▸ hf⟩⟩
    · exact ⟨data, hdata, Or.inl rfl⟩

/-- Removing a hint file older than the active file. -/
theorem FilesOk.removeHint (h : FilesOk tidy own w) {f : FileId} (hf : f < w.active.fileId) :
    FilesOk tidy own (w.modifyHint f .unlink) ∧ Evolves X w (w.modifyHint f .unlink) := by
  have hlookup : ∀ id, (w.modifyHint f .unlink).disk.hint.lookup id
      = if id = f then (w.disk.hint.lookup f).map .unlink else w.disk.hint.lookup id :=
    fun id => FileTable.lookup_modify w.disk.hint f id _
  have hactive : w.active.fileId ≠ f := (ne_of_lt hf).symm
  refine ⟨⟨h.readWrite, h.allotted, ?_, h.sound, h.own_lt, h.own_ne, h.active_lt, h.active, ?_, ?_,
    ?_⟩, le_rfl, le_rfl, fun _ _ _ _ => .refl _, ?_, fun _ _ => List.prefix_rfl,
    fun _ data hdata => ⟨data, hdata, Or.inl rfl⟩⟩
  · intro id hid
    refine ⟨(h.fresh id hid).1, fun ht => ?_⟩
    rw [hlookup]
    split
    · rename_i heq
      rw [← heq, (h.fresh id hid).2 ht]
      rfl
    · exact (h.fresh id hid).2 ht
  · change tidy → (w.modifyHint f .unlink).disk.hint.lookup w.active.fileId = none
    rw [hlookup, if_neg hactive]
    exact h.activeHint
  · intro ht id data hdata hid hne
    have hsealed := h.sealed_ ht id data hdata hid hne
    by_cases hidf : id = f
    · have hnone : (w.modifyHint f .unlink).disk.hint.open? id = none := by
        rw [FileTable.open?, hlookup, if_pos hidf]
        cases w.disk.hint.lookup f <;> simp
      rw [hnone]
      exact ⟨hsealed.drained, hsealed.log, fun _ hh => by cases hh⟩
    · have hopen := open?_congr ((hlookup id).trans (if_neg hidf))
      exact hopen.symm ▸ hsealed
  · intro ht id hint hhint hid
    by_cases hidf : id = f
    · exact Or.inr (hidf ▸ hf)
    · have hopen := open?_congr ((hlookup id).trans (if_neg hidf))
      exact h.hint_lt ht id hint (hopen ▸ hhint) hid
  · intro id _ _ _
    rw [hlookup]
    split
    · rename_i heq
      exact Or.inr (by rw [heq])
    · exact .refl _

/-! ### Appending and rotating -/

omit [Crc32Fast] in
theorem SameFile.trans {f f' f'' : Option FileState} (h : SameFile f f') (h' : SameFile f' f'') :
    SameFile f f'' := by
  rcases h with rfl | rfl <;> rcases h' with rfl | rfl
  · exact .refl _
  · exact Or.inr rfl
  · exact Or.inr rfl
  · refine Or.inr ?_
    rw [Option.map_map]
    rfl

omit [Crc32Fast] in
theorem Evolves.trans (h : Evolves X w w') (h' : Evolves X w' w'')
    (hactive : w'.active.fileId = w.active.fileId) : Evolves X w w'' where
  next := h.next.trans h'.next
  active := h.active.trans h'.active
  data := fun id hid hX hne => (h.data id hid hX hne).trans
    (h'.data id (hid.trans_le h.next) hX (hactive ▸ hne))
  hint := fun id hid hX hne => (h.hint id hid hX hne).trans
    (h'.hint id (hid.trans_le h.next) hX (hactive ▸ hne))
  grows := fun id hid => (h.grows id hid).trans (h'.grows id (hid.trans_le h.next))
  stays := fun id data hdata => by
    obtain ⟨data', hdata', hl⟩ := h.stays id data hdata
    obtain ⟨data'', hdata'', hl'⟩ := h'.stays id data' hdata'
    refine ⟨data'', hdata'', ?_⟩
    rcases hl with hl | ⟨hl, hlt⟩
    · rwa [hl] at hl'
    · exact Or.inr ⟨hl'.elim (fun h => h.trans hl) And.left, hlt.trans_le h'.active⟩

omit [Crc32Fast] in
theorem contentOf_of_lookup {id : FileId} {data : FileState}
    (h : w.disk.data.lookup id = some data) : w.contentOf id = data.content := by
  simp [World.contentOf, h]

/-- A world in which only the active file, perhaps longer now, and the counter
    differ. -/
theorem FilesOk.activeChanged (h : FilesOk tidy own w) {data data' : FileState}
    (hopts : w'.opts = w.opts) (hnext : w.nextFileId ≤ w'.nextFileId)
    (hallotted : w'.nextFileId ≤ w'.allotted) (hsound : w'.allotted < 2 ^ 32)
    (hid : w'.active.fileId = w.active.fileId) (hhint : w'.disk.hint = w.disk.hint)
    (hother : ∀ id, id ≠ w.active.fileId →
      w'.disk.data.lookup id = w.disk.data.lookup id)
    (hdata : w.disk.data.lookup w.active.fileId = some data)
    (hdata' : w'.disk.data.lookup w.active.fileId = some data')
    (hok : ActiveOk tidy w'.active data') (hgrows : data.content <+: data'.content) :
    FilesOk tidy own w' ∧ Evolves X w w' := by
  refine ⟨⟨by rw [hopts, h.readWrite], hallotted, ?_, hsound, ?_, by rw [hid]; exact h.own_ne, ?_,
    ?_, ?_, ?_, ?_⟩, ⟨hnext, by rw [hid], ?_, ?_, ?_, ?_⟩⟩
  · intro id hid'
    have := h.active_lt
    rw [hother id (by lia), hhint]
    exact h.fresh id (hnext.trans hid')
  · exact fun id ho => (h.own_lt id ho).trans_le hnext
  · rw [hid]
    exact h.active_lt.trans_le hnext
  · exact ⟨data', hid ▸ hdata', hok⟩
  · rw [hid, hhint]
    exact h.activeHint
  · intro ht id d hd ho hne
    rw [hid] at hne
    rw [open?_congr (hother id hne)] at hd
    rw [hhint]
    exact h.sealed_ ht id d hd ho hne
  · intro ht id hint hh ho
    rw [hhint] at hh
    rw [hid]
    rcases h.hint_lt ht id hint hh ho with ⟨d, hd⟩ | hlt
    · by_cases hne : id = w.active.fileId
      · exact Or.inl ⟨data', open?_eq_some.mpr ⟨hne ▸ hdata', hok.linked⟩⟩
      · exact Or.inl ⟨d, (open?_congr (hother id hne)).trans hd⟩
    · exact Or.inr hlt
  · intro id _ _ hne
    rw [hother id hne]
    exact .refl _
  · intro id _ _ _
    rw [hhint]
    exact .refl _
  · intro id _
    by_cases hne : id = w.active.fileId
    · rw [hne, contentOf_of_lookup hdata, contentOf_of_lookup hdata']
      exact hgrows
    · rw [World.contentOf, World.contentOf, hother id hne]
  · intro id d hd
    by_cases hne : id = w.active.fileId
    · obtain ⟨data'', hdata'', hok''⟩ := h.active
      rw [hne, hdata''] at hd
      cases hd
      exact ⟨_, hne ▸ hdata', Or.inl (hok.linked.trans hok''.linked.symm)⟩
    · exact ⟨d, (hother id hne).trans hd, Or.inl rfl⟩

/-- Bytes appended to the active file, a record where that is asked about. -/
theorem FilesOk.appended (h : FilesOk tidy own w) {bytes : Bytes}
    (hrecord : tidy → ∃ r : Record, r.Fits ∧ bytes = r.encode)
    (hshort : World.tooLong w.disk.data w.active.fileId bytes = false) :
    FilesOk tidy own (w.appended bytes) ∧ Evolves X w (w.appended bytes) := by
  obtain ⟨data, hdata, hok⟩ := h.active
  have hlogical : data.logical = data.content := (FileState.content_eq_logical hok.drained).symm
  have hcontent' : ((data.writeAll bytes).flushBuf).content = data.content ++ bytes := by
    rw [FileState.content_flushBuf, FileState.logical_writeAll, hlogical]
  refine h.activeChanged rfl le_rfl h.allotted h.sound rfl rfl
    (fun id hid => by rw [World.lookup_appended, if_neg hid]) hdata
    (by rw [World.lookup_appended, if_pos rfl, hdata]; rfl) ?_ ?_
  · refine ⟨by simp [hok.linked], rfl, fun ht => ?_, ?_, ?_⟩
    · obtain ⟨rs, hfits, hcontent⟩ := hok.records ht
      obtain ⟨r, hr, rfl⟩ := hrecord ht
      refine ⟨rs ++ [r], fun r' hr' => ?_, ?_⟩
      · rcases List.mem_append.mp hr' with hr' | hr'
        · exact hfits r' hr'
        · exact List.mem_singleton.mp hr' ▸ hr
      · rw [hcontent', hcontent]
        simp
    · rw [hcontent', List.length_append, ← hok.offset]
      rfl
    · rw [hcontent', List.length_append]
      simpa [World.tooLong, hdata, hlogical] using hshort
  · rw [hcontent']
    exact List.prefix_append ..

/-- Syncing the active file and claiming an id changes no file's bytes. -/
theorem FilesOk.rotating (h : FilesOk tidy own w) (hsound : w.allotted + 1 < 2 ^ 32) :
    (FilesOk tidy own w.rotating ∧ Evolves X w w.rotating) ∧
      w.rotating.nextFileId = w.nextFileId + 1 := by
  obtain ⟨data, hdata, hok⟩ := h.active
  have hallotted := h.allotted
  have hnext : w.rotating.nextFileId = w.nextFileId + 1 :=
    wrapU32_of_lt (show w.nextFileId + 1 < 2 ^ 32 by omega)
  have hcontent : (data.flushBuf.syncData).content = data.content := by
    simp [FileState.logical, hok.drained]
  refine ⟨h.activeChanged rfl (by omega) (by rw [hnext]; exact Nat.succ_le_succ hallotted) hsound
    rfl rfl (fun id hid => by rw [World.lookup_rotating, if_neg hid]) hdata
    (by rw [World.lookup_rotating, if_pos rfl, hdata]; rfl) ?_
    (by rw [hcontent]), hnext⟩
  exact ⟨by simp [hok.linked], rfl, by rw [hcontent]; exact hok.records,
    by rw [hcontent]; exact hok.offset, by rw [hcontent]; exact hok.short⟩

omit [Crc32Fast] in
theorem lookup_createData {n id : FileId} (hnone : w.disk.data.lookup n = none) :
    (w.createData n).2.disk.data.lookup id
      = if id = n then some .fresh else w.disk.data.lookup id := by
  by_cases h : id = n
  · rw [if_pos h, h]
    exact FileTable.lookup_create_of_none _ hnone
  · rw [if_neg h]
    exact FileTable.lookup_create_of_ne _ h

omit [Crc32Fast] in
theorem createData_fst {n : FileId} (hnone : w.disk.data.lookup n = none) :
    (w.createData n).1 = 0 := by
  have h := FileTable.lookup_create_of_none w.disk.data hnone
  simp [World.createData, h]

omit [Crc32Fast] in
/-- A file created under an id nobody could know. -/
theorem Evolves.created (h : Evolves X w w') {n : FileId} (hn : w.nextFileId ≤ n)
    (hnone : w'.disk.data.lookup n = none) {a : ActiveFile}
    (ha : w'.active.fileId ≤ a.fileId) :
    Evolves X w { (w'.createData n).2 with active := a } := by
  have hother : ∀ id, id ≠ n →
      (w'.createData n).2.disk.data.lookup id = w'.disk.data.lookup id := fun id hid => by
    rw [lookup_createData hnone, if_neg hid]
  refine ⟨h.next, h.active.trans ha, ?_, h.hint, ?_, ?_⟩
  · intro id hid hX hne
    exact (hother id (by lia)).symm ▸ h.data id hid hX hne
  · intro id hid
    have hsame : ({ (w'.createData n).2 with active := a } : World).contentOf id = w'.contentOf id :=
      congrArg (fun f => (Option.map FileState.content f).getD []) (hother id (by lia))
    rw [hsame]
    exact h.grows id hid
  · intro id data hdata
    obtain ⟨data', hdata', hl⟩ := h.stays id data hdata
    have hne : id ≠ n := fun heq => by
      rw [heq, hnone] at hdata'
      cases hdata'
    exact ⟨data', (hother id hne).trans hdata', hl.imp_right fun h => ⟨h.1, h.2.trans_le ha⟩⟩

omit [Crc32Fast] in
/-- A file created under an id that has none. -/
theorem AgreesOff.createData {n : FileId} (hnone : w.disk.data.lookup n = none) :
    AgreesOff (· = n) w (w.createData n).2 := by
  have hother : ∀ id, id ≠ n →
      (w.createData n).2.disk.data.lookup id = w.disk.data.lookup id := fun id hid => by
    rw [lookup_createData hnone, if_neg hid]
  refine ⟨rfl, rfl, rfl, rfl, hother, fun _ _ => rfl, fun id => ?_, fun id data hdata => ?_⟩
  · by_cases hid : id = n
    · rw [hid, World.contentOf, hnone]
      exact List.nil_prefix
    · rw [World.contentOf, World.contentOf, hother id hid]
  · have hid : id ≠ n := fun heq => by
      rw [heq, hnone] at hdata
      cases hdata
    exact ⟨data, (hother id hid).trans hdata, rfl⟩

theorem sealedFile_fresh : SealedFile .fresh none :=
  ⟨rfl, isLog_nil, by simp⟩

/-- A file created and left alone. -/
theorem FilesOk.created (h : FilesOk tidy own w) {n : FileId} (hlt : n < w.nextFileId)
    (hne : n ≠ w.active.fileId) (hdata : w.disk.data.lookup n = none)
    (hhint : tidy → w.disk.hint.lookup n = none) : FilesOk tidy own (w.createData n).2 := by
  have hlookup : ∀ id, (w.createData n).2.disk.data.lookup id
      = if id = n then some .fresh else w.disk.data.lookup id := fun id => lookup_createData hdata
  have hopenHint : tidy → w.disk.hint.open? n = none := fun ht => by
    simp [FileTable.open?, hhint ht]
  refine ⟨h.readWrite, h.allotted, ?_, h.sound, h.own_lt, h.own_ne, h.active_lt, ?_, h.activeHint,
    ?_, ?_⟩
  · intro id hid
    have hid' : w.nextFileId ≤ id := hid
    rw [hlookup, if_neg (by lia)]
    exact h.fresh id hid
  · change ∃ data, (w.createData n).2.disk.data.lookup w.active.fileId = some data ∧ _
    rw [hlookup, if_neg hne.symm]
    exact h.active
  · intro ht id data hd ho hid
    by_cases heq : id = n
    · obtain ⟨hd, -⟩ := open?_eq_some.mp hd
      rw [hlookup, if_pos heq] at hd
      cases hd
      rw [heq]
      exact hopenHint ht ▸ sealedFile_fresh
    · rw [open?_congr ((hlookup id).trans (if_neg heq))] at hd
      exact h.sealed_ ht id data hd ho hid
  · intro ht id hint hh ho
    have heq : id ≠ n := fun heq => by
      rw [heq] at hh
      cases (hopenHint ht).symm.trans hh
    rw [open?_congr ((hlookup id).trans (if_neg heq))]
    exact h.hint_lt ht id hint hh ho

/-- A file created to be the new active one. -/
theorem FilesOk.switched (h : FilesOk tidy own w) {n : FileId} (hlt : n < w.nextFileId)
    (hactive : w.active.fileId < n) (hown : ¬ own n) (hdata : w.disk.data.lookup n = none)
    (hhint : tidy → w.disk.hint.lookup n = none) :
    FilesOk tidy own { (w.createData n).2 with active := ⟨n, (w.createData n).1⟩ } := by
  have hlookup : ∀ id, (w.createData n).2.disk.data.lookup id
      = if id = n then some .fresh else w.disk.data.lookup id := fun id => lookup_createData hdata
  have hcreated := h.created hlt (ne_of_gt hactive) hdata hhint
  obtain ⟨active, hactiveData, hok⟩ := h.active
  refine ⟨h.readWrite, h.allotted, hcreated.fresh, h.sound, h.own_lt, ?_, hlt, ?_, hhint, ?_, ?_⟩
  · intro id ho heq
    have heq' : id = n := heq
    exact hown (heq' ▸ ho)
  · refine ⟨.fresh, (hlookup n).trans (if_pos rfl), rfl, rfl, fun _ => ⟨[], by simp, rfl⟩, ?_, by simp⟩
    exact createData_fst hdata
  · intro ht id data hd ho hid
    by_cases heq : id = w.active.fileId
    · -- the file that was active is one nobody writes to from now on
      obtain ⟨hd, -⟩ := open?_eq_some.mp hd
      have hne : id ≠ n := hid
      have hd' : w.disk.data.lookup id = some data := by
        rw [← hd]
        exact ((hlookup id).trans (if_neg hne)).symm
      rw [heq, hactiveData] at hd'
      cases hd'
      obtain ⟨rs, hfits, hcontent⟩ := hok.records ht
      have hopenHint : w.disk.hint.open? id = none := by
        rw [FileTable.open?, heq, h.activeHint ht]
        rfl
      refine ⟨hok.drained, hcontent ▸ .of_records hfits, fun hint hh => ?_⟩
      cases hopenHint.symm.trans hh
    · exact hcreated.sealed_ ht id data hd ho heq
  · intro ht id hint hh ho
    rcases hcreated.hint_lt ht id hint hh ho with hd | hlt'
    · exact Or.inl hd
    · exact Or.inr (hlt'.trans hactive)

/-- The active file replaced by a new one. -/
theorem FilesOk.rotated (h : FilesOk tidy own w) (hsound : w.allotted + 1 < 2 ^ 32) :
    FilesOk tidy own w.rotated ∧ Evolves X w w.rotated := by
  obtain ⟨⟨hfiles, hevolves⟩, hnext⟩ := h.rotating (X := X) hsound
  have hactive := h.active_lt
  have hdata : w.rotating.disk.data.lookup w.nextFileId = none := by
    rw [World.lookup_rotating, if_neg (by lia)]
    exact (h.fresh _ le_rfl).1
  refine ⟨hfiles.switched (hnext ▸ Nat.lt_succ_self _) hactive (fun ho => ?_) hdata (h.fresh _ le_rfl).2,
    hevolves.created le_rfl hdata hactive.le⟩
  exact absurd (h.own_lt _ ho) (lt_irrefl _)

end

end Yabiir
