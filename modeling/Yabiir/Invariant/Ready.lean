/-
  Yabiir.Invariant.Ready

  Between calls the keydir and the log of the directory say the same, both what
  a map from keys to values says (`Ready`).  Puts and deletes keep it, each with
  the map changed at its key.
-/

import Yabiir.Alone
import Yabiir.Invariant.Calls
import Yabiir.Invariant.Log

namespace Yabiir

open Format

/-- What the store is for: a map from keys to values. -/
abbrev KeyMap := Bytes → Option Bytes

namespace KeyMap

def put (m : KeyMap) (key value : Bytes) : KeyMap := Function.update m key (some value)

def delete (m : KeyMap) (key : Bytes) : KeyMap := Function.update m key none

/-- What a record does to the map. -/
def write (m : KeyMap) (r : Record) : KeyMap :=
  Function.update m r.key (if r.tombstone then none else some r.value)

end KeyMap

/-- An operation of the log says that the key's value is `value?`. -/
def World.Says (w : World) (value? : Option Bytes) : Option KeydirEntry → Prop
  | none => value? = none
  | some entry => ∃ value, value? = some value ∧ w.Holds entry value

variable [Crc32Fast]

/-- The keydir entry `entry` of `key` leads to `value`, in a file of the directory
    whose log names the key. -/
structure Leads (w : World) (key : Bytes) (entry : KeydirEntry) (value : Bytes) : Prop where
  scans : w.Scans key entry
  holds : w.Holds entry value
  linked : w.Linked entry.fileId
  logged : ∃ op, w.disk.log.LastIn key entry.fileId op

/-- Between two calls: the files are in order, none is above the active one, and
    log and keydir agree with the map `m`.  Where removals of files may fail
    (`failing`), no hint file leaves out an entry of its data file. -/
structure Ready (failing : Prop) (m : KeyMap) (w : World) : Prop where
  files : FilesOk True (fun _ => False) w
  top : ∀ id, w.Linked id → id ≤ w.active.fileId
  newest : ∀ key id op, w.disk.log.Newest key id op → w.Says (m key) op
  absent : ∀ key, m key = none → w.keydir.get key = none
  present : ∀ key value, m key = some value →
    ∃ entry, w.keydir.get key = some entry ∧ Leads w key entry value
  full : failing → ∀ id, w.Linked id → fileOps w.disk id = w.scanOps id

section

variable {failing : Prop} {m : KeyMap} {w w' : World} {key value : Bytes} {entry : KeydirEntry}

omit [Crc32Fast] in
theorem World.Says.grows {value? : Option Bytes} {op : Option KeydirEntry} (h : w.Says value? op)
    (hgrows : ∀ entry, op = some entry → w.contentOf entry.fileId <+: w'.contentOf entry.fileId) :
    w'.Says value? op := by
  cases op with
  | none => exact h
  | some entry =>
    obtain ⟨value, rfl, hholds⟩ := h
    exact ⟨value, rfl, hholds.grows (hgrows entry rfl)⟩

theorem linked_iff_log {id : FileId} : w.Linked id ↔ ∃ ops, w.disk.log id = some ops :=
  ⟨fun h => ⟨_, log_of_linked h⟩, fun ⟨_, h⟩ => (linked_of_log h).1⟩

omit [Crc32Fast] in
theorem linked_of_lastIn {segs : Segments Bytes (Option KeydirEntry)} {id : FileId}
    {op : Option KeydirEntry} (h : segs.LastIn key id op) : ∃ ops, segs id = some ops :=
  h.imp fun _ h => h.1

/-- What the log of a file says holds as long as the file stays. -/
theorem World.Says.stays {value? : Option Bytes} {id : FileId}
    {op : Option KeydirEntry} (h : w.Says value? op)
    (hlast : w.disk.log.LastIn key id op) (hgrows : w.contentOf id <+: w'.contentOf id) :
    w'.Says value? op := by
  apply h.grows
  rintro entry rfl
  obtain ⟨ops, hops, hlast⟩ := hlast
  obtain ⟨-, rfl⟩ := linked_of_log hops
  obtain ⟨rfl, -⟩ := fileOps_some (mem_of_lastOn hlast)
  exact hgrows

theorem linked_congr {id : FileId} (h : w'.disk.log id = w.disk.log id) : w'.Linked id ↔ w.Linked id := by
  rw [linked_iff_log, linked_iff_log, h]

theorem fileOps_congr {id : FileId} (h : w'.disk.log id = w.disk.log id) (hlinked : w.Linked id) :
    fileOps w'.disk id = fileOps w.disk id := by
  have hlinked' := (linked_congr h).mpr hlinked
  rw [log_of_linked hlinked, log_of_linked hlinked'] at h
  exact Option.some.inj h

/-- A world with the same bytes in the same files, and the same keydir. -/
theorem Ready.alike (h : Ready failing m w) (hfiles : FilesOk True (fun _ => False) w')
    (hlog : w'.disk.log = w.disk.log) (hcontent : ∀ id, w'.contentOf id = w.contentOf id)
    (hkeydir : w'.keydir = w.keydir) (hactive : w'.active.fileId = w.active.fileId) :
    Ready failing m w' := by
  have hlinked : ∀ id, w'.Linked id ↔ w.Linked id := fun id => by
    rw [linked_iff_log, linked_iff_log, hlog]
  refine ⟨hfiles, fun id hl => ?_, fun key id op hn => ?_, fun key hm => ?_, fun key value hm => ?_,
    fun hf id hl => ?_⟩
  · rw [hactive]
    exact h.top id ((hlinked id).mp hl)
  · rw [hlog] at hn
    exact (h.newest key id op hn).grows fun entry _ => (hcontent _).symm ▸ List.prefix_rfl
  · rw [hkeydir]
    exact h.absent key hm
  · obtain ⟨entry, hkd, hleads⟩ := h.present key value hm
    rw [hkeydir]
    refine ⟨entry, hkd, ?_, ?_, (hlinked _).mpr hleads.linked, hlog ▸ hleads.logged⟩
    · exact hleads.scans.grows ((hcontent _).symm ▸ List.prefix_rfl)
    · exact hleads.holds.grows ((hcontent _).symm ▸ List.prefix_rfl)
  · have hl' := (hlinked id).mp hl
    have hops : fileOps w'.disk id = fileOps w.disk id := by
      have heq := congrFun hlog id
      rw [log_of_linked hl, log_of_linked hl'] at heq
      exact Option.some.inj heq
    rw [hops, h.full hf id hl', World.scanOps, World.scanOps, hcontent]

/-- A record appended and published. -/
theorem Ready.appended (h : Ready failing m w) {r : Record} (hr : r.Fits)
    (hshort : World.tooLong w.disk.data w.active.fileId r.encode = false) {kd : Keydir}
    (hkd : ∀ key, kd.get key = if key = r.key then r.op w.active.fileId w.active.offset
      else w.keydir.get key) :
    Ready failing (m.write r) ((w.appended r.encode).publish kd) := by
  have hnew := h.files.appended (X := fun _ => False) (fun _ => ⟨r, hr, rfl⟩) hshort
  obtain ⟨hfiles, hE⟩ := hnew
  obtain ⟨ops, hops, hlog⟩ := h.files.log_appended hr
  have hholds := h.files.appended_holds hr
  have hA : AgreesOff (fun _ => False) (w.appended r.encode) ((w.appended r.encode).publish kd) :=
    .of_eq rfl rfl rfl rfl rfl
  have hfiles' := hfiles.agreesOff hA fun _ hx => hx
  have hgrows : ∀ id, w.contentOf id <+: (w.appended r.encode).contentOf id := by
    obtain ⟨data, hl, hok⟩ := h.files.active
    intro id
    rw [contentOf_appended ⟨data, hl, hok.drained⟩]
    split
    · exact List.prefix_append ..
    · exact List.prefix_rfl
  have hlinked : ∀ id, (w.appended r.encode).Linked id ↔ w.Linked id := by
    intro id
    rw [linked_iff_log, linked_iff_log, hlog]
    by_cases hid : id = w.active.fileId
    · simp [hid, hops]
    · rw [Function.update_of_ne hid]
  have htop : ∀ id, w.active.fileId < id → ∀ op, ¬ w.disk.log.LastIn r.key id op := by
    intro id hlt op hlast
    have := h.top id (linked_iff_log.mpr (linked_of_lastIn hlast))
    lia
  have hself : Segments.Newest (Function.update w.disk.log w.active.fileId
      (some (ops ++ [(r.key, r.op w.active.fileId w.active.offset)]))) r.key w.active.fileId
        (r.op w.active.fileId w.active.offset) := Segments.newest_append htop
  rw [← hlog] at hself
  unfold KeyMap.write
  refine ⟨hfiles', fun id hl => h.top id ((hlinked id).mp hl), fun key id op hn => ?_,
    fun key hm => ?_, fun key value hm => ?_, fun hf id hl => ?_⟩
  · by_cases hkey : key = r.key
    · -- the record is the newest with its key
      subst hkey
      obtain ⟨-, rfl⟩ := hself.unique hn
      rw [Function.update_self]
      unfold Record.op
      cases r.tombstone with
      | true => exact rfl
      | false => exact ⟨r.value, rfl, hholds⟩
    · rw [Function.update_of_ne hkey]
      have hn' : (w.appended r.encode).disk.log.Newest key id op := hn
      rw [hlog, Segments.newest_congr fun _ _ => Segments.lastIn_append_of_ne hops
        (Ne.symm hkey)] at hn'
      exact (h.newest key id op hn').grows fun entry _ => hgrows _
  · show kd.get key = none
    rw [hkd]
    by_cases hkey : key = r.key
    · rw [if_pos hkey]
      rw [hkey, Function.update_self] at hm
      unfold Record.op
      cases ht : r.tombstone with
      | true => rfl
      | false => simp [ht] at hm
    · rw [if_neg hkey]
      rw [Function.update_of_ne hkey] at hm
      exact h.absent key hm
  · show ∃ entry, kd.get key = some entry ∧ _
    rw [hkd]
    by_cases hkey : key = r.key
    · rw [if_pos hkey]
      rw [hkey, Function.update_self] at hm
      cases ht : r.tombstone with
      | true => simp [ht] at hm
      | false =>
        simp only [ht, Bool.false_eq_true, if_false, Option.some.injEq] at hm
        subst hm
        have hop : r.op w.active.fileId w.active.offset
            = some (keydirEntryOf w.active.fileId w.active.offset r.entry) := by
          simp [Record.op, ht]
        refine ⟨_, hop, ?_, hholds, ?_, ?_⟩
        · have hlog' : (w.appended r.encode).disk.log w.active.fileId
              = some (ops ++ [(r.key, r.op w.active.fileId w.active.offset)]) := by
            rw [hlog, Function.update_self]
          rw [hkey]
          exact (hfiles.scans_of_log (fun hx => hx) hlog' (by simp [hop])).2.2
        · exact (hlinked _).mpr h.files.linked_active
        · rw [hkey]
          exact ⟨_, hself.1⟩
    · rw [if_neg hkey]
      rw [Function.update_of_ne hkey] at hm
      obtain ⟨entry, hget, hleads⟩ := h.present key value hm
      refine ⟨entry, hget, hleads.scans.grows (hgrows _), hleads.holds.grows (hgrows _),
        (hlinked _).mpr hleads.linked, ?_⟩
      obtain ⟨op, hlast⟩ := hleads.logged
      refine ⟨op, ?_⟩
      show (w.appended r.encode).disk.log.LastIn key entry.fileId op
      rw [hlog]
      exact (Segments.lastIn_append_of_ne hops (Ne.symm hkey)).mpr hlast
  · show fileOps (w.appended r.encode).disk id = (w.appended r.encode).scanOps id
    by_cases hid : id = w.active.fileId
    · subst hid
      exact fileOps_noHint hl hfiles.noHint_active
    · have hl' := (hlinked id).mp hl
      have hsame := congrFun hlog id
      rw [Function.update_of_ne hid, log_of_linked hl', log_of_linked (w := w.appended r.encode) hl]
        at hsame
      obtain ⟨data, hlookup, hok⟩ := h.files.active
      rw [Option.some.inj hsame, h.full hf id hl', World.scanOps, World.scanOps,
        contentOf_appended ⟨data, hlookup, hok.drained⟩, if_neg hid]

/-- The active file replaced by a new one. -/
theorem Ready.rotated (h : Ready failing m w) (hids : w.allotted + 1 < 2 ^ 32) :
    Ready failing m w.rotated := by
  obtain ⟨hfiles, -⟩ := h.files.rotated (X := fun _ => False) hids
  obtain ⟨hnone, hlog, hcontent⟩ := h.files.log_rotated
  have hnew : w.nextFileId = w.rotated.active.fileId := rfl
  have hsegs : ∀ key id op, w.rotated.disk.log.LastIn key id op ↔ w.disk.log.LastIn key id op := by
    intro key id op
    rw [hlog]
    exact Segments.lastIn_update_nil hnone
  have hother : ∀ id, id ≠ w.nextFileId → w.rotated.disk.log id = w.disk.log id := fun id hid => by
    rw [hlog, Function.update_of_ne hid]
  refine ⟨hfiles, fun id hl => ?_, fun key id op hn => ?_, h.absent, fun key value hm => ?_,
    fun hf id hl => ?_⟩
  · by_cases hid : id = w.nextFileId
    · exact hid.le
    · have hl' := linked_iff_log.mpr ((hother id hid) ▸ linked_iff_log.mp hl)
      exact ((h.top id hl').trans_lt h.files.active_lt).le
  · rw [Segments.newest_congr (hsegs key)] at hn
    exact (h.newest key id op hn).grows fun entry _ => (hcontent _).symm ▸ List.prefix_rfl
  · obtain ⟨entry, hkd, hleads⟩ := h.present key value hm
    refine ⟨entry, hkd, ?_, ?_, ?_, ?_⟩
    · exact hleads.scans.grows ((hcontent _).symm ▸ List.prefix_rfl)
    · exact hleads.holds.grows ((hcontent _).symm ▸ List.prefix_rfl)
    · obtain ⟨ops, hops⟩ := linked_iff_log.mp hleads.linked
      have hne : entry.fileId ≠ w.nextFileId := fun heq => by
        rw [heq, hnone] at hops
        cases hops
      exact linked_iff_log.mpr ⟨ops, (hother _ hne).trans hops⟩
    · exact hleads.logged.imp fun op hlast => (hsegs _ _ _).mpr hlast
  · by_cases hid : id = w.nextFileId
    · subst hid
      exact fileOps_noHint hl hfiles.noHint_active
    · have hl' := linked_iff_log.mpr ((hother id hid) ▸ linked_iff_log.mp hl)
      have hsame := hother id hid
      rw [log_of_linked hl', log_of_linked hl] at hsame
      rw [Option.some.inj hsame, h.full hf id hl', World.scanOps, World.scanOps, hcontent]

/-- A `commit` syncs the active file at most. -/
theorem Ready.commit (h : Ready failing m w) (generation : Nat) :
    Ready failing m (perform (.commit generation) w).2 := by
  simp only [perform, performBase]
  split
  · exact h
  · obtain ⟨hfiles, -⟩ := h.files.committed (X := fun _ => False) w.commit.markAllDurable
    exact h.alike hfiles h.files.log_synced (fun id => (h.files.content_synced id).2) rfl rfl

/-- Handles opened or dropped. -/
theorem Ready.readers (h : Ready failing m w) (readers : List FileId) :
    Ready failing m { w with readers } := by
  have hA : AgreesOff (fun _ => False) w { w with readers } := .of_eq rfl rfl rfl rfl rfl
  exact h.alike (h.files.agreesOff hA fun _ hx => hx) rfl (fun _ => rfl) rfl rfl

/-! ## Puts and deletes -/

omit [Crc32Fast] in
/-- Publishing first makes no difference to a rotation. -/
theorem publish_appendRotate (w : World) (maxFileSize : Nat) (bytes : Bytes) (kd : Keydir) :
    (w.appendRotate maxFileSize bytes).publish kd
      = if (w.appended bytes).active.len ≥ maxFileSize then ((w.appended bytes).publish kd).rotated
        else (w.appended bytes).publish kd := by
  unfold World.appendRotate
  split <;> rfl

omit [Crc32Fast] in
theorem publish_commit (w : World) (generation : Nat) (kd : Keydir) :
    (perform (.commit generation) w).2.publish kd
      = (perform (.commit generation) (w.publish kd)).2 := by
  by_cases hle : generation ≤ w.commit.maxDurableGeneration <;>
    simp [perform, performBase, World.publish, World.modifyData, hle]

theorem Ready.stored (h : Ready failing m w) {r : Record} (hr : r.Fits)
    (hshort : World.tooLong w.disk.data w.active.fileId r.encode = false) {kd : Keydir}
    (hkd : ∀ key, kd.get key = if key = r.key then r.op w.active.fileId w.active.offset
      else w.keydir.get key) (hids : (w.stored r.encode).allotted < 2 ^ 32) :
    Ready failing (m.write r) ((w.stored r.encode).publish kd) := by
  have hready : (w.appendRotate w.opts.maxFileSize r.encode).allotted < 2 ^ 32 →
      Ready failing (m.write r) ((w.appendRotate w.opts.maxFileSize r.encode).publish kd) := by
    intro hids
    have happended := h.appended hr hshort hkd
    rw [publish_appendRotate]
    unfold World.appendRotate at hids
    split
    · rename_i hfull
      rw [if_pos hfull] at hids
      exact happended.rotated hids
    · exact happended
  unfold World.stored at hids ⊢
  dsimp only at hids ⊢
  split
  · rename_i hsync
    rw [if_pos hsync] at hids
    rw [publish_commit]
    apply Ready.commit
    apply hready
    have hO : Outcome (.commit (w.commit.pendingWrites + 1))
        (w.appendRotate w.opts.maxFileSize r.encode) _ _ := Or.inl rfl
    exact hO.allotted.2.trans_lt hids
  · rename_i hsync
    rw [if_neg hsync] at hids
    exact hready hids

end

end Yabiir
