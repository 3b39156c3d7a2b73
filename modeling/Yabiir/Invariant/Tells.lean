/-
  Yabiir.Invariant.Tells

  What the keydir of a session says (`World.Tells`): a map from keys to values,
  the value of a key being the bytes its entry points at.  Files only grow, so
  what an entry points at stays; a put publishes an entry for bytes already in
  the file, a repoint of a merge leads to the bytes it replaces.
-/

import Yabiir.Invariant.Pool
import Yabiir.Invariant.Ready

namespace Yabiir

open Format

/-! ## Values in files -/

/-- The value bytes `entry` points at are `value`, in a file that was created. -/
def World.Lies (w : World) (entry : KeydirEntry) (value : Bytes) : Prop :=
  ∃ data, w.disk.data.lookup entry.fileId = some data ∧
    preadExact data.content entry.valuePos entry.valueSize = .ok value

/-- The keydir says what the map `m` says. -/
def World.Tells (w : World) (m : KeyMap) : Prop :=
  ∀ key, Option.Rel w.Lies (w.keydir.get key) (m key)

/-- What the keydir says: the values its entries point at. -/
def World.told (w : World) : KeyMap := fun key =>
  (w.keydir.get key).bind fun entry =>
    (preadExact (w.contentOf entry.fileId) entry.valuePos entry.valueSize).toOption

section

variable {w w' : World} {m : KeyMap} {key value value' : Bytes} {entry : KeydirEntry}

theorem World.Lies.holds (h : w.Lies entry value) : w.Holds entry value := by
  obtain ⟨data, hl, hread⟩ := h
  rw [World.Holds, contentOf_of_lookup hl]
  exact hread

theorem preadExact_end (front value : Bytes) :
    preadExact (front ++ value) front.length value.length = .ok value := by
  rw [preadExact, if_pos (Or.inr (by simp)), List.drop_left, List.take_length]

theorem World.Lies.unique (h : w.Lies entry value) (h' : w.Lies entry value') : value = value' :=
  h.holds.unique h'.holds

theorem World.Lies.grows (h : w.Lies entry value) (hgrows : w.Grows w') : w'.Lies entry value := by
  obtain ⟨data, hl, hread⟩ := h
  obtain ⟨data', hl', hfront, -⟩ := hgrows _ data hl
  exact ⟨data', hl', preadExact_front hfront hread⟩

theorem World.Lies.of_holds {data : FileState} (hl : w.disk.data.lookup entry.fileId = some data)
    (h : w.Holds entry value) : w.Lies entry value := by
  rw [World.Holds, contentOf_of_lookup hl] at h
  exact ⟨data, hl, h⟩

theorem World.Tells.present (h : w.Tells m) (hkd : w.keydir.get key = some entry) :
    ∃ value, m key = some value ∧ w.Lies entry value := by
  have hrel := h key
  rw [hkd] at hrel
  cases hm : m key with
  | none =>
    rw [hm] at hrel
    cases hrel
  | some value =>
    rw [hm] at hrel
    cases hrel with
    | some hlies => exact ⟨value, rfl, hlies⟩

theorem World.Tells.absent (h : w.Tells m) : w.keydir.get key = none ↔ m key = none := by
  have hrel := h key
  constructor
  · intro hkd
    rw [hkd] at hrel
    generalize m key = value? at hrel ⊢
    cases hrel
    rfl
  · intro hm
    rw [hm] at hrel
    generalize w.keydir.get key = found at hrel ⊢
    cases hrel
    rfl

theorem rel_grows (hgrows : w.Grows w') {found : Option KeydirEntry} {value? : Option Bytes}
    (h : Option.Rel w.Lies found value?) : Option.Rel w'.Lies found value? := by
  cases h with
  | some hlies => exact .some (hlies.grows hgrows)
  | none => exact .none

/-- Steps that leave the keydir alone. -/
theorem World.Tells.grows (h : w.Tells m) (hgrows : w.Grows w') (hkeydir : w'.keydir = w.keydir) :
    w'.Tells m := by
  intro key
  rw [hkeydir]
  exact rel_grows hgrows (h key)

theorem World.Tells.insert (h : w.Tells m) (hlies : w.Lies entry value)
    (hdisk : w'.disk = w.disk) (hkeydir : w'.keydir = w.keydir.put key entry) :
    w'.Tells (m.put key value) := by
  have hgrows : w.Grows w' := fun id data hl => ⟨data, hdisk ▸ hl, List.prefix_rfl, fun h => h⟩
  intro key'
  rw [hkeydir, Keydir.get_put, KeyMap.put]
  by_cases hkey : key' = key
  · rw [if_pos hkey, hkey, Function.update_self]
    exact .some (hlies.grows hgrows)
  · rw [if_neg hkey, Function.update_of_ne hkey]
    exact rel_grows hgrows (h key')

theorem World.Tells.remove (h : w.Tells m) (hdisk : w'.disk = w.disk)
    (hkeydir : w'.keydir = w.keydir.remove key) : w'.Tells (m.delete key) := by
  have hgrows : w.Grows w' := fun id data hl => ⟨data, hdisk ▸ hl, List.prefix_rfl, fun h => h⟩
  intro key'
  rw [hkeydir, Keydir.get_remove, KeyMap.delete]
  by_cases hkey : key' = key
  · rw [if_pos hkey, hkey, Function.update_self]
    exact .none
  · rw [if_neg hkey, Function.update_of_ne hkey]
    exact rel_grows hgrows (h key')

end

section

variable [Crc32Fast] {own : FileId → Prop} {w w' : World} {m : KeyMap} {g g' : MergeLog}

/-- A repoint of a merge leads to the same value. -/
theorem World.Tells.repoint (h : w.Tells m) (hm : MergeOk False g w) (hs : g.Sourced)
    {key : Bytes} {old new : KeydirEntry} {r : Bool}
    (hR : MergeLog.protocol g (.keydirCasRepoint key old new) r g')
    (hO : perform (.keydirCasRepoint key old new) w = (r, w')) : w'.Tells m := by
  obtain ⟨c, rest, hpending, rfl, rfl, rfl, hflushed, -⟩ := hR
  obtain rfl : w' = { w with keydir := (w.keydir.casRepoint c.entry.key c.old c.new).2 } :=
    (congrArg Prod.snd hO).symm
  have hgrows : w.Grows { w with keydir := (w.keydir.casRepoint c.entry.key c.old c.new).2 } :=
    .refl w
  intro key'
  cases hkd : w.keydir.get key' with
  | none =>
    -- only an entry that is there is replaced
    have hnone : (w.keydir.casRepoint c.entry.key c.old c.new).2.get key' = none := by
      by_cases hkey : key' = c.entry.key
      · subst hkey
        rw [Keydir.get_casRepoint_self, hkd]
        rfl
      · rw [Keydir.get_casRepoint_of_ne _ _ _ hkey, hkd]
    show Option.Rel _ ((w.keydir.casRepoint c.entry.key c.old c.new).2.get key') _
    rw [hnone, h.absent.mp hkd]
    exact .none
  | some entry =>
    obtain ⟨value, hvalue, hlies⟩ := h.present hkd
    show Option.Rel _ ((w.keydir.casRepoint c.entry.key c.old c.new).2.get key') _
    rcases get_repointed (c := c) hkd with ⟨-, rfl, hkd'⟩ | ⟨-, hkd'⟩
    · -- the copy has the bytes of the original
      obtain ⟨o, ho, hc⟩ := hm.sound.pending c (hpending ▸ List.mem_cons_self)
      obtain ⟨hdst, -, hholds⟩ := (hm.outs o ho).copied (hflushed o ho).1 hc
      obtain ⟨data, hl, -⟩ := (hm.outs o ho).data
      have hsame : c.entry.value = value := ((hs.copies o ho c hc).holds hm).unique hlies.holds
      rw [hkd', hvalue, ← hsame]
      have hl' : w.disk.data.lookup c.new.fileId = some data := by
        rw [show c.new.fileId = o.id from hdst]
        exact hl
      exact .some ((World.Lies.of_holds hl' hholds).grows hgrows)
    · rw [hkd', hvalue]
      exact .some (hlies.grows hgrows)

/-- An entry just appended holds its value, whether the append rotated or not. -/
theorem FilesOk.append_lies (h : FilesOk False own w) {maxFileSize : Nat} {key value : Bytes}
    {timestamp : UInt32} {x : FileId × Nat × Nat} (hvalue : value.length < 2 ^ 32)
    (hO : perform (.locked (.append maxFileSize (encodeEntry key value false timestamp))) w
      = (.ok x, w')) (hids : w'.allotted < 2 ^ 32) :
    w'.Lies (putEntry value timestamp (x.1, x.2.1)) value := by
  obtain ⟨data, hl, hok⟩ := h.active
  cases hlong : World.tooLong w.disk.data w.active.fileId
      (encodeEntry key value false timestamp).bytes with
  | true =>
    rw [perform_append_tooLong _ _ _ hlong] at hO
    cases hO
  | false =>
    rw [perform_append _ _ _ hlong] at hO
    obtain ⟨hx, rfl⟩ := Prod.mk.inj hO
    cases hx
    obtain ⟨hfiles, -⟩ := h.appended (X := fun _ => False) (fun ht => ht.elim) hlong
    have happended : (w.appended (encodeEntry key value false timestamp).bytes).Lies
        (putEntry value timestamp (w.active.fileId, w.active.offset +
          ((encodeEntry key value false timestamp).bytes.length -
            (encodeEntry key value false timestamp).valueLen))) value := by
      obtain ⟨data', hl', -⟩ := hfiles.active
      refine World.Lies.of_holds hl' ?_
      have hcontent : (w.appended (encodeEntry key value false timestamp).bytes).contentOf
          w.active.fileId = _ := contentOf_appended ⟨data, hl, hok.drained⟩ _
      rw [if_pos rfl, contentOf_of_lookup hl] at hcontent
      have hbytes : data.content ++ (encodeEntry key value false timestamp).bytes
          = (data.content ++ (entryHeader key value false timestamp ++ key)) ++ value := by
        simp [encodeEntry_bytes]
      have hpos : w.active.offset + ((encodeEntry key value false timestamp).bytes.length -
          (encodeEntry key value false timestamp).valueLen)
            = (data.content ++ (entryHeader key value false timestamp ++ key)).length := by
        simp [hok.offset]
      show preadExact ((w.appended _).contentOf w.active.fileId) (w.active.offset + _)
        (value.length % 2 ^ 32) = .ok value
      rw [hcontent, hbytes, hpos, Nat.mod_eq_of_lt hvalue]
      exact preadExact_end _ value
    unfold World.appendRotate at hids ⊢
    split
    · rename_i hfull
      rw [if_pos hfull] at hids
      obtain ⟨-, hE⟩ := hfiles.rotated (X := fun _ => False) hids
      exact happended.grows (hE.onlyGrows hfiles)
    · exact happended

/-- An engine just opened finds a value for each key of its keydir. -/
theorem tells_open {d : Directory} (hd : d.Short) {opts : Options}
    (hrw : opts.isReadWrite = true) (hbound : d.allotted + 1 < 2 ^ 32) :
    (d.open opts).Tells (d.open opts).told := by
  intro key
  unfold World.told
  cases hkd : (d.open opts).keydir.get key with
  | none => exact .none
  | some entry =>
    obtain ⟨-, hold⟩ := linked_of_open d hrw hbound hkd
    have hopen : d.open opts = _ := open_eq hrw
    rw [hopen] at hkd hold
    obtain ⟨id, hid, hop⟩ := mem_of_recover hkd
    obtain ⟨file, hl, hlinked⟩ := (FileTable.mem_discover _ _).mp hid
    have hfile : d.disk.data.open? id = some file := open?_eq_some.mpr ⟨hl, hlinked⟩
    obtain ⟨rfl, hle⟩ := fileOps_some hop
    rw [hfile] at hle
    -- the new active file is another one
    have hl' : (d.open opts).disk.data.lookup entry.fileId = some file := by
      rw [hopen]
      exact (FileTable.lookup_create_of_ne _ (ne_of_lt hold)).trans hl
    have hlen : file.content.length ≤ maxFileLen := by
      have hshort := hd.open hrw entry.fileId file hl'
      rw [FileState.logical, List.length_append] at hshort
      omega
    have hin : entry.valuePos + entry.valueSize ≤ file.content.length := by
      simp only [Option.map_some, Option.getD_some, maxFileLen] at hle hlen
      omega
    have hread : preadExact file.content entry.valuePos entry.valueSize = .ok _ :=
      if_pos (Or.inr hin)
    have htold : (some entry).bind (fun entry => (preadExact ((d.open opts).contentOf entry.fileId)
        entry.valuePos entry.valueSize).toOption)
          = some ((file.content.drop entry.valuePos).take entry.valueSize) := by
      rw [Option.bind_some, contentOf_of_lookup hl', hread]
      rfl
    rw [htold]
    exact .some ⟨file, hl', hread⟩

end

end Yabiir
