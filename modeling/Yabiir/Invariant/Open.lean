/-
  Yabiir.Invariant.Open

  An engine just opened: its files are in order (`filesOk_open`), and its keydir
  points into files of the directory.
-/

import Yabiir.Directory
import Yabiir.Invariant.Files

namespace Yabiir

open Format

/-- The id the next active file gets. -/
def Disk.nextId (disk : Disk) : FileId :=
  match disk.data.discover.getLast? with
  | none => 0
  | some id => wrapU32 (id + 1)

section

variable [Crc32Fast] {disk : Disk} {opts : Options} {allotted : Nat} {refused : Bool}

/-- Opening for writing: the keydir is recovered, and an active file made. -/
theorem open_eq (hrw : opts.isReadWrite = true) : World.open disk opts allotted refused
    = { opts, disk := { disk with data := disk.data.create disk.nextId }
        keydir := recover disk disk.data.discover ∅
        active := ⟨disk.nextId,
          (((disk.data.create disk.nextId).lookup disk.nextId).map fun f => f.content.length).getD 0⟩
        nextFileId := wrapU32 (disk.nextId + 1), readers := [], commit := .new
        allotted := allotted + 1, refused } := by
  unfold World.open
  rw [if_pos hrw]
  rfl

omit [Crc32Fast] in
/-- The last id listed is the greatest. -/
theorem FileTable.le_getLast {t : FileTable} {last id : FileId}
    (hlast : t.discover.getLast? = some last) (hid : id ∈ t.discover) : id ≤ last := by
  obtain ⟨ids, hids⟩ := List.getLast?_eq_some_iff.mp hlast
  have hsorted := pairwise_discover t
  rw [hids] at hsorted hid
  rcases List.mem_append.mp hid with hid | hid
  · exact ((List.pairwise_append.mp hsorted).2.2 id hid last (by simp)).le
  · exact (List.mem_singleton.mp hid).le

omit [Crc32Fast] in
/-- Ids of files are below the next one while the counter does not wrap. -/
theorem lt_nextId (hbound : ∀ id f, disk.data.lookup id = some f → id + 1 < 2 ^ 32) {id : FileId}
    {f : FileState} (hl : disk.data.lookup id = some f) (hlinked : f.linked = true) :
    id < disk.nextId := by
  have hmem : id ∈ disk.data.discover := (FileTable.mem_discover _ _).mpr ⟨f, hl, hlinked⟩
  unfold Disk.nextId
  cases hlast : disk.data.discover.getLast? with
  | none =>
    rw [List.getLast?_eq_none_iff.mp hlast] at hmem
    cases hmem
  | some last =>
    obtain ⟨f', hl', -⟩ := (FileTable.mem_discover _ _).mp (List.mem_of_getLast? hlast)
    dsimp only
    rw [wrapU32_of_lt (hbound last f' hl')]
    exact Nat.lt_succ_of_le (FileTable.le_getLast hlast hmem)

omit [Crc32Fast] in
theorem nextId_le (hallotted : ∀ id f, disk.data.lookup id = some f → id < allotted) :
    disk.nextId ≤ allotted := by
  unfold Disk.nextId
  cases hlast : disk.data.discover.getLast? with
  | none => exact Nat.zero_le _
  | some last =>
    obtain ⟨f, hl, -⟩ := (FileTable.mem_discover _ _).mp (List.mem_of_getLast? hlast)
    have hlt := hallotted last f hl
    exact (Nat.mod_le _ _).trans hlt

/-- The files of an engine just opened are in order: in any directory, as far as
    nothing is asked of their bytes. -/
theorem filesOk_open {tidy : Prop} (hrw : opts.isReadWrite = true)
    (hlinked : ∀ id f, disk.data.lookup id = some f → f.linked = true)
    (hallotted : ∀ id f, disk.data.lookup id = some f → id < allotted)
    (hbound : allotted + 1 < 2 ^ 32)
    (hsealed : tidy → ∀ id f, disk.data.lookup id = some f → SealedFile f (disk.hint.open? id))
    (hhint : tidy → ∀ id hint, disk.hint.lookup id = some hint →
      ∃ id' f, disk.data.lookup id' = some f ∧ id ≤ id') :
    FilesOk tidy (fun _ => False) (World.open disk opts allotted refused) := by
  have hlt : ∀ id f, disk.data.lookup id = some f → id < disk.nextId := by
    intro id f hl
    apply lt_nextId _ hl (hlinked id f hl)
    intro id f hl
    have := hallotted id f hl
    lia
  have hnext := nextId_le hallotted
  have hwrap : wrapU32 (disk.nextId + 1) = disk.nextId + 1 := wrapU32_of_lt (by lia)
  have hnone : disk.data.lookup disk.nextId = none := by
    cases hl : disk.data.lookup disk.nextId with
    | none => rfl
    | some f => exact absurd (hlt _ f hl) (lt_irrefl _)
  have hself := FileTable.lookup_create_of_none disk.data hnone
  have hother : ∀ id, id ≠ disk.nextId →
      (disk.data.create disk.nextId).lookup id = disk.data.lookup id :=
    fun id hid => FileTable.lookup_create_of_ne _ hid
  have hhints : tidy → ∀ id, disk.nextId ≤ id → disk.hint.lookup id = none := by
    intro ht id hid
    cases hl : disk.hint.lookup id with
    | none => rfl
    | some hint =>
      obtain ⟨id', f, hl', hle⟩ := hhint ht id hint hl
      have := hlt id' f hl'
      lia
  rw [open_eq hrw, hwrap]
  refine ⟨hrw, Nat.succ_le_succ hnext, fun id hid => ?_, hbound, fun _ h => h.elim, fun _ h => h.elim,
    Nat.lt_succ_self _, ⟨.fresh, hself, rfl, rfl, fun _ => ⟨[], by simp, rfl⟩, ?_, ?_⟩,
    fun ht => hhints ht _ le_rfl, fun ht id data hd _ hne => ?_, fun ht id hint hh _ => Or.inr ?_⟩
  · have hid' : disk.nextId + 1 ≤ id := hid
    refine ⟨?_, fun ht => hhints ht id (by lia)⟩
    rw [hother id (by lia)]
    cases hl : disk.data.lookup id with
    | none => rfl
    | some f =>
      have := hlt id f hl
      lia
  · rw [hself]
    rfl
  · simp
  · obtain ⟨hl, -⟩ := open?_eq_some.mp hd
    exact hsealed ht id data ((hother id hne).symm.trans hl)
  · obtain ⟨hl, -⟩ := open?_eq_some.mp hh
    obtain ⟨id', f, hl', hle⟩ := hhint ht id hint hl
    exact hle.trans_lt (hlt id' f hl')

end

end Yabiir
