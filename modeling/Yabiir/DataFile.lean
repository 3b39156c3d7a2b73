/-
  Yabiir.DataFile

  The files of a directory and what is done to them (`src/datafile.rs`): the
  buffered writer every data and hint file is written through, the creation of
  an active file, the listing of the directory, positioned reads.  Two tables,
  one of data files and one of hint files, both indexed by file id, stand for
  the directory.
-/

import Yabiir.Keydir
import Mathlib.Data.List.Infix
import Mathlib.Data.List.Sort

namespace Yabiir

/-- The I/O errors the operations can end in.  `injected` stands for any
    failure of the device or the kernel. -/
inductive IoError where
  | notFound
  | unexpectedEof
  | fileTooLarge
  | injected
  deriving DecidableEq, Repr

/-- Capacity of `std::io::BufWriter`'s buffer. -/
def bufCapacity : Nat := 8 * 1024

/-- Greatest file length: `i64::MAX`, the bound POSIX puts on file offsets.  A
    write past it is refused. -/
def maxFileLen : Nat := 2 ^ 63 - 1

/-- One file: the bytes the kernel has, the bytes still in the buffer of the
    writer appending to it, whether the directory still names it (an unlinked
    file lives on behind open handles), and how many of its bytes the last
    successful `sync_data` covered. -/
structure FileState where
  content : Bytes
  buffer : Bytes
  linked : Bool
  synced : Nat
  deriving DecidableEq, Repr

namespace FileState

/-- A file just created. -/
def fresh : FileState := ⟨[], [], true, 0⟩

/-- The content once the buffer is written out. -/
def logical (f : FileState) : Bytes := f.content ++ f.buffer

/-- `BufWriter::flush_buf`: hand the whole buffer to the kernel. -/
def flushBuf (f : FileState) : FileState := { f with content := f.content ++ f.buffer, buffer := [] }

/-- `BufWriter::write_all`: small writes go to the buffer, after flushing it if
    they do not fit; writes of at least its capacity go straight to the file. -/
def writeAll (f : FileState) (bytes : Bytes) : FileState :=
  if bytes.length < bufCapacity - f.buffer.length then { f with buffer := f.buffer ++ bytes }
  else
    let f := if bytes.length > bufCapacity - f.buffer.length then f.flushBuf else f
    if bytes.length ≥ bufCapacity then { f with content := f.content ++ bytes }
    else { f with buffer := f.buffer ++ bytes }

/-- `File::sync_data`, on what the kernel has. -/
def syncData (f : FileState) : FileState := { f with synced := f.content.length }

/-- `fs::remove_file`. -/
def unlink (f : FileState) : FileState := { f with linked := false }

/-- A failing `write_all`: the kernel took `n` bytes, not all, of what it was to
    be handed (the buffer, then the bytes of a direct write) before the error.
    What is left of the buffer stays buffered; the rest of a direct write is
    lost. -/
def writeAllFails (f : FileState) (bytes : Bytes) (n : Nat) : Option FileState :=
  if bytes.length < bufCapacity - f.buffer.length then none
  else if bytes.length > bufCapacity - f.buffer.length ∧ n < f.buffer.length then
    some { f with content := f.content ++ f.buffer.take n, buffer := f.buffer.drop n }
  else
    let direct := n - f.buffer.length
    let f := if bytes.length > bufCapacity - f.buffer.length then f.flushBuf else f
    if bytes.length ≥ bufCapacity ∧ direct < bytes.length then
      some { f with content := f.content ++ bytes.take direct }
    else none

/-- A failing flush that got `n` bytes of the buffer through. -/
def flushFails (f : FileState) (n : Nat) : Option FileState :=
  if n < f.buffer.length then
    some { f with content := f.content ++ f.buffer.take n, buffer := f.buffer.drop n }
  else none

end FileState

/-- Files by id. -/
abbrev FileTable := AList fun _ : FileId => FileState

namespace FileTable

/-- Change the file `id`, if there is one. -/
def modify (t : FileTable) (id : FileId) (f : FileState → FileState) : FileTable :=
  match t.lookup id with
  | none => t
  | some s => t.insert id (f s)

/-- `OpenOptions::create(true).append(true)` with a new `BufWriter`: a name that
    exists keeps its content. -/
def create (t : FileTable) (id : FileId) : FileTable :=
  match t.lookup id with
  | some f => if f.linked then t.insert id { f with buffer := [] } else t.insert id .fresh
  | none => t.insert id .fresh

/-- `File::create`: a name that exists is truncated. -/
def createTruncated (t : FileTable) (id : FileId) : FileTable := t.insert id .fresh

/-- The file the directory names `id`. -/
def open? (t : FileTable) (id : FileId) : Option FileState := (t.lookup id).filter FileState.linked

/-- The ids the directory names, ascending (`DataFileSet::discover`). -/
def discover (t : FileTable) : List FileId :=
  ((t.entries.filter fun p => p.2.linked).map Sigma.fst).insertionSort (· ≤ ·)

end FileTable

/-- The directory. -/
structure Disk where
  data : FileTable
  hint : FileTable

/-- The file being appended to.  Its buffer is in the table. -/
structure ActiveFile where
  fileId : FileId
  offset : Nat
  deriving DecidableEq, Repr

/-- `ActiveFile::len`. -/
def ActiveFile.len (a : ActiveFile) : Nat := a.offset

/-- Read exactly `len` bytes at `pos` (`pread_exact`); no bytes can be read
    anywhere. -/
def preadExact (content : Bytes) (pos len : Nat) : Except IoError Bytes :=
  if len = 0 ∨ pos + len ≤ content.length then .ok ((content.drop pos).take len)
  else .error .unexpectedEof

theorem length_le_of_preadExact {content value : Bytes} {pos len : Nat}
    (h : preadExact content pos len = .ok value) : value.length ≤ len := by
  unfold preadExact at h
  split at h
  · cases h
    exact List.length_take_le ..
  · cases h

/-! ## The buffered writer -/

namespace FileState

variable (f : FileState) (bytes : Bytes)

@[simp] theorem logical_fresh : fresh.logical = [] := rfl
@[simp] theorem linked_fresh : fresh.linked = true := rfl
@[simp] theorem content_fresh : fresh.content = [] := rfl
@[simp] theorem buffer_fresh : fresh.buffer = [] := rfl

@[simp] theorem logical_flushBuf : f.flushBuf.logical = f.logical := by
  simp [flushBuf, logical]

@[simp] theorem content_flushBuf : f.flushBuf.content = f.logical := rfl
@[simp] theorem buffer_flushBuf : f.flushBuf.buffer = [] := rfl
@[simp] theorem linked_flushBuf : f.flushBuf.linked = f.linked := rfl

@[simp] theorem logical_syncData : f.syncData.logical = f.logical := rfl
@[simp] theorem content_syncData : f.syncData.content = f.content := rfl
@[simp] theorem buffer_syncData : f.syncData.buffer = f.buffer := rfl
@[simp] theorem linked_syncData : f.syncData.linked = f.linked := rfl

@[simp] theorem logical_unlink : f.unlink.logical = f.logical := rfl
@[simp] theorem content_unlink : f.unlink.content = f.content := rfl
@[simp] theorem buffer_unlink : f.unlink.buffer = f.buffer := rfl
@[simp] theorem linked_unlink : f.unlink.linked = false := rfl

/-- Whichever way a write takes, it lands behind everything written before. -/
@[simp] theorem logical_writeAll : (f.writeAll bytes).logical = f.logical ++ bytes := by
  unfold writeAll
  split
  · simp [logical]
  · rename_i hbig
    by_cases hspare : bytes.length > bufCapacity - f.buffer.length
    · simp only [hspare, if_true]
      split <;> simp [logical, flushBuf]
    · -- the write fills the buffer exactly; were it direct, the buffer was empty
      simp only [hspare, if_false]
      split
      · rename_i hcap
        have hnil : f.buffer = [] := by
          apply List.eq_nil_of_length_eq_zero
          simp only [bufCapacity] at *
          omega
        simp [logical, hnil]
      · simp [logical]

@[simp] theorem linked_writeAll : (f.writeAll bytes).linked = f.linked := by
  unfold writeAll
  split
  · rfl
  · dsimp only
    split <;> split <;> rfl

/-- The kernel never loses a byte to a buffered write. -/
theorem content_prefix_writeAll : f.content <+: (f.writeAll bytes).content := by
  unfold writeAll
  split
  · exact List.prefix_rfl
  · dsimp only
    split <;> split <;> simp [flushBuf]

/-- A failed write leaves what the kernel took beyond the buffer, not all of the
    bytes, behind everything written before. -/
theorem logical_writeAllFails {f' : FileState} {n : Nat} (h : f.writeAllFails bytes n = some f') :
    f'.linked = f.linked ∧ n - f.buffer.length < bytes.length ∧
      f'.logical = f.logical ++ bytes.take (n - f.buffer.length) := by
  unfold writeAllFails at h
  split at h
  · cases h
  · split at h
    · rename_i hflush
      cases h
      have hzero : n - f.buffer.length = 0 := by omega
      refine ⟨rfl, ?_, by simp [logical, hzero]⟩
      simp only [bufCapacity] at *
      omega
    · by_cases hspare : bytes.length > bufCapacity - f.buffer.length
      · simp only [hspare, if_true] at h
        split at h <;> cases h
        rename_i hn
        exact ⟨rfl, hn.2, by simp [logical, flushBuf]⟩
      · simp only [hspare, if_false] at h
        split at h <;> cases h
        rename_i hn
        -- the write would fill the buffer exactly; it is direct, so the buffer is empty
        have hnil : f.buffer = [] := by
          apply List.eq_nil_of_length_eq_zero
          simp only [bufCapacity] at *
          omega
        exact ⟨rfl, hn.2, by simp [logical, hnil]⟩

/-- A failed flush moves bytes from the buffer to the kernel, and loses none. -/
theorem logical_flushFails {f' : FileState} {n : Nat} (h : f.flushFails n = some f') :
    f'.linked = f.linked ∧ f'.logical = f.logical := by
  unfold flushFails at h
  split at h
  · cases h
    exact ⟨rfl, by simp [logical]⟩
  · cases h

theorem content_prefix_writeAllFails {f' : FileState} {n : Nat}
    (h : f.writeAllFails bytes n = some f') : f.content <+: f'.content := by
  unfold writeAllFails at h
  split at h
  · cases h
  · split at h
    · cases h
      exact List.prefix_append ..
    · by_cases hspare : bytes.length > bufCapacity - f.buffer.length
      · simp only [hspare, if_true] at h
        split at h <;> cases h
        simp [flushBuf]
      · simp only [hspare, if_false] at h
        split at h <;> cases h
        exact List.prefix_append ..

theorem content_prefix_flushFails {f' : FileState} {n : Nat} (h : f.flushFails n = some f') :
    f.content <+: f'.content := by
  unfold flushFails at h
  split at h <;> cases h
  exact List.prefix_append ..

theorem content_prefix_logical : f.content <+: f.logical := List.prefix_append ..

theorem content_eq_logical {f : FileState} (h : f.buffer = []) : f.content = f.logical := by
  simp [logical, h]

end FileState

/-! ## The tables -/

namespace FileTable

variable (t : FileTable) (id id' : FileId) (g : FileState → FileState)

theorem lookup_modify_self : (t.modify id g).lookup id = (t.lookup id).map g := by
  unfold modify
  cases h : t.lookup id with
  | none => simp [h]
  | some s => simp

theorem lookup_modify_of_ne {id id' : FileId} (h : id' ≠ id) :
    (t.modify id g).lookup id' = t.lookup id' := by
  unfold modify
  cases t.lookup id with
  | none => rfl
  | some s => exact AList.lookup_insert_ne h

theorem lookup_modify :
    (t.modify id g).lookup id' = if id' = id then (t.lookup id).map g else t.lookup id' := by
  split
  · rename_i h
    rw [h, lookup_modify_self]
  · rename_i h
    exact lookup_modify_of_ne t g h

theorem lookup_create_of_ne {id id' : FileId} (h : id' ≠ id) :
    (t.create id).lookup id' = t.lookup id' := by
  unfold create
  split
  · split <;> exact AList.lookup_insert_ne h
  · exact AList.lookup_insert_ne h

/-- A file opened for appending has nothing in its buffer. -/
theorem lookup_create_self :
    ∃ f, (t.create id).lookup id = some f ∧ f.linked = true ∧ f.buffer = [] := by
  unfold create
  split
  · split
    · rename_i hlinked
      exact ⟨_, AList.lookup_insert _, hlinked, rfl⟩
    · exact ⟨_, AList.lookup_insert _, rfl, rfl⟩
  · exact ⟨_, AList.lookup_insert _, rfl, rfl⟩

/-- An id no file has gives an empty file. -/
theorem lookup_create_of_none {id : FileId} (h : t.lookup id = none) :
    (t.create id).lookup id = some .fresh := by
  unfold create
  simp [h]

theorem lookup_createTruncated :
    (t.createTruncated id).lookup id' = if id' = id then some .fresh else t.lookup id' := by
  unfold createTruncated
  split
  · rename_i h
    rw [h, AList.lookup_insert]
  · rename_i h
    exact AList.lookup_insert_ne h

/-- The listing has exactly the ids of linked files. -/
theorem mem_discover : id ∈ t.discover ↔ ∃ f, t.lookup id = some f ∧ f.linked = true := by
  unfold discover
  rw [List.mem_insertionSort, List.mem_map]
  constructor
  · rintro ⟨p, hp, rfl⟩
    obtain ⟨hmem, hlinked⟩ := List.mem_filter.mp hp
    exact ⟨p.2, AList.mem_lookup_iff.mpr hmem, by simpa using hlinked⟩
  · rintro ⟨f, hf, hlinked⟩
    exact ⟨⟨id, f⟩, List.mem_filter.mpr ⟨AList.mem_lookup_iff.mp hf, by simpa using hlinked⟩, rfl⟩

/-- The listing is strictly ascending. -/
theorem pairwise_discover : t.discover.Pairwise (· < ·) := by
  have hle : t.discover.Pairwise (· ≤ ·) := List.pairwise_insertionSort (· ≤ ·) _
  have hnodup : t.discover.Nodup := by
    unfold discover
    rw [List.Perm.nodup_iff (List.perm_insertionSort ..)]
    exact (t.keys_nodup).sublist (List.Sublist.map Sigma.fst List.filter_sublist)
  exact (hle.and hnodup).imp fun h => lt_of_le_of_ne h.1 h.2

end FileTable

end Yabiir
