/-
  Yabiir.Directory

  A directory as the bytes of its files, the engine opened on it, and calls made
  on that engine one after the other.
-/

import Yabiir.Engine
import Yabiir.Sections

namespace Yabiir

open Format

/-- The bytes of the data files and of the hint files, by id. -/
structure Directory where
  data : AList fun _ : FileId => Bytes
  hint : AList fun _ : FileId => Bytes

/-- A file with nothing buffered. -/
def FileState.ofBytes (bytes : Bytes) : FileState := ⟨bytes, [], true, bytes.length⟩

def FileTable.ofBytes (t : AList fun _ : FileId => Bytes) : FileTable where
  entries := t.entries.map fun p => ⟨p.1, .ofBytes p.2⟩
  nodupKeys := by
    have hkeys : (t.entries.map fun p =>
        (⟨p.1, .ofBytes p.2⟩ : Sigma fun _ : FileId => FileState)).keys = t.entries.keys := by
      simp [List.keys, Function.comp_def]
    rw [List.NodupKeys, hkeys]
    exact t.nodupKeys

theorem FileTable.lookup_ofBytes (t : AList fun _ : FileId => Bytes) (id : FileId) :
    (FileTable.ofBytes t).lookup id = (t.lookup id).map .ofBytes :=
  List.dlookup_map₂ (f := fun _ => FileState.ofBytes) id

def Directory.disk (d : Directory) : Disk := ⟨.ofBytes d.data, .ofBytes d.hint⟩

/-- The ids that were given out: all up to the greatest of a data file. -/
def Directory.allotted (d : Directory) : Nat :=
  match d.disk.data.discover.getLast? with
  | none => 0
  | some id => id + 1

/-- `Engine::open`. -/
def Directory.open [Crc32Fast] (d : Directory) (opts : Options) : World :=
  .open d.disk opts d.allotted false

/-- A call made while no other is. -/
def World.call [Crc32Fast] (w : World) (c : Call) : Resp × World :=
  (Engine.code w.opts c).exec perform w

/-! ## What readers find -/

namespace World

variable (w : World)

/-- The directory names the data file `id`. -/
def Linked (id : FileId) : Prop := ∃ data, w.disk.data.open? id = some data

/-- Who reads file `id` gets a handle: one is cached, or the file can be opened. -/
def Opens (id : FileId) : Prop := id ∈ w.readers ∨ w.Linked id

/-- The value bytes `entry` points at are `value`. -/
def Holds (entry : KeydirEntry) (value : Bytes) : Prop :=
  preadExact (w.contentOf entry.fileId) entry.valuePos entry.valueSize = .ok value

end World

theorem exec_toProg {α : Type} (m : EngineM Unit Error α) (resp : Except Error α → Resp)
    (w : World) : (Engine.toProg m resp).exec perform w
      = (resp (m.run perform () w).1.1, (m.run perform () w).2) := by
  rw [Engine.toProg, Prog.exec_bind]
  rfl

theorem run_liftIo {σ α : Type} (m : EngineM σ IoError α) (s : σ) (w : World) :
    (Engine.liftIo m).run perform s w
      = (((m.run perform s w).1.1.mapError .io, (m.run perform s w).1.2), (m.run perform s w).2) := by
  show Prog.exec perform (m s >>= _) w = _
  rw [Prog.exec_bind]
  rcases h : (m s).exec perform w with ⟨⟨r, s'⟩, w'⟩
  have hrun : m.run perform s w = ((r, s'), w') := h
  rw [hrun]
  cases r <;> rfl

/-- Opening a reader: the handle is there, or is put there, or there is no file. -/
theorem perform_openReader (w : World) (id : FileId) :
    ∃ readers, (∀ id ∈ w.readers, id ∈ readers) ∧
      (perform (.openReader id) w).2 = { w with readers } ∧
      ((perform (.openReader id) w).1 = .ok () ∧ w.Opens id ∨
        (perform (.openReader id) w).1 = .error .notFound ∧ ¬ w.Opens id) := by
  simp only [perform, performBase]
  split
  · rename_i hcached
    exact ⟨w.readers, fun _ h => h, rfl, Or.inl ⟨rfl, Or.inl hcached⟩⟩
  · rename_i hcached
    split
    · rename_i hnone
      refine ⟨w.readers, fun _ h => h, rfl, Or.inr ⟨rfl, ?_⟩⟩
      rintro (h | ⟨data, h⟩)
      · exact hcached h
      · cases hnone.symm.trans h
    · rename_i data hopen
      exact ⟨id :: w.readers, fun _ h => List.mem_cons_of_mem _ h, rfl,
        Or.inl ⟨rfl, Or.inr ⟨data, hopen⟩⟩⟩

/-- Reading a value: the bytes, if the file can be opened and is long enough. -/
theorem run_readValue (entry : KeydirEntry) (w : World) :
    ∃ readers, (∀ id ∈ w.readers, id ∈ readers) ∧
      ((Engine.readValue entry).run perform () w).2 = { w with readers } ∧
      ∀ value, ((Engine.readValue entry).run perform () w).1.1 = .ok value ↔
        w.Opens entry.fileId ∧ w.Holds entry value := by
  obtain ⟨readers, hreaders, hw, hr⟩ := perform_openReader w entry.fileId
  rcases hperform : perform (.openReader entry.fileId) w with ⟨r, w'⟩
  rw [hperform] at hw hr
  obtain rfl : w' = { w with readers } := hw
  refine ⟨readers, hreaders, ?_⟩
  unfold Engine.readValue
  rw [Method.run_bind, run_liftIo, run_ioOp, hperform]
  rcases hr with ⟨rfl, hopens⟩ | ⟨rfl, hopens⟩
  · have hpread : perform (.pread entry.fileId entry.valuePos entry.valueSize) { w with readers }
        = (preadExact (w.contentOf entry.fileId) entry.valuePos entry.valueSize,
            { w with readers }) := rfl
    simp only [id, Except.mapError, run_liftIo, run_ioOp, hpread]
    refine ⟨trivial, fun value => ?_⟩
    unfold World.Holds
    cases preadExact (w.contentOf entry.fileId) entry.valuePos entry.valueSize <;> simp [hopens]
  · exact ⟨rfl, fun value => ⟨fun h => (by cases h), fun h => absurd h.1 hopens⟩⟩

section

variable [Crc32Fast] (w : World) (key : Bytes)

/-- What a get answers; it does no more than open the file. -/
theorem call_get : ∃ readers, (∀ id ∈ w.readers, id ∈ readers) ∧
    (w.call (.get key)).2 = { w with readers } ∧
    ∀ value, (w.call (.get key)).1 = .value (.ok (some value)) ↔
      ∃ entry, w.keydir.get key = some entry ∧ w.Opens entry.fileId ∧ w.Holds entry value := by
  have hget : perform (.keydirGet key) w = (w.keydir.get key, w) := rfl
  unfold World.call Engine.code Engine.get
  rw [exec_toProg, Method.run_bind, run_readOp, hget]
  cases hkd : w.keydir.get key with
  | none => exact ⟨w.readers, fun _ h => h, rfl, fun value => by simp [Method.run_pure]⟩
  | some entry =>
    obtain ⟨readers, hreaders, hw, hr⟩ := run_readValue entry w
    rcases hrun : (Engine.readValue entry).run perform () w with ⟨⟨r, s⟩, w'⟩
    rw [hrun] at hw hr
    refine ⟨readers, hreaders, ?_⟩
    simp only [id, Method.run_bind, hrun]
    cases r with
    | error e =>
      refine ⟨hw, fun value => ⟨fun h => by simp at h, fun ⟨entry', he, hopens⟩ => ?_⟩⟩
      cases he
      cases (hr value).mpr hopens
    | ok v =>
      refine ⟨hw, fun value => ?_⟩
      simp [← hr]

end

end Yabiir
