/-
  Yabiir.World

  The state the engine's threads share and the atomic operations they act on it
  with: keydir operations, each under the keydir's lock; system calls on data
  and hint files; the file-id counter; the sections that run under the
  active-file lock, each one atomic operation for the other threads.

  An operation's meaning is `perform` where nothing goes wrong and `fault`
  where the system call fails.  `crash` is what a killed process leaves behind.
-/

import Yabiir.Lib.Method
import Yabiir.Lib.Pool
import Yabiir.Recovery

namespace Yabiir

open Format

/-! ## Shared state -/

/-- `Options`, less the metrics sink. -/
structure Options where
  isReadWrite : Bool
  shouldSyncOnPut : Bool
  maxFileSize : Nat
  deriving DecidableEq, Repr

/-- The counters of `GroupCommit` (`src/commit.rs`, `State`). -/
structure CommitState where
  pendingWrites : Nat
  maxDurableGeneration : Nat
  isSyncing : Bool
  deriving DecidableEq, Repr

def CommitState.new : CommitState := ⟨0, 0, false⟩

/-- `GroupCommit::record_pending`; the generation is the new count. -/
def CommitState.recordPending (c : CommitState) : Nat × CommitState :=
  (c.pendingWrites + 1, { c with pendingWrites := c.pendingWrites + 1 })

/-- `GroupCommit::mark_all_durable`. -/
def CommitState.markAllDurable (c : CommitState) : CommitState :=
  { c with maxDurableGeneration := c.pendingWrites }

/-- The engine of one process on one directory, with two fields for the record:
    how many file ids were ever allotted in the directory, and whether the
    kernel ever refused a write for making a file too long. -/
structure World where
  opts : Options
  disk : Disk
  keydir : Keydir
  active : ActiveFile
  nextFileId : Nat
  /-- The ids whose read handle is cached (`DataFileSet::readers`). -/
  readers : List FileId
  commit : CommitState
  allotted : Nat
  refused : Bool

/-- `u32` arithmetic in a release build. -/
def wrapU32 (n : Nat) : Nat := n % 2 ^ 32

/-! ## Operations -/

/-- The sections under the active-file lock: `Engine::append`'s, the reading of
    the active id in `collect_input_ids`, and `restore_active_file`'s. -/
inductive Section where
  | append (maxFileSize : Nat) (encoded : EncodedEntry)
  | activeFileId
  | restoreActive (highestOutputId : FileId)

/-- The atomic operations. -/
inductive Op where
  | keydirGet (key : Bytes)
  /-- `keydir.get(key).is_some_and(|kd| kd.file_id == .. && kd.value_pos == ..)`,
      merge's liveness check of one entry. -/
  | keydirIsLive (key : Bytes) (fileId : FileId) (valuePos : Nat)
  | keydirInsert (key : Bytes) (entry : KeydirEntry)
  | keydirRemove (key : Bytes)
  | keydirCasRepoint (key : Bytes) (expectedOld new : KeydirEntry)
  | keydirSnapshot
  | discover
  | fetchAddFileId
  /-- Open the data file in append mode, creating it if need be; its length. -/
  | createData (id : FileId)
  | createHint (id : FileId)
  | writeData (id : FileId) (bytes : Bytes)
  | writeHint (id : FileId) (bytes : Bytes)
  | flushData (id : FileId)
  | flushHint (id : FileId)
  | syncData (id : FileId)
  | readFile (id : FileId)
  | removeData (id : FileId)
  | removeHint (id : FileId)
  | forget (id : FileId)
  | openReader (id : FileId)
  | pread (id : FileId) (pos len : Nat)
  | recordPending
  | markAllDurable
  | getActive
  | setActive (active : ActiveFile)
  | locked (s : Section)
  /-- `GroupCommit::commit`: return once the generation is durable. -/
  | commit (generation : Nat)

@[reducible] def Section.Res : Section → Type
  | .append .. => Except IoError (FileId × Nat × Nat)
  | .activeFileId => FileId
  | .restoreActive _ => Except IoError Unit

@[reducible] def Op.Res : Op → Type
  | .keydirGet _ => Option KeydirEntry
  | .keydirIsLive .. => Bool
  | .keydirInsert .. => Unit
  | .keydirRemove _ => Unit
  | .keydirCasRepoint .. => Bool
  | .keydirSnapshot => List (Bytes × KeydirEntry)
  | .discover => Except IoError (List FileId)
  | .fetchAddFileId => FileId
  | .createData _ => Except IoError Nat
  | .createHint _ => Except IoError Unit
  | .writeData .. => Except IoError Unit
  | .writeHint .. => Except IoError Unit
  | .flushData _ => Except IoError Unit
  | .flushHint _ => Except IoError Unit
  | .syncData _ => Except IoError Unit
  | .readFile _ => Except IoError Bytes
  | .removeData _ => Except IoError Unit
  | .removeHint _ => Except IoError Unit
  | .forget _ => Unit
  | .openReader _ => Except IoError Unit
  | .pread .. => Except IoError Bytes
  | .recordPending => Nat
  | .markAllDurable => Unit
  | .getActive => ActiveFile
  | .setActive _ => Unit
  | .locked s => s.Res
  | .commit _ => Except IoError Unit

/-- A journal of operations. -/
abbrev Journal := Prog.Journal Op Op.Res

/-- A method of the engine with state `σ` and errors `ε`. -/
abbrev EngineM (σ ε α : Type) := Method Op Op.Res σ ε α

/-- Perform an operation and read its result as `f` does. -/
def readOp {σ ε α : Type} (o : Op) (f : Op.Res o → α) : EngineM σ ε α :=
  Method.op o >>= fun r => pure (f r)

/-- Perform an operation with a result of Rust's `io::Result` type, and `?`. -/
def ioOp {σ α : Type} (o : Op) (f : Op.Res o → Except IoError α) : EngineM σ IoError α :=
  Method.op o >>= fun r => Method.ofExcept (f r)

@[simp] theorem run_readOp {σ ε α ω : Type} (perform : (o : Op) → ω → Op.Res o × ω) (o : Op)
    (f : Op.Res o → α) (s : σ) (w : ω) :
    (readOp o f : EngineM σ ε α).run perform s w
      = ((.ok (f (perform o w).1), s), (perform o w).2) := rfl

theorem run_ioOp {σ α ω : Type} (perform : (o : Op) → ω → Op.Res o × ω) (o : Op)
    (f : Op.Res o → Except IoError α) (s : σ) (w : ω) :
    (ioOp o f : EngineM σ IoError α).run perform s w
      = ((f (perform o w).1, s), (perform o w).2) := by
  unfold ioOp
  rw [Method.run_bind, Method.run_op]
  exact Method.run_ofExcept perform _ _ _

theorem only_readOp {P : Op → Prop} {σ ε α : Type} {o : Op} (ho : P o) {f : Op.Res o → α} {s : σ} :
    Method.Only P (readOp o f : EngineM σ ε α) s :=
  Method.Only.bind (Method.Only.op ho) fun _ _ => trivial

theorem only_ioOp {P : Op → Prop} {σ α : Type} {o : Op} (ho : P o)
    {f : Op.Res o → Except IoError α} {s : σ} : Method.Only P (ioOp o f : EngineM σ IoError α) s :=
  Method.Only.bind (Method.Only.op ho) fun _ _ =>
    Method.Spec.ofExcept (fun _ _ => trivial) fun _ _ => trivial

namespace World

variable (w : World)

/-- Change the file `id` among the data files. -/
def modifyData (id : FileId) (f : FileState → FileState) : World :=
  { w with disk := { w.disk with data := w.disk.data.modify id f } }

/-- Change the file `id` among the hint files. -/
def modifyHint (id : FileId) (f : FileState → FileState) : World :=
  { w with disk := { w.disk with hint := w.disk.hint.modify id f } }

/-- A write that would make the file longer than the kernel allows. -/
def tooLong (t : FileTable) (id : FileId) (bytes : Bytes) : Bool :=
  match t.lookup id with
  | none => false
  | some f => maxFileLen < f.logical.length + bytes.length

/-- Open the data file `id` in append mode; its length. -/
def createData (id : FileId) : Nat × World :=
  let data := w.disk.data.create id
  (((data.lookup id).map fun f => f.content.length).getD 0,
    { w with disk := { w.disk with data } })

/-- The counter's `fetch_add(1)`. -/
def fetchAddFileId : FileId × World :=
  (w.nextFileId, { w with nextFileId := wrapU32 (w.nextFileId + 1), allotted := w.allotted + 1 })

/-- The content a reader of file `id` sees, through a new or a cached handle. -/
def contentOf (id : FileId) : Bytes := ((w.disk.data.lookup id).map FileState.content).getD []

end World

theorem lookup_modifyData {w : World} {id : FileId} {file : FileState} {g : FileState → FileState}
    (h : w.disk.data.lookup id = some file) :
    (w.modifyData id g).disk.data.lookup id = some (g file) := by
  rw [World.modifyData, FileTable.lookup_modify_self, h]
  rfl

theorem lookup_modifyHint {w : World} {id : FileId} {file : FileState} {g : FileState → FileState}
    (h : w.disk.hint.lookup id = some file) :
    (w.modifyHint id g).disk.hint.lookup id = some (g file) := by
  rw [World.modifyHint, FileTable.lookup_modify_self, h]
  rfl

/-- The effect of an operation in which nothing goes wrong, sections apart. -/
def performBase : (o : Op) → World → Op.Res o × World
  | .keydirGet key, w => (w.keydir.get key, w)
  | .keydirIsLive key fileId valuePos, w =>
    ((w.keydir.get key).any fun kd => kd.fileId == fileId && kd.valuePos == valuePos, w)
  | .keydirInsert key entry, w => ((), { w with keydir := w.keydir.put key entry })
  | .keydirRemove key, w => ((), { w with keydir := w.keydir.remove key })
  | .keydirCasRepoint key old new, w =>
    ((w.keydir.casRepoint key old new).1,
      { w with keydir := (w.keydir.casRepoint key old new).2 })
  | .keydirSnapshot, w => (w.keydir.snapshot, w)
  | .discover, w => (.ok w.disk.data.discover, w)
  | .fetchAddFileId, w => w.fetchAddFileId
  | .createData id, w => (.ok (w.createData id).1, (w.createData id).2)
  | .createHint id, w =>
    (.ok (), { w with disk := { w.disk with hint := w.disk.hint.createTruncated id } })
  | .writeData id bytes, w =>
    if World.tooLong w.disk.data id bytes then (.error .fileTooLarge, { w with refused := true })
    else (.ok (), w.modifyData id (·.writeAll bytes))
  | .writeHint id bytes, w =>
    if World.tooLong w.disk.hint id bytes then (.error .fileTooLarge, { w with refused := true })
    else (.ok (), w.modifyHint id (·.writeAll bytes))
  | .flushData id, w => (.ok (), w.modifyData id .flushBuf)
  | .flushHint id, w => (.ok (), w.modifyHint id .flushBuf)
  | .syncData id, w => (.ok (), w.modifyData id .syncData)
  | .readFile id, w =>
    match w.disk.data.open? id with
    | none => (.error .notFound, w)
    | some f => (.ok f.content, w)
  | .removeData id, w =>
    match w.disk.data.open? id with
    | none => (.error .notFound, w)
    | some _ => (.ok (), w.modifyData id .unlink)
  | .removeHint id, w =>
    match w.disk.hint.open? id with
    | none => (.error .notFound, w)
    | some _ => (.ok (), w.modifyHint id .unlink)
  | .forget id, w => ((), { w with readers := w.readers.filter (· ≠ id) })
  | .openReader id, w =>
    if id ∈ w.readers then (.ok (), w)
    else
      match w.disk.data.open? id with
      | none => (.error .notFound, w)
      | some _ => (.ok (), { w with readers := id :: w.readers })
  | .pread id pos len, w => (preadExact (w.contentOf id) pos len, w)
  | .recordPending, w =>
    (w.commit.recordPending.1, { w with commit := w.commit.recordPending.2 })
  | .markAllDurable, w => ((), { w with commit := w.commit.markAllDurable })
  | .getActive, w => (w.active, w)
  | .setActive active, w => ((), { w with active })
  -- the lock is not reentrant: no section runs another
  | .locked (.append ..), w => (.error .injected, w)
  | .locked .activeFileId, w => (w.active.fileId, w)
  | .locked (.restoreActive _), w => (.error .injected, w)
  -- the leader flushes and syncs the file that is active by then
  | .commit generation, w =>
    if generation ≤ w.commit.maxDurableGeneration then (.ok (), w)
    else
      (.ok (), { w.modifyData w.active.fileId fun f => f.flushBuf.syncData with
        commit := w.commit.markAllDurable })

/-! ## The active file's methods -/

namespace ActiveFile

/-- Create the active file for `fileId`, or resume at the length of an existing
    one. -/
def create {σ : Type} (fileId : FileId) : EngineM σ IoError ActiveFile := do
  let offset ← ioOp (.createData fileId) id
  return { fileId, offset }

/-- Write one encoded entry into the buffer, without flushing; the file id, the
    position of the value and the entry's length. -/
def writeUnflushed (encoded : EncodedEntry) : EngineM ActiveFile IoError (FileId × Nat × Nat) := do
  let active ← Method.get
  ioOp (.writeData active.fileId encoded.bytes) id
  let totalLen := encoded.bytes.length
  let valuePos := active.offset + (totalLen - encoded.valueLen)
  Method.modify fun a => { a with offset := a.offset + totalLen }
  return (active.fileId, valuePos, totalLen)

/-- Write one entry and flush. -/
def append (encoded : EncodedEntry) : EngineM ActiveFile IoError (FileId × Nat × Nat) := do
  let result ← writeUnflushed encoded
  let active ← Method.get
  ioOp (.flushData active.fileId) id
  return result

/-- Write one entry for a caller that flushes once per batch. -/
def appendBuffered (encoded : EncodedEntry) : EngineM ActiveFile IoError (FileId × Nat × Nat) :=
  writeUnflushed encoded

def flushOnly : EngineM ActiveFile IoError Unit := do
  let active ← Method.get
  ioOp (.flushData active.fileId) id

/-- Flush and fsync. -/
def sync : EngineM ActiveFile IoError Unit := do
  let active ← Method.get
  ioOp (.flushData active.fileId) id
  ioOp (.syncData active.fileId) id

end ActiveFile

/-! ## The sections under the active-file lock -/

/-- Replace the active file by a new one, once the old one is synced. -/
def rotateActive : EngineM ActiveFile IoError Unit := do
  ActiveFile.sync
  readOp .markAllDurable id
  let newId : FileId ← readOp .fetchAddFileId id
  let active ← ActiveFile.create newId
  Method.modify fun _ => active

/-- `Engine::append`, under the lock. -/
def appendSection (maxFileSize : Nat) (encoded : EncodedEntry) :
    EngineM ActiveFile IoError (FileId × Nat × Nat) := do
  let (fileId, valuePos, _) ← ActiveFile.append encoded
  let targetGen : Nat ← readOp .recordPending id
  let active ← Method.get
  if active.len ≥ maxFileSize then rotateActive
  return (fileId, valuePos, targetGen)

/-- `restore_active_file`, under the lock. -/
def restoreSection (highestOutputId : FileId) : EngineM ActiveFile IoError Unit := do
  let active ← Method.get
  if active.fileId ≤ highestOutputId then rotateActive

/-- Run a method on the locked active file. -/
def withActive {α : Type} (m : EngineM ActiveFile IoError α) : Prog Op Op.Res (Except IoError α) :=
  .act .getActive fun active => m active >>= fun (r, active) => .act (.setActive active) fun _ =>
    .ret r

/-- The program of a section. -/
def Section.code : (s : Section) → Prog Op Op.Res s.Res
  | .append maxFileSize encoded => withActive (appendSection maxFileSize encoded)
  | .activeFileId => .act .getActive fun active => .ret active.fileId
  | .restoreActive highestOutputId => withActive (restoreSection highestOutputId)

/-- The effect of an operation in which nothing goes wrong.  A section runs to
    its end under the lock. -/
def perform : (o : Op) → World → Op.Res o × World
  | .locked s, w => s.code.exec performBase w
  | o, w => performBase o w

/-! ## Failing operations -/

/-- How an operation goes wrong: in a section, the number of the inner operation
    that fails; how many bytes of a write, or whether the name of a file to be
    created, made it before the error. -/
structure Fault where
  step : Nat
  wrote : Nat
  deriving DecidableEq, Repr

/-- The effect of an operation that fails with an I/O error. -/
def faultBase (f : Fault) : (o : Op) → World → Option (Op.Res o × World)
  | .discover, w => some (.error .injected, w)
  | .createData id, w =>
    some (.error .injected, if f.wrote = 0 then w else (w.createData id).2)
  | .createHint id, w =>
    some (.error .injected, if f.wrote = 0 then w
      else { w with disk := { w.disk with hint := w.disk.hint.createTruncated id } })
  | .writeData id bytes, w =>
    (w.disk.data.lookup id).bind fun s => (s.writeAllFails bytes f.wrote).map fun s' =>
      (.error .injected, w.modifyData id fun _ => s')
  | .writeHint id bytes, w =>
    (w.disk.hint.lookup id).bind fun s => (s.writeAllFails bytes f.wrote).map fun s' =>
      (.error .injected, w.modifyHint id fun _ => s')
  | .flushData id, w =>
    (w.disk.data.lookup id).bind fun s => (s.flushFails f.wrote).map fun s' =>
      (.error .injected, w.modifyData id fun _ => s')
  | .flushHint id, w =>
    (w.disk.hint.lookup id).bind fun s => (s.flushFails f.wrote).map fun s' =>
      (.error .injected, w.modifyHint id fun _ => s')
  | .syncData _, w => some (.error .injected, w)
  | .readFile _, w => some (.error .injected, w)
  | .removeData _, w => some (.error .injected, w)
  | .removeHint _, w => some (.error .injected, w)
  | .openReader _, w => some (.error .injected, w)
  | .pread .., w => some (.error .injected, w)
  | .commit generation, w =>
    if generation ≤ w.commit.maxDurableGeneration then none
    else (w.disk.data.lookup w.active.fileId).map fun s =>
      (.error .injected, w.modifyData w.active.fileId fun _ => (s.flushFails f.wrote).getD s.flushBuf)
  | _, _ => none

def fault (f : Fault) : (o : Op) → World → Option (Op.Res o × World)
  | .locked s, w => s.code.execFault performBase (faultBase f) f.step w
  | o, w => faultBase f o w

/-! ## Opening a directory -/

/-- `Engine::open` on a directory in which `allotted` ids were allotted before. -/
def World.open [Crc32Fast] (disk : Disk) (opts : Options) (allotted : Nat) (refused : Bool) :
    World :=
  let fileIds := disk.data.discover
  let keydir := recover disk fileIds ∅
  let nextId := match fileIds.getLast? with
    | none => 0
    | some id => wrapU32 (id + 1)
  let w : World :=
    { opts, disk, keydir, active := ⟨nextId, 0⟩, nextFileId := wrapU32 (nextId + 1), readers := []
      commit := .new, allotted := allotted + 1, refused }
  if opts.isReadWrite then
    { (w.createData nextId).2 with active := ⟨nextId, (w.createData nextId).1⟩ }
  else w

/-! ## Crashes -/

/-- What a write in flight may get to the kernel before the process is killed
    is taken to be in the buffer. -/
def World.begin (w : World) : Op → World
  | .writeData id bytes => w.modifyData id fun f => { f with buffer := f.buffer ++ bytes }
  | .writeHint id bytes => w.modifyHint id fun f => { f with buffer := f.buffer ++ bytes }
  | _ => w

/-- How a process is killed and started again: how far the section in flight
    had come, how many bytes beyond the kernel's each file keeps, and the
    options of the next `Engine::open`. -/
structure Restart where
  stage : Nat
  keepData : FileId → Nat
  keepHint : FileId → Nat
  opts : Options

/-- A file after the process writing it is gone: `keep` bytes of the write in
    flight persist, the rest of the buffer is lost. -/
def FileState.cut (f : FileState) (keep : Nat) : FileState :=
  { f with content := f.content ++ f.buffer.take keep, buffer := [] }

/-- The files of a table after a crash: those the directory still names. -/
def FileTable.cut (t : FileTable) (keep : FileId → Nat) : FileTable :=
  ⟨(t.entries.filter fun p => p.2.linked).map fun p => ⟨p.1, p.2.cut (keep p.1)⟩, by
    have hkeys : ((t.entries.filter fun p => p.2.linked).map
        fun p => (⟨p.1, p.2.cut (keep p.1)⟩ : Sigma fun _ : FileId => FileState)).keys
          = (t.entries.filter fun p => p.2.linked).keys := by
      simp [List.keys, Function.comp_def]
    rw [List.NodupKeys, hkeys]
    exact t.keys_nodup.sublist (List.Sublist.map Sigma.fst List.filter_sublist)⟩

/-- The world at stage `stage` of the operation in flight, its write begun. -/
def World.interrupted (w : World) (stage : Nat) : Op → World
  | .locked s =>
    match (s.code.visits performBase w)[stage]? with
    | some (w', o) => w'.begin o
    | none => w
  | o => w.begin o

/-- The directory a killed process leaves. -/
def World.crash (w : World) (r : Restart) : Disk where
  data := w.disk.data.cut r.keepData
  hint := w.disk.hint.cut r.keepHint

/-- Kill the process with at most one operation in flight, and open the
    directory again. -/
def restart [Crc32Fast] (r : Restart) (w : World) (inFlight : List Op) : Option World :=
  match inFlight with
  | [] => some (.open (w.crash r) r.opts w.allotted w.refused)
  | [o] =>
    let w := w.interrupted r.stage o
    some (.open (w.crash r) r.opts w.allotted w.refused)
  | _ => none

end Yabiir
