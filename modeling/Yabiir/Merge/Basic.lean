/-
  Yabiir.Merge.Basic

  Compaction (`src/merge/mod.rs`, `output_writer.rs`, `pending_queue.rs`): copy
  the live entries of every non-active data file into fresh files, each with a
  hint file, repoint the keydir once their bytes are flushed, remove the input
  files, and make the active file the newest one again.
-/

import Yabiir.World

namespace Yabiir

open Format

variable [Crc32Fast]

/-! ## The output writer -/

/-- How many live entries the output writer writes between flushes. -/
def mergeFlushBatchSize : Nat := 256

/-- Writes a data file and its hint file; both have the id of `currentData`.
    `hintCrc` holds what the running checksum of the hint file was fed. -/
structure MergeOutputWriter where
  maxFileSize : Nat
  currentData : ActiveFile
  hintCrc : Bytes
  pendingSinceFlush : Nat
  deriving DecidableEq, Repr

namespace MergeOutputWriter

abbrev WriterM := EngineM MergeOutputWriter IoError

/-- Run a method of the current data file. -/
def onData {α : Type} (m : EngineM ActiveFile IoError α) : WriterM α :=
  Method.onPart currentData (fun a w => { w with currentData := a }) m

omit [Crc32Fast] in
/-- Claim an id, create the data file, then the hint file. -/
def openOutput {σ : Type} : EngineM σ IoError ActiveFile := do
  let fileId : FileId ← readOp .fetchAddFileId id
  let data ← ActiveFile.create fileId
  ioOp (.createHint fileId) id
  return data

def new {σ : Type} (maxFileSize : Nat) : EngineM σ IoError MergeOutputWriter := do
  let currentData ← openOutput
  return { maxFileSize, currentData, hintCrc := [], pendingSinceFlush := 0 }

def currentFileId (w : MergeOutputWriter) : FileId := w.currentData.fileId

def isReadyToFlush (w : MergeOutputWriter) : Bool := w.pendingSinceFlush ≥ mergeFlushBatchSize

def isReadyToRotate (w : MergeOutputWriter) : Bool := w.currentData.len ≥ w.maxFileSize

/-- A flush without fsync, at a batch boundary. -/
def flushBatch : WriterM Unit := do
  onData ActiveFile.flushOnly
  Method.modify fun w => { w with pendingSinceFlush := 0 }

/-- Write the trailing checksum behind the records, then flush. -/
def closeCurrentHintFile : WriterM Unit := do
  let w ← Method.get
  let crc := Crc32Fast.hash w.hintCrc
  Method.modify fun w => { w with hintCrc := [] }
  ioOp (.writeHint w.currentFileId (toLeBytes 4 crc.toNat)) id
  ioOp (.flushHint w.currentFileId) id

def rotate : WriterM Unit := do
  onData ActiveFile.sync
  closeCurrentHintFile
  let data ← openOutput
  Method.modify fun w => { w with currentData := data, hintCrc := [], pendingSinceFlush := 0 }

/-- Whether everything written so far is flushed afterwards. -/
def rotateOrFlush : WriterM Bool := do
  let w ← Method.get
  if w.isReadyToRotate then
    rotate
    return true
  else if w.isReadyToFlush then
    flushBatch
    return true
  else return false

/-- Write one live entry and its hint record; the file id, the position of the
    value, and whether all pending entries' bytes are flushed now. -/
def writeLiveEntry (entry : Entry) : WriterM (FileId × Nat × Bool) := do
  let encoded := encodeEntry entry.key entry.value false entry.header.timestamp
  let (fileId, valuePos, _) ← onData (ActiveFile.appendBuffered encoded)
  let hint := encodeHint entry.key entry.header valuePos
  let w ← Method.get
  ioOp (.writeHint w.currentFileId hint) id
  Method.modify fun w =>
    { w with hintCrc := w.hintCrc ++ hint, pendingSinceFlush := w.pendingSinceFlush + 1 }
  let flushed ← rotateOrFlush
  return (fileId, valuePos, flushed)

def finish : WriterM Unit := do
  onData ActiveFile.sync
  closeCurrentHintFile

/-- Dropping the writer: each `BufWriter` flushes what it holds and ignores the
    outcome.  After a successful `finish` both hold nothing. -/
def drop {σ ε : Type} (w : MergeOutputWriter) : EngineM σ ε Unit := do
  readOp (.flushData w.currentFileId) fun _ => ()
  readOp (.flushHint w.currentFileId) fun _ => ()

end MergeOutputWriter

/-! ## The pending queue -/

/-- Repoints not yet applied: the key, the entry expected, the entry to put. -/
abbrev PendingQueue := List (Bytes × KeydirEntry × KeydirEntry)

/-- Queue the repoint of an entry copied from `fileId` to `newFileId`. -/
def PendingQueue.queue (pending : PendingQueue) (entry : Entry) (fileId newFileId : FileId)
    (entryValuePos newValuePos : Nat) : PendingQueue :=
  let timestamp := entry.header.timestamp
  let valueSize := entry.header.valueSize
  pending ++ [(entry.key,
    { fileId, valueSize, valuePos := entryValuePos, timestamp },
    { fileId := newFileId, valueSize, valuePos := newValuePos, timestamp })]

/-! ## The merge -/

/-- The locals of a merge in progress. -/
structure MergeState where
  writer : MergeOutputWriter
  highestOutputId : FileId
  pending : PendingQueue
  liveEntriesCopied : Nat
  deriving DecidableEq, Repr

abbrev MergeM := EngineM MergeState IoError

/-- Run a method of the output writer. -/
def onWriter {α : Type} (m : MergeOutputWriter.WriterM α) : MergeM α :=
  Method.onPart MergeState.writer (fun w s => { s with writer := w }) m

omit [Crc32Fast] in
/-- The files to compact: all below the active one. -/
def collectInputIds {σ : Type} : EngineM σ IoError (List FileId) := do
  let activeIdAtStart : FileId ← readOp (.locked .activeFileId) id
  let ids ← ioOp .discover id
  return ids.filter (· < activeIdAtStart)

/-- The loop of `apply_pending_repoints`. -/
def repointAll : PendingQueue → MergeM Unit
  | [] => pure ()
  | (key, old, new) :: rest => do
    let _done : Bool ← readOp (.keydirCasRepoint key old new) id
    repointAll rest

/-- Drain the queue, repointing the keydir for each. -/
def applyPendingRepoints : MergeM Unit := do
  let s ← Method.get
  Method.modify fun s => { s with pending := [] }
  repointAll s.pending

/-- The loop over one input file's entries; the greatest output id so far. -/
def copyEntries (fileId : FileId) : List (Nat × Entry) → FileId → MergeM FileId
  | [], maxOutputId => pure maxOutputId
  | (offset, entry) :: rest, maxOutputId =>
    if entry.isTombstone then copyEntries fileId rest maxOutputId
    else do
      let valuePos := valuePosOf offset entry
      let isLive : Bool ← readOp (.keydirIsLive entry.key fileId valuePos) id
      if !isLive then copyEntries fileId rest maxOutputId
      else do
        let (newFileId, newValuePos, flushed) ← onWriter (MergeOutputWriter.writeLiveEntry entry)
        let s ← Method.get
        let maxOutputId := max maxOutputId s.writer.currentFileId
        Method.modify fun s =>
          { s with
            liveEntriesCopied := s.liveEntriesCopied + 1
            pending := s.pending.queue entry fileId newFileId valuePos newValuePos }
        if flushed then applyPendingRepoints
        copyEntries fileId rest maxOutputId

/-- Copy the live entries of one input file. -/
def copyForwardLiveFileEntries (fileId : FileId) : MergeM Unit := do
  let s ← Method.get
  let bytes ← ioOp (.readFile fileId) id
  let maxOutputId ← copyEntries fileId (readAllEntries bytes) s.highestOutputId
  Method.modify fun s => { s with highestOutputId := maxOutputId }

def copyForwardAllLiveEntries : List FileId → MergeM Unit
  | [] => pure ()
  | fileId :: rest => do
    copyForwardLiveFileEntries fileId
    copyForwardAllLiveEntries rest

/-- Finish the last output file, then repoint the final partial batch. -/
def finishAndApplyPendingRepoints : MergeM Unit := do
  onWriter MergeOutputWriter.finish
  applyPendingRepoints

omit [Crc32Fast] in
/-- Remove the input files; errors are ignored. -/
def removeOldInputFiles {σ ε : Type} : List FileId → EngineM σ ε Unit
  | [] => pure ()
  | fileId :: rest => do
    readOp (.removeData fileId) fun _ => ()
    readOp (.removeHint fileId) fun _ => ()
    readOp (.forget fileId) id
    removeOldInputFiles rest

omit [Crc32Fast] in
def restoreActiveFile {σ : Type} (highestOutputId : FileId) : EngineM σ IoError Unit :=
  ioOp (.locked (.restoreActive highestOutputId)) id

/-- Run a method on a fresh local state; its outcome and the final state. -/
def withLocals {σ τ ε ε' α : Type} (init : τ) (m : EngineM τ ε α) :
    EngineM σ ε' (Except ε α × τ) :=
  fun s => m init >>= fun r => .ret (.ok r, s)

omit [Crc32Fast] in
theorem run_withLocals {σ τ ε ε' α ω : Type} (perform : (o : Op) → ω → Op.Res o × ω) (init : τ)
    (m : EngineM τ ε α) (s : σ) (w : ω) :
    (withLocals init m : EngineM σ ε' (Except ε α × τ)).run perform s w
      = ((.ok (m.run perform init w).1, s), (m.run perform init w).2) := by
  unfold withLocals Method.run
  rw [Prog.exec_bind]
  rfl

/-- `merge`, with the output writer dropped where copying or finishing fails. -/
def merge (maxFileSize : Nat) : EngineM Unit IoError Unit := do
  let inputIds ← collectInputIds
  if inputIds.isEmpty then return ()
  let writer ← MergeOutputWriter.new maxFileSize
  let (result, s) ← withLocals
    { writer, highestOutputId := writer.currentFileId, pending := [], liveEntriesCopied := 0 }
    (do
      copyForwardAllLiveEntries inputIds
      finishAndApplyPendingRepoints)
  match result with
  | .error e =>
    s.writer.drop
    Method.fail e
  | .ok () =>
    removeOldInputFiles inputIds
    restoreActiveFile s.highestOutputId

end Yabiir
