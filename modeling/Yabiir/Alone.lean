/-
  Yabiir.Alone

  Calls made while no other is, in closed form.
-/

import Yabiir.Calls
import Yabiir.Directory

namespace Yabiir

open Format

namespace World

variable (w : World)

/-- The keydir replaced. -/
def publish (keydir : Keydir) : World := { w with keydir }

/-- An entry appended, with a rotation and a `commit` where the options say so. -/
def stored (bytes : Bytes) : World :=
  let w' := w.appendRotate w.opts.maxFileSize bytes
  if w.opts.shouldSyncOnPut then (perform (.commit (w.commit.pendingWrites + 1)) w').2 else w'

@[simp] theorem keydir_appendRotate (maxFileSize : Nat) (bytes : Bytes) :
    (w.appendRotate maxFileSize bytes).keydir = w.keydir := by
  unfold appendRotate
  split <;> rfl

end World

/-- Without faults a `commit` succeeds. -/
theorem perform_commit (generation : Nat) (w : World) :
    (perform (.commit generation) w).1 = .ok () ∧
      (perform (.commit generation) w).2.keydir = w.keydir := by
  simp only [perform, performBase]
  split <;> exact ⟨rfl, rfl⟩

theorem World.keydir_stored (w : World) (bytes : Bytes) : (w.stored bytes).keydir = w.keydir := by
  unfold World.stored
  dsimp only
  split
  · rw [(perform_commit _ _).2, w.keydir_appendRotate]
  · exact w.keydir_appendRotate _ _

section

variable {w : World} {encoded : EncodedEntry}

/-- `Engine::append` where the kernel takes the write. -/
theorem run_append (hrw : w.opts.isReadWrite = true)
    (hshort : World.tooLong w.disk.data w.active.fileId encoded.bytes = false) :
    (Engine.append w.opts encoded).run perform () w
      = ((.ok (w.active.fileId, w.active.offset + (encoded.bytes.length - encoded.valueLen)), ()),
          w.stored encoded.bytes) := by
  have happend := perform_append w.opts.maxFileSize encoded w hshort
  unfold Engine.append World.stored
  cases hsync : w.opts.shouldSyncOnPut with
  | false => simp [hrw, Method.run_bind, run_liftIo, run_ioOp, happend, Except.mapError]
  | true =>
    have hcommit := (perform_commit (w.commit.pendingWrites + 1)
      (w.appendRotate w.opts.maxFileSize encoded.bytes)).1
    simp [hrw, Method.run_bind, run_liftIo, run_ioOp, happend, hcommit, Except.mapError]

theorem run_append_tooLong (hrw : w.opts.isReadWrite = true)
    (hlong : World.tooLong w.disk.data w.active.fileId encoded.bytes = true) :
    (Engine.append w.opts encoded).run perform () w
      = ((.error (.io .fileTooLarge), ()), { w with refused := true }) := by
  have happend := perform_append_tooLong w.opts.maxFileSize encoded w hlong
  unfold Engine.append
  simp [hrw, Method.run_bind, run_liftIo, run_ioOp, happend, Except.mapError]

end

section

variable [Crc32Fast] {w : World} {key : Bytes}

/-! ## Gets -/

/-- A get, operation by operation. -/
theorem get_prog (opts : Options) (key : Bytes) :
    Engine.code opts (.get key) = .act (.keydirGet key) fun
      | none => .ret (.value (.ok none))
      | some entry => .act (.openReader entry.fileId) fun
        | .error e => .ret (.value (.error (.io e)))
        | .ok _ => .act (.pread entry.fileId entry.valuePos entry.valueSize) fun
          | .error e => .ret (.value (.error (.io e)))
          | .ok value => .ret (.value (.ok (some value))) := by
  refine congrArg (Prog.act _) (funext fun entry => ?_)
  cases entry with
  | none => rfl
  | some entry =>
    refine congrArg (Prog.act _) (funext fun r => ?_)
    cases r with
    | error e => rfl
    | ok _ =>
      refine congrArg (Prog.act _) (funext fun r => ?_)
      cases r <;> rfl

theorem call_get_none (h : w.keydir.get key = none) :
    (w.call (.get key)).1 = .value (.ok none) := by
  have hget : perform (.keydirGet key) w = (none, w) := congrArg (·, w) h
  rw [World.call, get_prog, Prog.exec, hget]
  rfl

/-! ## Puts and deletes -/

theorem call_put_empty (value : Bytes) (timestamp : UInt32) :
    w.call (.put [] value timestamp) = (.unit (.error .emptyKey), w) := rfl

theorem call_delete_empty (timestamp : UInt32) :
    w.call (.delete [] timestamp) = (.unit (.error .emptyKey), w) := rfl

/-- A put the kernel takes. -/
theorem call_put (hrw : w.opts.isReadWrite = true) (hkey : key ≠ []) {value : Bytes}
    {timestamp : UInt32} (hshort : World.tooLong w.disk.data w.active.fileId
      (encodeEntry key value false timestamp).bytes = false) :
    w.call (.put key value timestamp)
      = (.unit (.ok ()), (w.stored (encodeEntry key value false timestamp).bytes).publish
          (w.keydir.put key (putEntry value timestamp (w.active.fileId, w.active.offset
            + ((encodeEntry key value false timestamp).bytes.length - value.length))))) := by
  have hrun := run_append hrw hshort
  have hkeydir := w.keydir_stored (encodeEntry key value false timestamp).bytes
  unfold World.call Engine.code Engine.put Engine.requireWrite
  rw [exec_toProg]
  simp only [List.isEmpty_iff, hkey, if_false, hrw, if_true, Method.run_bind, Method.run_pure, hrun,
    run_readOp]
  rw [← hkeydir]
  rfl

/-- A put the kernel refuses. -/
theorem call_put_tooLong (hrw : w.opts.isReadWrite = true) (hkey : key ≠ []) {value : Bytes}
    {timestamp : UInt32} (hlong : World.tooLong w.disk.data w.active.fileId
      (encodeEntry key value false timestamp).bytes = true) :
    w.call (.put key value timestamp)
      = (.unit (.error (.io .fileTooLarge)), { w with refused := true }) := by
  have hrun := run_append_tooLong hrw hlong
  unfold World.call Engine.code Engine.put Engine.requireWrite
  rw [exec_toProg]
  simp only [List.isEmpty_iff, hkey, if_false, hrw, if_true, Method.run_bind, Method.run_pure, hrun]

/-- Deleting a key that is not there. -/
theorem call_delete_none (hrw : w.opts.isReadWrite = true) (hkey : key ≠ []) (timestamp : UInt32)
    (hkd : w.keydir.get key = none) : w.call (.delete key timestamp) = (.unit (.ok ()), w) := by
  have hget : perform (.keydirGet key) w = (none, w) := congrArg (·, w) hkd
  unfold World.call Engine.code Engine.delete Engine.requireWrite
  rw [exec_toProg]
  simp [hkey, hrw, Method.run_bind, Method.run_pure, hget]

/-- A delete the kernel takes. -/
theorem call_delete (hrw : w.opts.isReadWrite = true) (hkey : key ≠ []) {timestamp : UInt32}
    {entry : KeydirEntry} (hkd : w.keydir.get key = some entry)
    (hshort : World.tooLong w.disk.data w.active.fileId
      (encodeEntry key [] true timestamp).bytes = false) :
    w.call (.delete key timestamp)
      = (.unit (.ok ()), (w.stored (encodeEntry key [] true timestamp).bytes).publish
          (w.keydir.remove key)) := by
  have hget : perform (.keydirGet key) w = (some entry, w) := congrArg (·, w) hkd
  have hrun := run_append hrw hshort
  have hkeydir := w.keydir_stored (encodeEntry key [] true timestamp).bytes
  unfold World.call Engine.code Engine.delete Engine.requireWrite
  rw [exec_toProg]
  simp only [List.isEmpty_iff, hkey, if_false, hrw, if_true, Method.run_bind, Method.run_pure, hrun,
    run_readOp, hget, id, Option.isNone_some, Bool.false_eq_true]
  rw [← hkeydir]
  rfl

/-- A delete the kernel refuses. -/
theorem call_delete_tooLong (hrw : w.opts.isReadWrite = true) (hkey : key ≠ []) {timestamp : UInt32}
    {entry : KeydirEntry} (hkd : w.keydir.get key = some entry)
    (hlong : World.tooLong w.disk.data w.active.fileId
      (encodeEntry key [] true timestamp).bytes = true) :
    w.call (.delete key timestamp)
      = (.unit (.error (.io .fileTooLarge)), { w with refused := true }) := by
  have hget : perform (.keydirGet key) w = (some entry, w) := congrArg (·, w) hkd
  have hrun := run_append_tooLong hrw hlong
  unfold World.call Engine.code Engine.delete Engine.requireWrite
  rw [exec_toProg]
  simp only [List.isEmpty_iff, hkey, if_false, hrw, if_true, Method.run_bind, Method.run_pure, hrun,
    run_readOp, hget, id, Option.isNone_some, Bool.false_eq_true]

/-! ## Listing and folding -/

theorem call_listKeys (w : World) :
    w.call .listKeys = (.keys (.ok (w.keydir.snapshot.map Prod.fst)), w) := rfl

omit [Crc32Fast] in
/-- A fold over entries that can all be read. -/
theorem run_foldLoop {value : Bytes × KeydirEntry → Bytes} (pairs : List (Bytes × KeydirEntry))
    (w : World) (hread : ∀ p ∈ pairs, w.Opens p.2.fileId ∧ w.Holds p.2 (value p))
    (acc : List (Bytes × Bytes)) :
    ∃ readers, (Engine.foldLoop (fun key value acc => acc ++ [(key, value)]) pairs acc).run perform ()
        w = ((.ok (acc ++ pairs.map fun p => (p.1, value p)), ()), { w with readers }) := by
  induction pairs generalizing w acc with
  | nil => exact ⟨w.readers, by simp [Engine.foldLoop]⟩
  | cons p pairs ih =>
    obtain ⟨readers, hreaders, hw, hr⟩ := run_readValue p.2 w
    have hvalue := (hr (value p)).mpr (hread p List.mem_cons_self)
    have hrun : (Engine.readValue p.2).run perform () w = ((.ok (value p), ()), { w with readers }) := by
      rw [← hw, ← hvalue]
    obtain ⟨readers', hrest⟩ := ih { w with readers } (fun q hq => by
      obtain ⟨hopens, hholds⟩ := hread q (List.mem_cons_of_mem _ hq)
      exact ⟨hopens.imp_left (hreaders _), hholds⟩) (acc ++ [(p.1, value p)])
    refine ⟨readers', ?_⟩
    unfold Engine.foldLoop
    rw [Method.run_bind_ok perform hrun, hrest]
    simp

theorem call_fold (value : Bytes × KeydirEntry → Bytes) (w : World)
    (hread : ∀ p ∈ w.keydir.snapshot, w.Opens p.2.fileId ∧ w.Holds p.2 (value p)) :
    ∃ readers, w.call .fold
      = (.pairs (.ok (w.keydir.snapshot.map fun p => (p.1, value p))), { w with readers }) := by
  have hsnapshot : perform .keydirSnapshot w = (w.keydir.snapshot, w) := rfl
  obtain ⟨readers, hrun⟩ := run_foldLoop w.keydir.snapshot w hread []
  refine ⟨readers, ?_⟩
  unfold World.call Engine.code Engine.fold
  rw [exec_toProg, Method.run_bind, run_readOp, hsnapshot]
  simp only [id, hrun, List.nil_append]

end

end Yabiir
