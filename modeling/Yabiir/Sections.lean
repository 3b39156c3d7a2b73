/-
  Yabiir.Sections

  The sections under the active-file lock in closed form: what an append, a
  rotation and `restore_active_file` do to the world, as one step each.
-/

import Yabiir.World

namespace Yabiir

open Format

namespace World

variable (w : World)

/-- The active file flushed and synced. -/
def activeSynced : World := w.modifyData w.active.fileId fun f => f.flushBuf.syncData

/-- The next id claimed, with everything so far durable. -/
def rotating : World :=
  (({ w.activeSynced with commit := w.commit.markAllDurable } : World).fetchAddFileId).2

/-- The active file replaced by a new one. -/
def rotated : World :=
  { (w.rotating.createData w.nextFileId).2 with
    active := ⟨w.nextFileId, (w.rotating.createData w.nextFileId).1⟩ }

/-- Bytes appended to the active file and flushed. -/
def appended (bytes : Bytes) : World :=
  { w.modifyData w.active.fileId fun f => (f.writeAll bytes).flushBuf with
    active := { w.active with offset := w.active.offset + bytes.length }
    commit := w.commit.recordPending.2 }

/-- `Engine::append`'s section where the write is not refused. -/
def appendRotate (maxFileSize : Nat) (bytes : Bytes) : World :=
  if (w.appended bytes).active.len ≥ maxFileSize then (w.appended bytes).rotated
  else w.appended bytes

end World

theorem modify_modify (t : FileTable) (id : FileId) (f g : FileState → FileState) :
    (t.modify id f).modify id g = t.modify id fun s => g (f s) := by
  unfold FileTable.modify
  cases h : t.lookup id with
  | none => simp [h]
  | some s => simp [AList.insert_insert]

theorem run_sync (active : ActiveFile) (w : World) :
    ActiveFile.sync.run performBase active w
      = ((.ok (), active), w.modifyData active.fileId fun f => f.flushBuf.syncData) := by
  unfold ActiveFile.sync
  simp [Method.run_bind, run_ioOp, performBase, World.modifyData, modify_modify]

theorem exec_withActive {α : Type} (m : EngineM ActiveFile IoError α) (w : World) :
    (withActive m).exec performBase w
      = ((m.run performBase w.active w).1.1,
          { (m.run performBase w.active w).2 with
            active := (m.run performBase w.active w).1.2 }) := by
  unfold withActive
  rw [Prog.exec, Prog.exec_bind]
  rfl

/-- In a world whose private copy of the active file is `active`, a rotation does
    what it does to the world itself. -/
theorem run_rotateActive_of (w w' : World) (hw : w' = { w with active := w'.active }) :
    rotateActive.run performBase w.active w'
      = ((.ok (), w.rotated.active), { w.rotated with active := w'.active }) := by
  rw [hw]
  unfold rotateActive ActiveFile.create
  simp [Method.run_bind, run_ioOp, run_sync, performBase, World.rotated, World.rotating,
    World.activeSynced, World.fetchAddFileId, World.createData, World.modifyData]

/-- Writing and flushing bytes the kernel takes, on a private copy of the active file. -/
theorem run_appendActive (encoded : EncodedEntry) (w : World)
    (h : World.tooLong w.disk.data w.active.fileId encoded.bytes = false) :
    (ActiveFile.append encoded).run performBase w.active w
      = ((.ok (w.active.fileId, w.active.offset + (encoded.bytes.length - encoded.valueLen),
          encoded.bytes.length), (w.appended encoded.bytes).active),
        { w.appended encoded.bytes with active := w.active, commit := w.commit }) := by
  unfold ActiveFile.append ActiveFile.writeUnflushed
  simp [Method.run_bind, run_ioOp, performBase, h, World.modifyData, modify_modify,
    World.appended]

theorem run_appendActive_tooLong (encoded : EncodedEntry) (w : World)
    (h : World.tooLong w.disk.data w.active.fileId encoded.bytes = true) :
    (ActiveFile.append encoded).run performBase w.active w
      = ((.error .fileTooLarge, w.active), { w with refused := true }) := by
  unfold ActiveFile.append ActiveFile.writeUnflushed
  simp [Method.run_bind, run_ioOp, performBase, h]

/-- An append the kernel takes: the file and the position of the value, the
    generation, and the world after it. -/
theorem perform_append (maxFileSize : Nat) (encoded : EncodedEntry) (w : World)
    (h : World.tooLong w.disk.data w.active.fileId encoded.bytes = false) :
    perform (.locked (.append maxFileSize encoded)) w
      = (.ok (w.active.fileId, w.active.offset + (encoded.bytes.length - encoded.valueLen),
          w.commit.pendingWrites + 1), w.appendRotate maxFileSize encoded.bytes) := by
  have hpending : (readOp .recordPending id : EngineM ActiveFile IoError Nat).run performBase
        (w.appended encoded.bytes).active
        { w.appended encoded.bytes with active := w.active, commit := w.commit }
      = ((.ok (w.commit.pendingWrites + 1), (w.appended encoded.bytes).active),
        { w.appended encoded.bytes with active := w.active }) := rfl
  rw [perform, Section.code, exec_withActive]
  unfold appendSection World.appendRotate
  rw [Method.run_bind_ok performBase (run_appendActive encoded w h), Method.run_bind_ok performBase hpending]
  by_cases hfull : (w.appended encoded.bytes).active.len ≥ maxFileSize
  · have hrotate := run_rotateActive_of (w.appended encoded.bytes)
      { w.appended encoded.bytes with active := w.active } rfl
    simp [Method.run_bind, hfull, hrotate]
  · simp [Method.run_bind, hfull]

theorem perform_append_tooLong (maxFileSize : Nat) (encoded : EncodedEntry) (w : World)
    (h : World.tooLong w.disk.data w.active.fileId encoded.bytes = true) :
    perform (.locked (.append maxFileSize encoded)) w
      = (.error .fileTooLarge, { w with refused := true }) := by
  rw [perform, Section.code, exec_withActive]
  unfold appendSection
  simp [Method.run_bind, run_appendActive_tooLong encoded w h]

theorem perform_restoreActive (highestOutputId : FileId) (w : World) :
    perform (.locked (.restoreActive highestOutputId)) w
      = (.ok (), if w.active.fileId ≤ highestOutputId then w.rotated else w) := by
  rw [perform, Section.code, exec_withActive]
  unfold restoreSection
  by_cases h : w.active.fileId ≤ highestOutputId
  · simp [Method.run_bind, h, run_rotateActive_of w w rfl]
  · simp [Method.run_bind, h]

/-- `restore_active_file`, operation by operation. -/
theorem withActive_restoreSection (h : FileId) :
    withActive (restoreSection h) = .act .getActive fun a =>
      if a.fileId ≤ h then
        .act (.flushData a.fileId) fun
          | .error e => .act (.setActive a) fun _ => .ret (.error e)
          | .ok _ => .act (.syncData a.fileId) fun
            | .error e => .act (.setActive a) fun _ => .ret (.error e)
            | .ok _ => .act .markAllDurable fun _ => .act .fetchAddFileId fun newId =>
              .act (.createData newId) fun
                | .error e => .act (.setActive a) fun _ => .ret (.error e)
                | .ok offset => .act (.setActive ⟨newId, offset⟩) fun _ => .ret (.ok ())
      else .act (.setActive a) fun _ => .ret (.ok ()) := by
  unfold withActive
  refine congrArg (Prog.act _) (funext fun a => ?_)
  change ((if a.fileId ≤ h then rotateActive else pure () : EngineM ActiveFile IoError Unit) a
    >>= _) = _
  by_cases hle : a.fileId ≤ h
  · rw [if_pos hle, if_pos hle]
    refine congrArg (Prog.act _) (funext fun r => ?_)
    cases r with
    | error e => rfl
    | ok _ =>
      refine congrArg (Prog.act _) (funext fun r => ?_)
      cases r with
      | error e => rfl
      | ok _ =>
        refine congrArg (Prog.act _) (funext fun _ => congrArg (Prog.act _) (funext fun newId =>
          congrArg (Prog.act _) (funext fun r => ?_)))
        cases r <;> rfl
  · rw [if_neg hle, if_neg hle]
    rfl

/-- How `restore_active_file` fails, on an active file with nothing buffered:
    before anything changed, with an id claimed, or with its file created too.
    The active file stays what it was. -/
theorem fault_restoreActive {f : Fault} {h : FileId} {w w' : World} {r : Except IoError Unit}
    (hbuffer : ∀ st, w.disk.data.lookup w.active.fileId = some st → st.buffer = [])
    (hf : fault f (.locked (.restoreActive h)) w = some (r, w')) :
    r = .error .injected ∧
      (w' = w.modifyData w.active.fileId .flushBuf ∨ w' = w.rotating ∨
        w' = (w.rotating.createData w.nextFileId).2) := by
  obtain ⟨step, wrote⟩ := f
  unfold fault Section.code at hf
  dsimp only at hf
  rw [withActive_restoreSection] at hf
  by_cases hle : w.active.fileId ≤ h
  · rcases step with _ | _ | _ | _ | _ | _ | _ | step
    all_goals
      simp [Prog.execFault, Prog.exec, faultBase, performBase, hle, Option.bind_eq_some_iff] at hf
    · exfalso
      obtain ⟨st, hst, s', hs', -⟩ := hf
      simp [FileState.flushFails, hbuffer st hst] at hs'
    · obtain ⟨rfl, rfl⟩ := hf
      exact ⟨rfl, Or.inl rfl⟩
    · obtain ⟨rfl, rfl⟩ := hf
      refine ⟨rfl, Or.inr ?_⟩
      by_cases hw : wrote = 0
      · left
        simp [hw, World.rotating, World.activeSynced, World.modifyData, World.fetchAddFileId,
          modify_modify]
      · right
        simp [hw, World.rotating, World.activeSynced, World.modifyData, World.fetchAddFileId,
          modify_modify, World.createData]
  · rcases step with _ | _ | step
    all_goals simp [Prog.execFault, faultBase, performBase, hle] at hf
/-! ## The files after a section -/

namespace World

variable (w : World) (bytes : Bytes)

@[simp] theorem hint_rotated : w.rotated.disk.hint = w.disk.hint := rfl
@[simp] theorem keydir_rotated : w.rotated.keydir = w.keydir := rfl
@[simp] theorem opts_rotated : w.rotated.opts = w.opts := rfl
@[simp] theorem nextFileId_rotated : w.rotated.nextFileId = wrapU32 (w.nextFileId + 1) := rfl
@[simp] theorem allotted_rotated : w.rotated.allotted = w.allotted + 1 := rfl
@[simp] theorem refused_rotated : w.rotated.refused = w.refused := rfl
@[simp] theorem fileId_rotated : w.rotated.active.fileId = w.nextFileId := rfl

@[simp] theorem hint_appended : (w.appended bytes).disk.hint = w.disk.hint := rfl
@[simp] theorem keydir_appended : (w.appended bytes).keydir = w.keydir := rfl
@[simp] theorem opts_appended : (w.appended bytes).opts = w.opts := rfl
@[simp] theorem nextFileId_appended : (w.appended bytes).nextFileId = w.nextFileId := rfl
@[simp] theorem allotted_appended : (w.appended bytes).allotted = w.allotted := rfl
@[simp] theorem refused_appended : (w.appended bytes).refused = w.refused := rfl
@[simp] theorem fileId_appended : (w.appended bytes).active.fileId = w.active.fileId := rfl

variable {id : FileId}

theorem lookup_rotating : w.rotating.disk.data.lookup id
    = if id = w.active.fileId then (w.disk.data.lookup id).map fun f => f.flushBuf.syncData
      else w.disk.data.lookup id := by
  refine (FileTable.lookup_modify w.disk.data w.active.fileId id _).trans ?_
  split
  · rename_i h
    rw [h]
  · rfl

theorem lookup_rotated_of_ne (h : id ≠ w.nextFileId) :
    w.rotated.disk.data.lookup id = w.rotating.disk.data.lookup id :=
  FileTable.lookup_create_of_ne _ h

theorem lookup_rotated_self (hne : w.nextFileId ≠ w.active.fileId)
    (h : w.disk.data.lookup w.nextFileId = none) :
    w.rotated.disk.data.lookup w.nextFileId = some .fresh := by
  refine FileTable.lookup_create_of_none _ ?_
  rw [lookup_rotating, if_neg hne, h]

theorem lookup_appended : (w.appended bytes).disk.data.lookup id
    = if id = w.active.fileId then (w.disk.data.lookup id).map fun f => (f.writeAll bytes).flushBuf
      else w.disk.data.lookup id := by
  refine (FileTable.lookup_modify w.disk.data w.active.fileId id _).trans ?_
  split
  · rename_i h
    rw [h]
  · rfl

end World

/-! ## Appends that fail -/

/-- A rotation, operation by operation, and what comes after it. -/
theorem rotateActive_bind {α : Type} (a : ActiveFile)
    (k : Except IoError Unit × ActiveFile → Prog Op Op.Res α) :
    (rotateActive a >>= k) = .act (.flushData a.fileId) fun
      | .error e => k (.error e, a)
      | .ok _ => .act (.syncData a.fileId) fun
        | .error e => k (.error e, a)
        | .ok _ => .act .markAllDurable fun _ => .act .fetchAddFileId fun newId =>
          .act (.createData newId) fun
            | .error e => k (.error e, a)
            | .ok offset => k (.ok (), ⟨newId, offset⟩) := by
  refine congrArg (Prog.act _) (funext fun r => ?_)
  cases r with
  | error e => rfl
  | ok _ =>
    refine congrArg (Prog.act _) (funext fun r => ?_)
    cases r with
    | error e => rfl
    | ok _ =>
      refine congrArg (Prog.act _) (funext fun _ => congrArg (Prog.act _) (funext fun newId =>
        congrArg (Prog.act _) (funext fun r => ?_)))
      cases r <;> rfl

/-- `Engine::append`'s section, operation by operation. -/
theorem withActive_appendSection (n : Nat) (encoded : EncodedEntry) :
    withActive (appendSection n encoded) = .act .getActive fun a =>
      .act (.writeData a.fileId encoded.bytes) fun
        | .error e => .act (.setActive a) fun _ => .ret (.error e)
        | .ok _ => .act (.flushData a.fileId) fun
          | .error e => .act (.setActive { a with offset := a.offset + encoded.bytes.length })
              fun _ => .ret (.error e)
          | .ok _ => .act .recordPending fun targetGen =>
            if a.offset + encoded.bytes.length ≥ n then
              rotateActive { a with offset := a.offset + encoded.bytes.length } >>= fun x =>
                .act (.setActive x.2) fun _ => .ret (x.1.map fun _ =>
                  (a.fileId, a.offset + (encoded.bytes.length - encoded.valueLen), targetGen))
            else .act (.setActive { a with offset := a.offset + encoded.bytes.length }) fun _ =>
              .ret (.ok
                (a.fileId, a.offset + (encoded.bytes.length - encoded.valueLen), targetGen)) := by
  unfold withActive
  refine congrArg (Prog.act _) (funext fun a => congrArg (Prog.act _) (funext fun r => ?_))
  cases r with
  | error e => rfl
  | ok _ =>
    refine congrArg (Prog.act _) (funext fun r => ?_)
    cases r with
    | error e => rfl
    | ok _ =>
      refine congrArg (Prog.act _) (funext fun targetGen => ?_)
      by_cases hfull : a.offset + encoded.bytes.length ≥ n
      · rw [if_pos hfull]
        show ((if a.offset + encoded.bytes.length ≥ n then rotateActive >>= fun _ =>
            pure (a.fileId, a.offset + (encoded.bytes.length - encoded.valueLen), targetGen)
          else pure (a.fileId, a.offset + (encoded.bytes.length - encoded.valueLen), targetGen) :
            EngineM ActiveFile IoError (FileId × Nat × Nat))
              { a with offset := a.offset + encoded.bytes.length } >>= _) = _
        rw [if_pos hfull]
        refine (Prog.bind_assoc (rotateActive _) _ _).trans ?_
        refine congrArg _ (funext fun x => ?_)
        obtain ⟨r, a'⟩ := x
        cases r <;> rfl
      · rw [if_neg hfull]
        show ((if a.offset + encoded.bytes.length ≥ n then rotateActive >>= fun _ =>
            pure (a.fileId, a.offset + (encoded.bytes.length - encoded.valueLen), targetGen)
          else pure (a.fileId, a.offset + (encoded.bytes.length - encoded.valueLen), targetGen) :
            EngineM ActiveFile IoError (FileId × Nat × Nat))
              { a with offset := a.offset + encoded.bytes.length } >>= _) = _
        rw [if_neg hfull]
        rfl

/-- How an append fails once its entry is written and flushed: it was to rotate, and does
    as `restore_active_file` does where that fails. -/
theorem fault_append {f : Fault} {n : Nat} {encoded : EncodedEntry} {w w' : World}
    {r : Except IoError (FileId × Nat × Nat)} (hstep : 3 ≤ f.step)
    (hshort : World.tooLong w.disk.data w.active.fileId encoded.bytes = false)
    (hf : fault f (.locked (.append n encoded)) w = some (r, w')) :
    r = .error .injected ∧ fault { f with step := f.step - 3 }
      (.locked (.restoreActive w.active.fileId)) (w.appended encoded.bytes)
        = some (.error .injected, w') := by
  obtain ⟨step, wrote⟩ := f
  obtain ⟨step, rfl⟩ := Nat.exists_eq_add_of_le' hstep
  unfold fault Section.code at hf ⊢
  dsimp only at hf ⊢
  rw [withActive_appendSection] at hf
  rw [withActive_restoreSection]
  have hget : performBase .getActive w = (w.active, w) := rfl
  have hwrite : performBase (.writeData w.active.fileId encoded.bytes) w
      = (.ok (), w.modifyData w.active.fileId (·.writeAll encoded.bytes)) := by
    simp [performBase, hshort]
  have hflush : ∀ id v, performBase (.flushData id) v = (.ok (), v.modifyData id .flushBuf) :=
    fun _ _ => rfl
  have hpending : performBase .recordPending
      ((w.modifyData w.active.fileId (·.writeAll encoded.bytes)).modifyData w.active.fileId
        .flushBuf)
        = (w.commit.pendingWrites + 1, { w.appended encoded.bytes with active := w.active }) := by
    simp [performBase, World.appended, World.modifyData, modify_modify, CommitState.recordPending]
  rw [Prog.execFault_succ hget, Prog.execFault_succ hwrite, Prog.execFault_succ (hflush _ _)] at hf
  rcases step with _ | step
  · cases hf
  rw [Prog.execFault_succ hpending] at hf
  by_cases hfull : w.active.offset + encoded.bytes.length ≥ n
  · rw [if_pos hfull, rotateActive_bind] at hf
    rcases step with _ | _ | _ | _ | _ | _ | step
    all_goals simp [Prog.execFault, Prog.exec, faultBase, performBase] at hf ⊢
    · -- nothing is left in the buffer
      obtain ⟨file, hl, hf⟩ := Option.bind_eq_some_iff.mp hf
      obtain ⟨file', hfails, -⟩ := Option.map_eq_some_iff.mp hf
      rw [World.lookup_appended, if_pos rfl] at hl
      obtain ⟨old, -, rfl⟩ := Option.map_eq_some_iff.mp hl
      simp [FileState.flushFails, FileState.flushBuf] at hfails
    · obtain ⟨rfl, rfl⟩ := hf
      exact ⟨rfl, rfl⟩
    · obtain ⟨rfl, rfl⟩ := hf
      refine ⟨rfl, ?_⟩
      split <;> rfl
  · rw [if_neg hfull] at hf
    rcases step with _ | step <;> simp [Prog.execFault, faultBase] at hf

/-- An append the kernel refuses performs nothing after its write. -/
theorem fault_append_tooLong {f : Fault} {n : Nat} {encoded : EncodedEntry} {w : World}
    (hstep : 3 ≤ f.step)
    (hlong : World.tooLong w.disk.data w.active.fileId encoded.bytes = true) :
    fault f (.locked (.append n encoded)) w = none := by
  obtain ⟨step, wrote⟩ := f
  obtain ⟨step, rfl⟩ := Nat.exists_eq_add_of_le' hstep
  have hget : performBase .getActive w = (w.active, w) := rfl
  have hwrite : performBase (.writeData w.active.fileId encoded.bytes) w
      = (.error .fileTooLarge, { w with refused := true }) := by
    simp [performBase, hlong]
  unfold fault Section.code
  dsimp only
  rw [withActive_appendSection, Prog.execFault_succ hget, Prog.execFault_succ hwrite]
  cases step <;> rfl

end Yabiir
