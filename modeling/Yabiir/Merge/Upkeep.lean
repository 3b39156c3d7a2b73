/-
  Yabiir.Merge.Upkeep

  Three more rules that a merge keeps: it begins an output only once the one
  before is at least `max_file_size` long; it removes the hint file of an input
  right after its data file; and restoring the active file is its last operation.
-/

import Yabiir.Merge.Claims
import Yabiir.Merge.Follows

namespace Yabiir

open Format

/-- How long the data file of the current output is, the input whose data file was
    removed last and whose hint file is still to be removed, and whether the
    active file was restored. -/
structure Upkeep where
  length : Option Nat
  owed : Option FileId
  restored : Bool
  deriving DecidableEq, Repr

namespace Upkeep

/-- Before the first output. -/
def init : Upkeep := ⟨none, none, false⟩

/-- Nothing is owed, and the active file is yet to be restored. -/
structure Idle (u : Upkeep) : Prop where
  owed : u.owed = none
  restored : u.restored = false

/-- The three rules. -/
def protocol (maxFileSize : Nat) : Prog.Protocol Op Op.Res Upkeep
  | u, .fetchAddFileId, _, u' =>
    u.Idle ∧ (∀ n ∈ u.length, maxFileSize ≤ n) ∧ u' = { u with length := none }
  | u, .createData _, r, u' =>
    u.Idle ∧ u' = { u with
      length := match r with
        | .ok base => some base
        | .error _ => none }
  | u, .writeData _ bytes, r, u' =>
    u.Idle ∧ u' = match r with
      | .ok _ => { u with length := u.length.map (· + bytes.length) }
      | .error _ => u
  | u, .removeData f, _, u' => u.Idle ∧ u' = { u with owed := some f }
  | u, .removeHint f, _, u' => u.owed = some f ∧ u.restored = false ∧ u' = { u with owed := none }
  | u, .locked (.restoreActive _), _, u' => u.Idle ∧ u' = { u with restored := true }
  | u, _, _, u' => u.Idle ∧ u' = u

/-- An operation none of the rules is about. -/
def ignores : Op → Bool
  | .fetchAddFileId | .createData _ | .writeData .. | .removeData _ | .removeHint _
  | .locked (.restoreActive _) => false
  | _ => true

variable {maxFileSize : Nat} {u : Upkeep} {σ τ ε α β : Type}

theorem protocol_of_ignores {o : Op} (ho : ignores o = true) (hu : u.Idle) (r : Op.Res o) :
    protocol maxFileSize u o r u := by
  cases o with
  | fetchAddFileId | createData | writeData | removeData | removeHint => cases ho
  | locked s =>
    cases s with
    | restoreActive highest => cases ho
    | _ => exact ⟨hu, rfl⟩
  | _ => exact ⟨hu, rfl⟩

/-- The method keeps `J`, a relation between its state and that of the rules. -/
abbrev Keeps (maxFileSize : Nat) (J : σ → Upkeep → Prop) (m : EngineM σ ε α) : Prop :=
  ∀ s u, J s u → Method.Spec (protocol maxFileSize) m s u (fun _ s u => J s u) fun _ _ u => u.Idle

namespace Keeps

variable {J : σ → Upkeep → Prop}

theorem pure {a : α} : Keeps maxFileSize J (Pure.pure a : EngineM σ ε α) := fun _ _ h => h

theorem get : Keeps maxFileSize J (Method.get : EngineM σ ε σ) := fun _ _ h => h

theorem modify {f : σ → σ} (h : ∀ s u, J s u → J (f s) u) :
    Keeps maxFileSize J (Method.modify f : EngineM σ ε Unit) :=
  fun s u hJ => h s u hJ

theorem bind {m : EngineM σ ε α} {f : α → EngineM σ ε β} (hm : Keeps maxFileSize J m)
    (hf : ∀ a, Keeps maxFileSize J (f a)) : Keeps maxFileSize J (m >>= f) :=
  fun s u h => Method.Spec.bind (hm s u h) fun a s u h => hf a s u h

theorem readOp {o : Op} (ho : ignores o = true) (hidle : ∀ s u, J s u → u.Idle)
    {f : Op.Res o → α} : Keeps maxFileSize J (Yabiir.readOp o f : EngineM σ ε α) :=
  fun s u h => spec_readOp fun b => ⟨u, protocol_of_ignores ho (hidle s u h) b, h⟩

theorem ioOp {o : Op} (ho : ignores o = true) (hidle : ∀ s u, J s u → u.Idle)
    {f : Op.Res o → Except IoError α} : Keeps maxFileSize J (Yabiir.ioOp o f : EngineM σ IoError α) :=
  fun s u h => spec_ioOp fun b => ⟨u, protocol_of_ignores ho (hidle s u h) b, by
    cases f b with
    | ok a => exact h
    | error e => exact hidle s u h⟩

/-- A part of the state that has all that `J` is about. -/
theorem onPart {K : τ → Upkeep → Prop} {get : σ → τ} {set : τ → σ → σ} {m : EngineM τ ε α}
    (h : Keeps maxFileSize K m) (hget : ∀ s u, J s u → K (get s) u)
    (hset : ∀ s u t u', J s u → K t u' → J (set t s) u') :
    Keeps maxFileSize J (Method.onPart get set m) := by
  intro s u hJ
  apply Method.Spec.onPart
  exact (h (get s) u (hget s u hJ)).mono (fun _ t u' ht => hset s u t u' hJ ht) fun _ _ _ h => h

end Keeps

/-! ## The output writer -/

/-- The current output is as long as its writer takes it to be. -/
def Sized (maxFileSize : Nat) (w : MergeOutputWriter) (u : Upkeep) : Prop :=
  w.maxFileSize = maxFileSize ∧ u = ⟨some w.currentData.offset, none, false⟩

theorem Sized.idle {w : MergeOutputWriter} (h : Sized maxFileSize w u) : u.Idle := by
  obtain ⟨-, rfl⟩ := h
  exact ⟨rfl, rfl⟩

/-- Beginning an output, once the one before is long enough. -/
theorem openOutput_spec {s : σ} (hu : u.Idle) (hfull : ∀ n ∈ u.length, maxFileSize ≤ n) :
    Method.Spec (protocol maxFileSize) MergeOutputWriter.openOutput s u
      (fun data s' u' => s' = s ∧ u' = ⟨some data.offset, none, false⟩) fun _ _ u' => u'.Idle := by
  obtain ⟨length, owed, restored⟩ := u
  obtain ⟨rfl, rfl⟩ := hu
  unfold MergeOutputWriter.openOutput ActiveFile.create
  refine .seq (spec_readOp fun fileId => ⟨_, ⟨⟨rfl, rfl⟩, hfull, rfl⟩, ?_⟩)
  refine .seq (.seq (spec_ioOp fun r => ⟨_, ⟨⟨rfl, rfl⟩, rfl⟩, ?_⟩))
  cases r with
  | error e => exact ⟨rfl, rfl⟩
  | ok base =>
    refine .pure (.seq (spec_ioOp fun r => ⟨_, ⟨⟨rfl, rfl⟩, rfl⟩, ?_⟩))
    cases r with
    | error e => exact ⟨rfl, rfl⟩
    | ok _ => exact .pure ⟨rfl, rfl⟩

/-- The same while the writer stays with the file `data`. -/
def SizedOn (maxFileSize : Nat) (data : ActiveFile) (w : MergeOutputWriter) (u : Upkeep) : Prop :=
  Sized maxFileSize w u ∧ w.currentData = data

/-- Flushing the data file, with or without a sync. -/
theorem keeps_onData {data : ActiveFile} {m : EngineM ActiveFile IoError Unit}
    (h : ∀ {J : ActiveFile → Upkeep → Prop}, (∀ a u, J a u → u.Idle) → Keeps maxFileSize J m) :
    Keeps maxFileSize (SizedOn maxFileSize data) (MergeOutputWriter.onData m) := by
  apply Keeps.onPart (K := fun a u => a = data ∧ u = ⟨some a.offset, none, false⟩)
  · apply h
    rintro a u ⟨-, rfl⟩
    exact ⟨rfl, rfl⟩
  · exact fun w u h => ⟨h.2, h.1.2⟩
  · exact fun w u a u' h h' => ⟨⟨h.1.1, h'.2⟩, h'.1⟩

theorem keeps_flushOnly {J : ActiveFile → Upkeep → Prop} (hidle : ∀ a u, J a u → u.Idle) :
    Keeps maxFileSize J ActiveFile.flushOnly :=
  .bind .get fun _ => .ioOp rfl hidle

theorem keeps_sync {J : ActiveFile → Upkeep → Prop} (hidle : ∀ a u, J a u → u.Idle) :
    Keeps maxFileSize J ActiveFile.sync :=
  .bind .get fun _ => .bind (.ioOp rfl hidle) fun _ => .ioOp rfl hidle

variable [Crc32Fast]

theorem keeps_closeCurrentHintFile {data : ActiveFile} :
    Keeps maxFileSize (SizedOn maxFileSize data) MergeOutputWriter.closeCurrentHintFile :=
  .bind .get fun _ => .bind (.modify fun _ _ h => h) fun _ =>
    .bind (.ioOp rfl fun _ _ h => h.1.idle) fun _ => .ioOp rfl fun _ _ h => h.1.idle

theorem keeps_finish {data : ActiveFile} :
    Keeps maxFileSize (SizedOn maxFileSize data) MergeOutputWriter.finish :=
  .bind (keeps_onData keeps_sync) fun _ => keeps_closeCurrentHintFile

omit [Crc32Fast] in
theorem keeps_flushBatch {data : ActiveFile} :
    Keeps maxFileSize (SizedOn maxFileSize data) MergeOutputWriter.flushBatch :=
  .bind (keeps_onData keeps_flushOnly) fun _ => .modify fun _ _ h => h

/-- A rotation, where the current output is long enough. -/
theorem rotate_spec {w : MergeOutputWriter} (h : Sized maxFileSize w u)
    (hready : w.isReadyToRotate = true) :
    Method.Spec (protocol maxFileSize) MergeOutputWriter.rotate w u
      (fun _ w u => Sized maxFileSize w u) fun _ _ u => u.Idle := by
  unfold MergeOutputWriter.rotate
  have hsync : Keeps maxFileSize (SizedOn maxFileSize w.currentData) _ := keeps_onData keeps_sync
  apply Method.Spec.bind (hsync w u ⟨h, rfl⟩)
  intro _ w₁ u₁ h₁
  apply Method.Spec.bind (keeps_closeCurrentHintFile w₁ u₁ h₁)
  rintro _ w₂ u₂ ⟨⟨hmax, rfl⟩, hdata⟩
  have hfull : maxFileSize ≤ w₂.currentData.offset := by
    rw [hdata, ← h.1]
    exact of_decide_eq_true hready
  apply Method.Spec.bind (openOutput_spec ⟨rfl, rfl⟩ fun n hn => by cases hn; exact hfull)
  rintro data _ _ ⟨rfl, rfl⟩
  exact .modify ⟨hmax, rfl⟩

theorem keeps_rotateOrFlush :
    Keeps maxFileSize (Sized maxFileSize) MergeOutputWriter.rotateOrFlush := by
  intro w u h
  apply Method.Spec.seq
  apply Method.Spec.get
  split
  · rename_i hready
    exact .bind (rotate_spec h hready) fun _ _ _ h => h
  · split
    · exact .bind (keeps_flushBatch w u ⟨h, rfl⟩) fun _ _ _ h => h.1
    · exact h

/-- Writing an entry makes the output longer by what is written. -/
theorem keeps_writeLiveEntry (entry : Entry) :
    Keeps maxFileSize (Sized maxFileSize) (MergeOutputWriter.writeLiveEntry entry) := by
  unfold MergeOutputWriter.writeLiveEntry
  apply Keeps.bind
  · apply Keeps.onPart (K := fun a u => u = ⟨some a.offset, none, false⟩)
    · rintro a u rfl
      refine .seq (.get (.seq (spec_ioOp fun r => ⟨_, ⟨⟨rfl, rfl⟩, rfl⟩, ?_⟩)))
      cases r with
      | error e => exact ⟨rfl, rfl⟩
      | ok _ => exact .seq (.modify (.pure rfl))
    · exact fun w u h => h.2
    · exact fun w u a u' h h' => ⟨h.1, h'⟩
  · intro x
    refine .bind .get fun w => .bind (.ioOp rfl fun _ _ => Sized.idle) fun _ => ?_
    exact .bind (.modify fun _ _ h => h) fun _ => .bind keeps_rotateOrFlush fun _ => .pure

/-! ## The merge -/

/-- The writer of a merge in progress. -/
abbrev Writing (maxFileSize : Nat) (s : MergeState) (u : Upkeep) : Prop :=
  Sized maxFileSize s.writer u

omit [Crc32Fast] in
theorem keeps_repointAll (pending : PendingQueue) :
    Keeps maxFileSize (Writing maxFileSize) (repointAll pending) := by
  induction pending with
  | nil => exact .pure
  | cons p pending ih => exact .bind (.readOp rfl fun _ _ => Sized.idle) fun _ => ih

omit [Crc32Fast] in
theorem keeps_applyPendingRepoints :
    Keeps maxFileSize (Writing maxFileSize) applyPendingRepoints :=
  .bind .get fun _ => .bind (.modify fun _ _ h => h) fun _ => keeps_repointAll _

omit [Crc32Fast] in
theorem keeps_onWriter {m : MergeOutputWriter.WriterM α}
    (h : Keeps maxFileSize (Sized maxFileSize) m) :
    Keeps maxFileSize (Writing maxFileSize) (onWriter m) :=
  h.onPart (fun _ _ h => h) fun _ _ _ _ _ h => h

theorem keeps_copyEntries (fileId : FileId) (entries : List (Nat × Entry)) (maxOutputId : FileId) :
    Keeps maxFileSize (Writing maxFileSize) (copyEntries fileId entries maxOutputId) := by
  induction entries generalizing maxOutputId with
  | nil => exact .pure
  | cons e entries ih =>
    unfold copyEntries
    split
    · exact ih maxOutputId
    · apply Keeps.bind (.readOp rfl fun _ _ => Sized.idle)
      intro isLive
      split
      · exact ih maxOutputId
      · apply Keeps.bind (keeps_onWriter (keeps_writeLiveEntry _))
        intro x
        refine .bind .get fun s => .bind (.modify fun _ _ h => h) fun _ => ?_
        split
        · exact .bind keeps_applyPendingRepoints fun _ => ih _
        · exact ih _

theorem keeps_copyForwardAllLiveEntries (inputs : List FileId) :
    Keeps maxFileSize (Writing maxFileSize) (copyForwardAllLiveEntries inputs) := by
  induction inputs with
  | nil => exact .pure
  | cons f inputs ih =>
    refine .bind ?_ fun _ => ih
    refine .bind .get fun _ => .bind (.ioOp rfl fun _ _ => Sized.idle) fun bytes => ?_
    exact .bind (keeps_copyEntries f _ _) fun _ => .modify fun _ _ h => h

theorem keeps_finishAndApplyPendingRepoints :
    Keeps maxFileSize (Writing maxFileSize) finishAndApplyPendingRepoints := by
  refine .bind (keeps_onWriter ?_) fun _ => keeps_applyPendingRepoints
  intro w u h
  exact (keeps_finish w u ⟨h, rfl⟩).mono (fun _ _ _ h => h.1) fun _ _ _ h => h

omit [Crc32Fast] in
/-- Each removal of a data file is followed by that of the hint file. -/
theorem keeps_removeOldInputFiles (inputs : List FileId) :
    Keeps maxFileSize (fun _ u => u.Idle) (removeOldInputFiles inputs : EngineM σ ε Unit) := by
  induction inputs with
  | nil => exact .pure
  | cons f inputs ih =>
    rintro s ⟨length, owed, restored⟩ ⟨rfl, rfl⟩
    refine .seq (spec_readOp fun _ => ⟨_, ⟨⟨rfl, rfl⟩, rfl⟩, ?_⟩)
    refine .seq (spec_readOp fun _ => ⟨_, ⟨rfl, rfl, rfl⟩, ?_⟩)
    refine .seq (spec_readOp fun _ => ⟨_, ⟨⟨rfl, rfl⟩, rfl⟩, ?_⟩)
    exact ih s _ ⟨rfl, rfl⟩

omit [Crc32Fast] in
theorem keeps_drop (w : MergeOutputWriter) :
    Keeps maxFileSize (fun _ u => u.Idle) (w.drop : EngineM σ ε Unit) :=
  .bind (.readOp rfl fun _ _ h => h) fun _ => .readOp rfl fun _ _ h => h

theorem merge_spec :
    Method.Spec (protocol maxFileSize) (merge maxFileSize) () init (fun _ _ u => u.owed = none)
      fun _ _ u => u.owed = none := by
  have hinit : init.Idle := ⟨rfl, rfl⟩
  unfold merge collectInputIds
  refine .seq (.seq (spec_readOp fun a => ⟨_, ⟨hinit, rfl⟩, ?_⟩))
  refine .seq (spec_ioOp fun ids => ⟨_, ⟨hinit, rfl⟩, ?_⟩)
  cases ids with
  | error e => exact rfl
  | ok ids =>
    refine .pure ?_
    dsimp only [id]
    split
    · exact .pure rfl
    · apply Method.Spec.seq
      apply Method.Spec.bind ((openOutput_spec hinit fun n hn => by cases hn).mono
        (fun _ _ _ h => h) fun _ _ _ h => h.owed)
      rintro data s u ⟨rfl, rfl⟩
      refine .pure (.bind (P := fun _ _ u => u.Idle) (spec_withLocals ?_) ?_)
      · have hcopy : Keeps maxFileSize (Writing maxFileSize) _ :=
          .bind (keeps_copyForwardAllLiveEntries (ids.filter (· < a))) fun _ =>
            keeps_finishAndApplyPendingRepoints
        exact (hcopy _ _ ⟨rfl, rfl⟩).mono (fun _ _ _ h => h.idle) fun _ _ _ h => h
      · rintro ⟨result, s'⟩ s u h
        cases result with
        | error e =>
          apply Method.Spec.bind ((keeps_drop s'.writer s u h).mono (fun _ _ _ h => h)
            fun _ _ _ h => h.owed)
          exact fun _ _ _ h => .fail h.owed
        | ok _ =>
          apply Method.Spec.bind ((keeps_removeOldInputFiles _ s u h).mono (fun _ _ _ h => h)
            fun _ _ _ h => h.owed)
          intro _ s u h
          refine spec_ioOp fun r => ⟨_, ⟨h, rfl⟩, ?_⟩
          cases r <;> exact h.owed

end Upkeep

/-- The code of a merge keeps the rules. -/
theorem Engine.merge_upkeep [Crc32Fast] (opts : Options) : (code opts .merge).Follows
    (Upkeep.protocol opts.maxFileSize) (fun _ u => u.owed = none) .init := by
  have hmerge : Method.Spec (Upkeep.protocol opts.maxFileSize) (merge opts) () .init
      (fun _ _ u => u.owed = none) fun _ _ u => u.owed = none := by
    unfold merge requireWrite
    split
    · apply Method.Spec.seq
      apply Method.Spec.pure
      split
      · exact .fail rfl
      · exact spec_liftIo Upkeep.merge_spec
    · exact .seq (.fail rfl)
  apply Prog.Follows.bind hmerge
  rintro ⟨r, s⟩ u h
  cases r <;> exact h

end Yabiir
