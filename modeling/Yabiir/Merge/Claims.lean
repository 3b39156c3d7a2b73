/-
  Yabiir.Merge.Claims

  An id a merge draws from the counter is used at once: the next operation is
  the creation of the data file.  No call returns with an id drawn and unused.
-/

import Yabiir.Calls

namespace Yabiir

open Format

/-- Neither the drawing of an id nor the creation of a data file. -/
def Op.leavesIds : Op → Bool
  | .fetchAddFileId | .createData _ => false
  | _ => true

/-- What comes after an id was drawn, and when one may be drawn; the state is the
    id drawn and not used yet. -/
def claimProtocol : Prog.Protocol Op Op.Res (Option FileId)
  | none, .fetchAddFileId, id, claim => claim = some id
  | some id, .createData id', _, claim => id' = id ∧ claim = none
  | none, o, _, claim => o.leavesIds = true ∧ claim = none
  | some _, _, _, _ => False

theorem claimProtocol_of_leavesIds {o : Op} (ho : o.leavesIds = true) (r : Op.Res o) :
    claimProtocol none o r none := by
  cases o with
  | fetchAddFileId => cases ho
  | createData id => cases ho
  | _ => exact ⟨ho, rfl⟩

/-- The method begins and ends with no id drawn and unused. -/
abbrev UsesIds {σ ε α : Type} (m : EngineM σ ε α) (s : σ) : Prop :=
  Method.Spec claimProtocol m s none (fun _ _ claim => claim = none) fun _ _ claim => claim = none

namespace UsesIds

variable {σ τ ε α β : Type} {s : σ}

theorem pure {a : α} : UsesIds (Pure.pure a : EngineM σ ε α) s := rfl

theorem fail {e : ε} : UsesIds (Method.fail e : EngineM σ ε α) s := rfl

theorem get : UsesIds (Method.get : EngineM σ ε σ) s := rfl

theorem modify {f : σ → σ} : UsesIds (Method.modify f : EngineM σ ε Unit) s := rfl

theorem bind {m : EngineM σ ε α} {f : α → EngineM σ ε β} (hm : UsesIds m s)
    (hf : ∀ a s, UsesIds (f a) s) : UsesIds (m >>= f) s := by
  apply Method.Spec.bind hm
  rintro a s _ rfl
  exact hf a s

theorem ofExcept {r : Except ε α} : UsesIds (Method.ofExcept r) s :=
  Method.Spec.ofExcept (fun _ _ => rfl) fun _ _ => rfl

theorem op {o : Op} (ho : o.leavesIds = true) : UsesIds (Method.op o : EngineM σ ε (Op.Res o)) s :=
  fun b => ⟨none, claimProtocol_of_leavesIds ho b, rfl⟩

theorem readOp {o : Op} (ho : o.leavesIds = true) {f : Op.Res o → α} :
    UsesIds (Yabiir.readOp o f : EngineM σ ε α) s :=
  (op ho).bind fun _ _ => pure

theorem ioOp {o : Op} (ho : o.leavesIds = true) {f : Op.Res o → Except IoError α} :
    UsesIds (Yabiir.ioOp o f) s :=
  (op ho).bind fun _ _ => ofExcept

theorem onPart {get : σ → τ} {set : τ → σ → σ} {m : EngineM τ ε α} (h : UsesIds m (get s)) :
    UsesIds (Method.onPart get set m) s :=
  Method.Spec.onPart h

end UsesIds

/-! ## The output writer -/

variable [Crc32Fast] {σ α ε : Type}

namespace MergeOutputWriter

omit [Crc32Fast] in
theorem usesIds_openOutput {s : σ} : UsesIds openOutput s := by
  apply Method.Spec.seq
  intro fileId
  refine ⟨some fileId, rfl, ?_⟩
  -- the file is created whatever comes of it
  refine Method.Spec.bind (P := fun _ _ claim => claim = none) ?_ ?_
  · intro r
    refine ⟨none, ⟨rfl, rfl⟩, ?_⟩
    cases r <;> rfl
  · rintro data s _ rfl
    exact (UsesIds.ioOp rfl).bind fun _ _ => .pure

omit [Crc32Fast] in
theorem usesIds_sync (w : MergeOutputWriter) : UsesIds (onData ActiveFile.sync) w := by
  apply UsesIds.onPart
  exact .bind .get fun _ _ => .bind (.ioOp rfl) fun _ _ => .ioOp rfl

theorem usesIds_closeCurrentHintFile (w : MergeOutputWriter) : UsesIds closeCurrentHintFile w :=
  .bind .get fun _ _ => .bind .modify fun _ _ => .bind (.ioOp rfl) fun _ _ => .ioOp rfl

theorem usesIds_rotateOrFlush (w : MergeOutputWriter) : UsesIds rotateOrFlush w := by
  apply UsesIds.bind .get
  intro w' s
  split
  · refine UsesIds.bind ?_ fun _ _ => .pure
    apply (usesIds_sync s).bind
    intro _ s
    apply (usesIds_closeCurrentHintFile s).bind
    exact fun _ _ => usesIds_openOutput.bind fun _ _ => .modify
  · split
    · refine UsesIds.bind ?_ fun _ _ => .pure
      refine UsesIds.bind ?_ fun _ _ => .modify
      apply UsesIds.onPart
      exact .bind .get fun _ _ => .ioOp rfl
    · exact .pure

theorem usesIds_writeLiveEntry (w : MergeOutputWriter) (entry : Entry) :
    UsesIds (writeLiveEntry entry) w := by
  apply UsesIds.bind
  · apply UsesIds.onPart
    exact .bind .get fun _ _ => .bind (.ioOp rfl) fun _ _ => .bind .modify fun _ _ => .pure
  · intro x s
    apply UsesIds.bind .get
    intro w' s
    apply (UsesIds.ioOp rfl).bind
    intro _ s
    apply UsesIds.bind .modify
    exact fun _ s => (usesIds_rotateOrFlush s).bind fun _ _ => .pure

end MergeOutputWriter

/-! ## The merge -/

omit [Crc32Fast] in
theorem usesIds_repointAll (pending : PendingQueue) (s : MergeState) :
    UsesIds (repointAll pending) s := by
  induction pending generalizing s with
  | nil => exact .pure
  | cons p pending ih => exact (UsesIds.readOp rfl).bind fun _ s => ih s

omit [Crc32Fast] in
theorem usesIds_applyPendingRepoints (s : MergeState) : UsesIds applyPendingRepoints s :=
  .bind .get fun _ _ => .bind .modify fun _ s => usesIds_repointAll _ s

theorem usesIds_copyEntries (fileId : FileId) (entries : List (Nat × Entry)) (maxOutputId : FileId)
    (s : MergeState) : UsesIds (copyEntries fileId entries maxOutputId) s := by
  induction entries generalizing maxOutputId s with
  | nil => exact .pure
  | cons e entries ih =>
    unfold copyEntries
    split
    · exact ih maxOutputId s
    · apply (UsesIds.readOp rfl).bind
      intro isLive s
      split
      · exact ih maxOutputId s
      · apply (UsesIds.onPart (MergeOutputWriter.usesIds_writeLiveEntry _ _)).bind
        intro x s
        apply UsesIds.bind .get
        intro s' s
        apply UsesIds.bind .modify
        intro _ s
        split
        · exact (usesIds_applyPendingRepoints s).bind fun _ s => ih _ s
        · exact ih _ s

theorem usesIds_copyForwardAllLiveEntries (inputs : List FileId) (s : MergeState) :
    UsesIds (copyForwardAllLiveEntries inputs) s := by
  induction inputs generalizing s with
  | nil => exact .pure
  | cons f inputs ih =>
    refine UsesIds.bind ?_ fun _ s => ih s
    apply UsesIds.bind .get
    intro s' s
    apply (UsesIds.ioOp rfl).bind
    intro bytes s
    exact (usesIds_copyEntries f _ _ s).bind fun _ _ => .modify

omit [Crc32Fast] in
theorem usesIds_removeOldInputFiles (inputs : List FileId) (s : σ) :
    UsesIds (removeOldInputFiles inputs : EngineM σ ε Unit) s := by
  induction inputs generalizing s with
  | nil => exact .pure
  | cons f inputs ih =>
    apply (UsesIds.readOp rfl).bind
    intro _ s
    apply (UsesIds.readOp rfl).bind
    intro _ s
    exact (UsesIds.readOp rfl).bind fun _ s => ih s

theorem usesIds_merge (maxFileSize : Nat) : UsesIds (merge maxFileSize) () := by
  apply UsesIds.bind
  · exact (UsesIds.readOp rfl).bind fun _ _ => (UsesIds.ioOp rfl).bind fun _ _ => .pure
  · intro inputs s
    split
    · exact .pure
    · apply UsesIds.bind (MergeOutputWriter.usesIds_openOutput.bind fun _ _ => .pure)
      intro writer s
      apply UsesIds.bind
      · have hfinish : ∀ s, UsesIds (onWriter MergeOutputWriter.finish) s := fun s =>
          UsesIds.onPart ((MergeOutputWriter.usesIds_sync s.writer).bind fun _ w =>
            MergeOutputWriter.usesIds_closeCurrentHintFile w)
        have hcopy := (usesIds_copyForwardAllLiveEntries inputs
            ⟨writer, writer.currentFileId, [], 0⟩).bind fun _ s =>
          (hfinish s).bind fun _ s => usesIds_applyPendingRepoints s
        exact Prog.Follows.bind hcopy fun r _ h => by
          rcases r with ⟨_ | _, _⟩ <;> exact h
      · rintro ⟨result, s'⟩ s
        cases result with
        | error e => exact ((UsesIds.readOp rfl).bind fun _ _ => .readOp rfl).bind fun _ _ => .fail
        | ok _ => exact (usesIds_removeOldInputFiles inputs s).bind fun _ _ => .ioOp rfl

namespace Engine

/-- Only merges draw ids and create data files outside the active-file lock. -/
theorem rule_leavesIds {c : Call} (hc : c ≠ .merge) {j : Journal} {o : Op} (h : c.rule j o) :
    o.leavesIds = true := by
  cases o with
  | fetchAddFileId => cases c <;> simp_all [Call.rule, readsValue]
  | createData id => cases c <;> simp_all [Call.rule, readsValue]
  | _ => rfl

/-- No call returns with an id drawn and unused. -/
theorem code_usesIds (opts : Options) (c : Call) :
    (code opts c).Follows claimProtocol (fun _ claim => claim = none) none := by
  by_cases hc : c = .merge
  · subst hc
    have hmerge : UsesIds (merge opts) () := by
      unfold merge requireWrite
      apply UsesIds.bind
      · split
        · exact .pure
        · exact .fail
      · intro _ s
        split
        · exact .fail
        · exact spec_liftIo (usesIds_merge opts.maxFileSize)
    apply Prog.Follows.bind hmerge
    rintro ⟨r, s⟩ claim h
    cases r <;> exact h
  · apply (code_follows opts hc).sim (fun _ claim => claim = none) _ (fun _ _ _ h _ => h) rfl
    rintro j o b _ _ rfl ⟨hrule, -⟩
    exact ⟨none, claimProtocol_of_leavesIds (rule_leavesIds hc hrule) b, rfl⟩

end Engine

end Yabiir
