/-
  Yabiir.Invariant.Calls

  The calls other than merge, one operation at a time: the files stay in order
  (`FilesOk.call`), and nothing is lost of what they hold.
-/

import Yabiir.Calls
import Yabiir.Invariant.Step

namespace Yabiir

open Format

/-- The operations of the calls other than merge. -/
def Op.isCalls : Op → Bool
  | .keydirGet _ | .keydirInsert .. | .keydirRemove _ | .keydirSnapshot | .openReader _ | .pread ..
  | .commit _ | .locked (.append ..) => true
  | _ => false

section

variable [Crc32Fast] {tidy : Prop} {own X : FileId → Prop} {w w' : World}

theorem rule_isCalls {c : Call} {j : Journal} {o : Op} (h : c.rule j o) : o.isCalls = true := by
  cases o with
  | locked s =>
    cases s with
    | append => rfl
    | _ => cases c <;> simp_all [Call.rule, readsValue]
  | keydirGet | keydirInsert | keydirRemove | keydirSnapshot | openReader | pread | commit => rfl
  | _ => cases c <;> simp_all [Call.rule, readsValue]

/-- Syncing the active file changes no file's bytes. -/
theorem FilesOk.committed (h : FilesOk tidy own w) (commit : CommitState) :
    FilesOk tidy own { w.activeSynced with commit } ∧
      Evolves X w { w.activeSynced with commit } := by
  obtain ⟨data, hdata, hok⟩ := h.active
  have hlookup : ∀ id, w.activeSynced.disk.data.lookup id
      = if id = w.active.fileId then (w.disk.data.lookup w.active.fileId).map fun f =>
          f.flushBuf.syncData
        else w.disk.data.lookup id := fun id =>
    FileTable.lookup_modify w.disk.data w.active.fileId id _
  have hcontent : (data.flushBuf.syncData).content = data.content := by
    simp [FileState.logical, hok.drained]
  have hdata' : w.activeSynced.disk.data.lookup w.active.fileId = some data.flushBuf.syncData := by
    rw [hlookup, if_pos rfl, hdata]
    rfl
  refine h.activeChanged rfl le_rfl h.allotted h.sound rfl rfl ?_ hdata hdata' ?_
    (by rw [hcontent])
  · exact fun id hid => (hlookup id).trans (if_neg hid)
  · exact ⟨by simp [hok.linked], rfl, by rw [hcontent]; exact hok.records,
      by rw [hcontent]; exact hok.offset, by rw [hcontent]; exact hok.short⟩

/-- An append, with a record where that is asked about. -/
theorem FilesOk.append (h : FilesOk tidy own w) {maxFileSize : Nat} {encoded : EncodedEntry}
    (hrecord : tidy → ∃ r : Record, r.Fits ∧ encoded.bytes = r.encode)
    (hsound : (perform (.locked (.append maxFileSize encoded)) w).2.allotted < 2 ^ 32) :
    FilesOk tidy own (perform (.locked (.append maxFileSize encoded)) w).2 ∧
      Evolves X w (perform (.locked (.append maxFileSize encoded)) w).2 := by
  cases hlong : World.tooLong w.disk.data w.active.fileId encoded.bytes with
  | true =>
    rw [perform_append_tooLong _ _ _ hlong]
    have hA : AgreesOff (fun _ => False) w { w with refused := true } :=
      .of_eq rfl rfl rfl rfl rfl
    exact ⟨h.agreesOff hA fun _ hx => hx.elim, hA.evolves.mono fun _ hx => hx.elim⟩
  | false =>
    obtain ⟨hfiles, hE⟩ := h.appended (X := X) hrecord hlong
    rw [perform_append _ _ _ hlong] at hsound ⊢
    unfold World.appendRotate at hsound ⊢
    split
    · rename_i hfull
      rw [if_pos hfull] at hsound
      obtain ⟨hfiles', hE'⟩ := hfiles.rotated (X := X) hsound
      exact ⟨hfiles', hE.trans hE' rfl⟩
    · exact ⟨hfiles, hE⟩

/-- An operation of a call other than merge. -/
theorem FilesOk.call (h : FilesOk tidy own w) {o : Op} (ho : o.isCalls = true)
    (hrecord : ∀ maxFileSize encoded, o = .locked (.append maxFileSize encoded) → tidy →
      ∃ r : Record, r.Fits ∧ encoded.bytes = r.encode)
    (hsound : (perform o w).2.allotted < 2 ^ 32) :
    FilesOk tidy own (perform o w).2 ∧ Evolves X w (perform o w).2 := by
  have hrest : ∀ {w'}, AgreesOff (fun _ => False) w w' →
      FilesOk tidy own w' ∧ Evolves X w w' := fun hA =>
    ⟨h.agreesOff hA fun _ hx => hx.elim, hA.evolves.mono fun _ hx => hx.elim⟩
  cases o with
  | locked s =>
    cases s with
    | append maxFileSize encoded => exact h.append (hrecord maxFileSize encoded rfl) hsound
    | _ => cases ho
  | commit generation =>
    simp only [perform, performBase]
    split
    · exact hrest (.of_eq rfl rfl rfl rfl rfl)
    · exact h.committed _
  | openReader id =>
    simp only [perform, performBase]
    split
    · exact hrest (.of_eq rfl rfl rfl rfl rfl)
    · split <;> exact hrest (.of_eq rfl rfl rfl rfl rfl)
  | keydirGet | keydirInsert | keydirRemove | keydirSnapshot | pread =>
    exact hrest (.of_eq rfl rfl rfl rfl rfl)
  | _ => cases ho

end

end Yabiir
