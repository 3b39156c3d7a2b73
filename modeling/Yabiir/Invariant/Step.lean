/-
  Yabiir.Invariant.Step

  The steps of a merge, whatever comes of them: the files stay in order, the
  merge knows what it has done, and other threads can rely on their own files
  (`MergeOk.step`).  When a merge ends, what it leaves are files like any other
  (`MergeOk.release`).
-/

import Yabiir.Invariant.Writer

namespace Yabiir

open Format

variable [Crc32Fast]

/-- After a step of a merge, with record `g'` now: the files are in order, others
    can rely on theirs, and so can the merge. -/
structure StepOk (tidy : Prop) (own : FileId → Prop) (g' : MergeLog) (w w' : World) : Prop where
  files : FilesOk tidy (fun id => own id ∨ id ∈ g'.ids) w'
  evolves : Evolves (· ∈ g'.ids) w w'
  merge : MergeOk tidy g' w'

section

variable {tidy : Prop} {own : FileId → Prop} {g g' : MergeLog} {w w' : World}

/-- A step on the merge's own files, or on none. -/
theorem StepOk.ofAgrees (hfiles : FilesOk tidy own w) (hown : ∀ id ∈ g.ids, own id)
    (hA : AgreesOff (· ∈ g.ids) w w') (hids : g'.ids = g.ids) (hm : MergeOk tidy g' w') :
    StepOk tidy own g' w w' where
  files := (hfiles.agreesOff hA hown).congr fun id =>
    ⟨Or.inl, fun h => h.elim (fun h => h) fun h => hown id (hids ▸ h)⟩
  evolves := hA.evolves.mono fun _ hid => hids.symm ▸ hid
  merge := hm

/-- A step on files of others. -/
theorem StepOk.ofEvolves (hfiles : FilesOk tidy own w) (hown : ∀ id ∈ g.ids, own id)
    (hfiles' : FilesOk tidy own w') (hE : Evolves (fun _ => False) w w') (hids : g'.ids = g.ids)
    (h : MergeOk tidy g w) (hm : MergeOk tidy g w' → MergeOk tidy g' w') :
    StepOk tidy own g' w w' where
  files := hfiles'.congr fun id =>
    ⟨Or.inl, fun h => h.elim (fun h => h) fun h => hown id (hids ▸ h)⟩
  evolves := hE.mono fun _ hx => hx.elim
  merge := hm (h.evolves hfiles hown hE fun _ _ hx => hx)

omit [Crc32Fast] in
/-- Nothing happened. -/
theorem AgreesOff.refl (X : FileId → Prop) (w : World) : AgreesOff X w w :=
  .of_eq rfl rfl rfl rfl rfl

/-- A step that fails without a trace. -/
theorem StepOk.failed (hfiles : FilesOk tidy own w) (h : MergeOk tidy g w)
    (hown : ∀ id ∈ g.ids, own id) : StepOk tidy own g.fail w w :=
  .ofAgrees hfiles hown (.refl _ w) rfl h.failed.merge

/-! ## Reading -/

/-- Reading the id of the active file. -/
theorem MergeOk.activeFileId {r : FileId}
    (hR : MergeLog.protocol g (.locked .activeFileId) r g')
    (hO : Outcome (.locked .activeFileId) w r w') :
    MergeOk tidy g' w ∧ g'.ids = g.ids ∧ w' = w := by
  obtain ⟨rfl, rfl⟩ := hR
  rcases hO with hO | ⟨⟨step, wrote⟩, hO⟩
  · obtain ⟨rfl, rfl⟩ := Prod.mk.inj hO
    refine ⟨{ mergeOk_init w with sound := ?_, activeAtStart := le_rfl }, rfl, rfl⟩
    exact { MergeLog.sound_init with inputs := fun f hf => by cases hf }
  · cases step <;> simp [fault, Section.code, Prog.execFault, faultBase] at hO

/-- Listing the directory. -/
theorem MergeOk.discover (h : MergeOk tidy g w) {r : Except IoError (List FileId)}
    (hR : MergeLog.protocol g .discover r g') (hO : Outcome .discover w r w') :
    MergeOk tidy g' w ∧ g'.ids = g.ids ∧ w' = w := by
  obtain ⟨hinputs, hids, rfl⟩ := hR
  rcases hO with hO | ⟨f, hO⟩
  · obtain ⟨rfl, rfl⟩ := Prod.mk.inj hO
    have hnone : ∀ {α : Type} {x : α} {f : α → FileId}, f x ∈ g.inputs → False := by
      intro α x f hx
      rw [hinputs] at hx
      cases hx
    have hlt : ∀ f ∈ (g.list w.disk.data.discover).inputs,
        f < g.activeAtStart ∧ f ∈ w.disk.data.discover := by
      intro f hf
      obtain ⟨hmem, hlt⟩ := List.mem_filter.mp hf
      exact ⟨by simpa using hlt, hmem⟩
    refine ⟨{ h with sound := ?_, inputs := ?_ }, rfl, rfl⟩
    · refine { h.sound with
        inputs := fun f hf => (hlt f hf).1, unread := fun _ hf => hf, toRemove := fun _ hf => hf
        removed := fun f hf => ?_, reads := fun x hx => ?_ }
      · exact (hnone (h.sound.removed f hf) (f := fun x => x)).elim
      · exact (hnone (h.sound.reads x hx)).elim
    · intro f hf
      obtain ⟨data, hl, -⟩ := (FileTable.mem_discover w.disk.data f).mp (hlt f hf).2
      exact ⟨data, hl⟩
  · obtain ⟨rfl, rfl⟩ := Prod.mk.inj (Option.some.inj hO)
    exact ⟨h.failed.merge, rfl, rfl⟩

/-- Reading an input. -/
theorem MergeOk.readFile (h : MergeOk tidy g w) {f : FileId} {r : Except IoError Bytes}
    (hR : MergeLog.protocol g (.readFile f) r g') (hO : Outcome (.readFile f) w r w') :
    MergeOk tidy g' w ∧ g'.ids = g.ids ∧ w' = w := by
  obtain ⟨rest, hunread, -, -, rfl⟩ := hR
  rcases hO with hO | ⟨f, hO⟩
  · simp only [perform, performBase] at hO
    split at hO
    · obtain ⟨rfl, rfl⟩ := Prod.mk.inj hO
      exact ⟨h.failed.merge, rfl, rfl⟩
    · rename_i data hopen
      obtain ⟨rfl, rfl⟩ := Prod.mk.inj hO
      obtain ⟨hl, -⟩ := open?_eq_some.mp hopen
      refine ⟨{ h with sound := h.sound.read hunread _, reads := ?_ }, rfl, rfl⟩
      intro x hx
      rcases List.mem_append.mp hx with hx | hx
      · exact h.reads x hx
      · cases List.mem_singleton.mp hx
        rw [contentOf_of_lookup hl]
  · obtain ⟨rfl, rfl⟩ := Prod.mk.inj (Option.some.inj hO)
    exact ⟨h.failed.merge, rfl, rfl⟩

/-- The liveness check of an entry. -/
theorem MergeOk.keydirIsLive (h : MergeOk tidy g w) {key : Bytes} {f : FileId} {valuePos : Nat}
    {r : Bool} (hR : MergeLog.protocol g (.keydirIsLive key f valuePos) r g')
    (hO : Outcome (.keydirIsLive key f valuePos) w r w') :
    MergeOk tidy g' w ∧ g'.ids = g.ids ∧ w' = w := by
  obtain ⟨pos, entry, rest, htodo, -, -, -, rfl⟩ := hR
  rcases hO with hO | ⟨f, hO⟩
  · obtain ⟨-, rfl⟩ := Prod.mk.inj hO
    refine ⟨{ h with sound := { h.sound with todo := ?_, checked := ?_ } }, rfl, rfl⟩
    · intro x hx
      exact h.sound.todo x (htodo ▸ List.mem_cons_of_mem _ hx)
    · intro x hx
      dsimp only at hx
      split at hx
      · cases hx
        exact h.sound.todo _ (htodo ▸ List.mem_cons_self)
      · cases hx
  · cases hO

/-- A repoint of the keydir. -/
theorem MergeOk.keydirCasRepoint (h : MergeOk tidy g w) {key : Bytes} {old new : KeydirEntry}
    {r : Bool} (hR : MergeLog.protocol g (.keydirCasRepoint key old new) r g')
    (hO : Outcome (.keydirCasRepoint key old new) w r w') :
    MergeOk tidy g' w' ∧ g'.ids = g.ids ∧ w' = { w with keydir := w'.keydir } := by
  obtain ⟨c, rest, hpending, -, -, -, -, rfl⟩ := hR
  rcases hO with hO | ⟨f, hO⟩
  · obtain ⟨-, rfl⟩ := Prod.mk.inj hO
    have hok : MergeOk tidy g (performBase (.keydirCasRepoint key old new) w).2 := h.congr rfl rfl
    refine ⟨{ hok with sound := { h.sound with pending := ?_ } }, rfl, rfl⟩
    exact fun c hc => h.sound.pending c (hpending ▸ List.mem_cons_of_mem _ hc)
  · cases hO

/-! ## Removing inputs -/

/-- Removing the data file of an input. -/
theorem MergeOk.removeData (h : MergeOk tidy g w) (hfiles : FilesOk tidy own w)
    (hown : ∀ id ∈ g.ids, own id) {f : FileId} {r : Except IoError Unit}
    (hR : MergeLog.protocol g (.removeData f) r g') (hO : Outcome (.removeData f) w r w') :
    StepOk tidy own g' w w' := by
  obtain ⟨-, rest, hremove, rfl⟩ := hR
  have hf : f ∈ g.inputs := h.sound.toRemove f (hremove ▸ List.mem_cons_self)
  have hlt : f < w.active.fileId := (h.sound.inputs f hf).trans_le h.activeAtStart
  obtain ⟨data, hl⟩ := h.inputs f hf
  -- the record, whatever became of the file
  have hsound : ∀ kept, ({ g with toRemove := rest, removed := f :: g.removed, kept := kept } :
      MergeLog).Sound := by
    intro kept
    refine { h.sound with toRemove := fun f' hf' => ?_, removed := fun f' hf' => ?_ }
    · exact h.sound.toRemove f' (hremove ▸ List.mem_cons_of_mem _ hf')
    · rcases List.mem_cons.mp hf' with rfl | hf'
      · exact hf
      · exact h.sound.removed f' hf'
  rcases hO with hO | ⟨f, hO⟩
  · simp only [perform, performBase] at hO
    split at hO
    · rename_i hopen
      obtain ⟨rfl, rfl⟩ := Prod.mk.inj hO
      refine .ofAgrees hfiles hown (.refl _ w) rfl { h with sound := hsound _, removed := ?_ }
      intro f' hf' hkept
      rcases List.mem_cons.mp hf' with rfl | hf'
      · refine ⟨data, hl, ?_⟩
        cases hlinked : data.linked with
        | false => rfl
        | true => cases hopen.symm.trans (open?_eq_some.mpr ⟨hl, hlinked⟩)
      · exact h.removed f' hf' hkept
    · obtain ⟨rfl, rfl⟩ := Prod.mk.inj hO
      obtain ⟨hfiles', hE⟩ := hfiles.removeData (X := fun _ => False) hlt
      refine .ofEvolves hfiles hown hfiles' hE rfl h fun hm => ?_
      refine { hm with sound := hsound _, removed := ?_ }
      intro f' hf' hkept
      rcases List.mem_cons.mp hf' with rfl | hf'
      · exact ⟨data.unlink, lookup_modifyData hl, rfl⟩
      · exact hm.removed f' hf' hkept
  · obtain ⟨rfl, rfl⟩ := Prod.mk.inj (Option.some.inj hO)
    refine .ofAgrees hfiles hown (.refl _ w) rfl { h with sound := hsound _, removed := ?_ }
    intro f' hf' hkept
    rcases List.mem_cons.mp hf' with rfl | hf'
    · exact absurd List.mem_cons_self hkept
    · exact h.removed f' hf' fun hk => hkept (List.mem_cons_of_mem _ hk)

/-- Removing the hint file of an input. -/
theorem MergeOk.removeHint (h : MergeOk tidy g w) (hfiles : FilesOk tidy own w)
    (hown : ∀ id ∈ g.ids, own id) {f : FileId} {r : Except IoError Unit}
    (hR : MergeLog.protocol g (.removeHint f) r g') (hO : Outcome (.removeHint f) w r w') :
    StepOk tidy own g' w w' := by
  obtain ⟨hf, rfl⟩ := hR
  have hlt : f < w.active.fileId :=
    (h.sound.inputs f (h.sound.removed f hf)).trans_le h.activeAtStart
  rcases hO with hO | ⟨f, hO⟩
  · simp only [perform, performBase] at hO
    split at hO
    · obtain ⟨rfl, rfl⟩ := Prod.mk.inj hO
      exact .ofAgrees hfiles hown (.refl _ w) rfl h
    · obtain ⟨rfl, rfl⟩ := Prod.mk.inj hO
      obtain ⟨hfiles', hE⟩ := hfiles.removeHint (X := fun _ => False) hlt
      exact .ofEvolves hfiles hown hfiles' hE rfl h fun hm => hm
  · obtain ⟨rfl, rfl⟩ := Prod.mk.inj (Option.some.inj hO)
    exact .ofAgrees hfiles hown (.refl _ w) rfl h

/-! ## Restoring the active file -/

/-- What a restored or a failing `restore_active_file` leaves. -/
theorem FilesOk.restoreActive (hfiles : FilesOk tidy own w) {highest : FileId}
    {r : Except IoError Unit} (hO : Outcome (.locked (.restoreActive highest)) w r w')
    (hsound : w'.allotted < 2 ^ 32) :
    FilesOk tidy own w' ∧ Evolves (fun _ => False) w w' ∧
      (∀ u, r = .ok u → highest < w'.active.fileId ∨ w'.active.fileId = w.nextFileId) := by
  obtain ⟨data, hdata, hok⟩ := hfiles.active
  rcases hO with hO | ⟨f, hO⟩
  · rw [perform_restoreActive] at hO
    obtain ⟨rfl, rfl⟩ := Prod.mk.inj hO
    split at hsound
    · obtain ⟨hfiles', hE⟩ := hfiles.rotated (X := fun _ => False) hsound
      rename_i hle
      rw [if_pos hle]
      exact ⟨hfiles', hE, fun _ _ => Or.inr rfl⟩
    · rename_i hle
      rw [if_neg hle]
      exact ⟨hfiles, (AgreesOff.refl _ w).evolves, fun _ _ => Or.inl (not_le.mp hle)⟩
  · obtain ⟨rfl, hw'⟩ := fault_restoreActive (fun st hst => by
      cases hdata.symm.trans hst
      exact hok.drained) hO
    have hnone : w.rotating.disk.data.lookup w.nextFileId = none := by
      rw [World.lookup_rotating, if_neg (ne_of_gt hfiles.active_lt)]
      exact (hfiles.fresh _ le_rfl).1
    rcases hw' with rfl | rfl | rfl
    · -- only the buffer was flushed, and nothing was in it
      have hcontent : data.flushBuf.content = data.content := by
        simp [FileState.logical, hok.drained]
      have hactive : ActiveOk tidy w.active data.flushBuf :=
        ⟨hok.linked, rfl, hcontent ▸ hok.records, hcontent ▸ hok.offset, hcontent ▸ hok.short⟩
      have hflushed : FilesOk tidy own (w.modifyData w.active.fileId .flushBuf) ∧
          Evolves (fun _ => False) w (w.modifyData w.active.fileId .flushBuf) :=
        hfiles.activeChanged rfl le_rfl hfiles.allotted hsound rfl rfl
          (fun id hid => FileTable.lookup_modify_of_ne w.disk.data _ hid) hdata
          (lookup_modifyData hdata) hactive (by rw [hcontent])
      exact ⟨hflushed.1, hflushed.2, fun _ h => by cases h⟩
    · obtain ⟨⟨hfiles', hE⟩, -⟩ := hfiles.rotating (X := fun _ => False) hsound
      exact ⟨hfiles', hE, fun _ h => by cases h⟩
    · obtain ⟨⟨hfiles', hE⟩, hnext⟩ := hfiles.rotating (X := fun _ => False) hsound
      refine ⟨hfiles'.created ?_ ?_ hnone (hfiles.fresh _ le_rfl).2, ?_, fun _ h => by cases h⟩
      · exact hnext ▸ Nat.lt_succ_self _
      · exact ne_of_gt hfiles.active_lt
      · exact hE.created (a := w.active) le_rfl hnone le_rfl

/-- Restoring the active file. -/
theorem MergeOk.restoreActive (h : MergeOk tidy g w) (hfiles : FilesOk tidy own w)
    (hown : ∀ id ∈ g.ids, own id) {highest : FileId} {r : Except IoError Unit}
    (hR : MergeLog.protocol g (.locked (.restoreActive highest)) r g')
    (hO : Outcome (.locked (.restoreActive highest)) w r w') (hsound : w'.allotted < 2 ^ 32) :
    StepOk tidy own g' w w' := by
  obtain ⟨hsettled, -, hhighest, rfl⟩ := hR
  obtain ⟨hfiles', hE, hactive⟩ := hfiles.restoreActive hO hsound
  cases r with
  | error e =>
    have hfail : MergeOk tidy g w' → MergeOk tidy g.fail w' := fun hm =>
      hm.quiet (.refl _ w') hm.sound.fail rfl MergeLog.keeps_fail
    exact .ofEvolves hfiles hown hfiles' hE rfl h hfail
  | ok u =>
    refine .ofEvolves hfiles hown hfiles' hE rfl h fun hm => { hm with
      sound := { hm.sound with unrestored := fun hc => ?_ }, restored := fun _ o ho => ?_ }
    · simp [hsettled.claimed] at hc
    · rcases hactive u rfl with hlt | heq
      · exact (hhighest o ho).trans_lt hlt
      · rw [heq]
        exact hfiles.own_lt _ (hown _ (MergeLog.id_mem_ids ho))

/-! ## All steps -/

/-- Claiming an id. -/
theorem MergeOk.claimStep (h : MergeOk tidy g w) (hfiles : FilesOk tidy own w)
    (hown : ∀ id ∈ g.ids, own id) {n : FileId} (hR : MergeLog.protocol g .fetchAddFileId n g')
    (hO : Outcome .fetchAddFileId w n w') (hsound : w'.allotted < 2 ^ 32) :
    StepOk tidy own g' w w' := by
  have hfresh := hfiles.fresh w.nextFileId le_rfl
  obtain ⟨hm, rfl, hids⟩ := h.claim hR hO hfresh.1 hfresh.2 fun hmem =>
    absurd (hfiles.own_lt _ (hown _ hmem)) (lt_irrefl _)
  obtain ⟨hfiles', hE⟩ := hfiles.claim (X := (· ∈ g'.ids)) hsound
  refine ⟨hfiles'.congr fun id => ?_, hE, hm⟩
  rw [hids, List.mem_cons]
  constructor
  · rintro (ho | heq)
    · exact Or.inl ho
    · exact Or.inr (Or.inl heq)
  · rintro (ho | heq | hmem)
    · exact Or.inl ho
    · exact Or.inr heq
    · exact Or.inl (hown id hmem)

/-- Every step of a merge, whatever comes of it. -/
theorem MergeOk.step (h : MergeOk tidy g w) (hfiles : FilesOk tidy own w)
    (hown : ∀ id ∈ g.ids, own id) {op : Op} {r : Op.Res op} (hR : MergeLog.protocol g op r g')
    (hO : Outcome op w r w') (hsound : w'.allotted < 2 ^ 32) : StepOk tidy own g' w w' := by
  have hquiet : MergeOk tidy g' w ∧ g'.ids = g.ids ∧ w' = w → StepOk tidy own g' w w' := by
    rintro ⟨hm, hids, rfl⟩
    exact .ofAgrees hfiles hown (.refl _ _) hids hm
  by_cases hwrite : op.isWrite = true
  · have hok := h.write hwrite hR hO
    exact .ofAgrees hfiles hown hok.agrees hok.ids hok.merge
  · cases op with
    | fetchAddFileId => exact h.claimStep hfiles hown hR hO hsound
    | discover => exact hquiet (h.discover hR hO)
    | readFile f => exact hquiet (h.readFile hR hO)
    | keydirIsLive key f pos => exact hquiet (h.keydirIsLive hR hO)
    | keydirCasRepoint key old new =>
      obtain ⟨hm, hids, hw'⟩ := h.keydirCasRepoint hR hO
      have hA : AgreesOff (· ∈ g.ids) w w' := by
        rw [hw']
        exact .of_eq rfl rfl rfl rfl rfl
      exact .ofAgrees hfiles hown hA hids hm
    | removeData f => exact h.removeData hfiles hown hR hO
    | removeHint f => exact h.removeHint hfiles hown hR hO
    | forget f =>
      obtain ⟨-, rfl⟩ := hR
      rcases hO with hO | ⟨f, hO⟩
      · obtain ⟨-, rfl⟩ := Prod.mk.inj hO
        exact .ofAgrees hfiles hown (.of_eq rfl rfl rfl rfl rfl) rfl (h.congr rfl rfl)
      · cases hO
    | locked s =>
      cases s with
      | append maxFileSize encoded => exact hR.elim
      | activeFileId => exact hquiet (MergeOk.activeFileId hR hO)
      | restoreActive highest => exact h.restoreActive hfiles hown hR hO hsound
    | createData | createHint | writeData | writeHint | flushData | flushHint | syncData =>
      exact absurd rfl hwrite
    | _ => exact hR.elim

/-! ## The end of a merge -/

/-- A merge that ends, with success or without, gives its files up. -/
theorem MergeOk.release (h : MergeOk True g w) (hfiles : FilesOk True own w)
    (hend : g.Succeeded ∨ g.Failed ∧ g.lost = false) :
    FilesOk True (fun id => own id ∧ id ∉ g.ids) w := by
  have hdrained : ∀ o ∈ g.outs, o.Drained := by
    intro o ho
    rcases hend with ⟨hsettled, -, -⟩ | ⟨⟨-, hlost | hdrained⟩, hlost'⟩
    · exact (hsettled.closed o ho).drained
    · cases hlost.symm.trans hlost'
    · exact hdrained o ho
  refine { hfiles with
    own_lt := fun id ho => hfiles.own_lt id ho.1, own_ne := fun id ho => hfiles.own_ne id ho.1
    sealed_ := fun ht id data hd ho hne => ?_, hint_lt := fun ht id hint hh ho => ?_ }
  · by_cases hid : id ∈ g.ids
    · obtain ⟨hl, -⟩ := open?_eq_some.mp hd
      rcases MergeLog.mem_ids.mp hid with hc | ⟨o, hout, rfl⟩
      · -- an id claimed for an output whose creation failed halfway
        obtain ⟨hhint, hdata⟩ := h.claimed id hc
        obtain ⟨hlogical, -⟩ := hdata data hl
        obtain ⟨hcontent, hbuffer⟩ := List.append_eq_nil_iff.mp hlogical
        refine ⟨hbuffer, hcontent ▸ isLog_nil, fun hint hh => ?_⟩
        rw [FileTable.open?, hhint trivial] at hh
        cases hh
      · exact (h.outs o hout).sealedFile (hdrained o hout) hl
    · exact hfiles.sealed_ ht id data hd (fun h => ho ⟨h, hid⟩) hne
  · by_cases hid : id ∈ g.ids
    · rcases MergeLog.mem_ids.mp hid with hc | ⟨o, hout, rfl⟩
      · obtain ⟨hhint, -⟩ := h.claimed id hc
        rw [FileTable.open?, hhint trivial] at hh
        cases hh
      · obtain ⟨data, hl, hok⟩ := (h.outs o hout).data
        exact hok.linked.imp (fun hlinked => ⟨data, open?_eq_some.mpr ⟨hl, hlinked⟩⟩) fun hlt => hlt
    · exact hfiles.hint_lt ht id hint hh fun h => ho ⟨h, hid⟩

end

end Yabiir
