/-
  Yabiir.Invariant.Merged

  A merge that nobody disturbs keeps keydir and log in agreement with the map
  (`Ready.merged`).  While it runs, what it copies are the map's own pairs
  (`Carrying`), and the files that are none of its outputs stay as they are until
  the inputs are removed (`Aside`).  Removals may fail; what matters then is that
  no removal uncovers an older value of a deleted key.
-/

import Yabiir.Compaction
import Yabiir.Invariant.Ready

namespace Yabiir

open Format

/-! ## Removals that fail -/

/-- The removal of a file. -/
def Op.isRemoval : Op → Bool
  | .removeData _ | .removeHint _ => true
  | _ => false

/-- Nothing goes wrong, or (where they may fail) a removal. -/
def Removing (failing : Prop) (o : Op) (w : World) (r : Op.Res o) (w' : World) : Prop :=
  perform o w = (r, w') ∨ failing ∧ o.isRemoval = true ∧ ∃ f, fault f o w = some (r, w')

variable [Crc32Fast]

/-- Without the data file `f` the deleted key `key` would be back: its newest
    record is in `f`, and the next older file with records of the key ends with a
    value. -/
def World.Uncovers (w : World) (f : FileId) (key : Bytes) : Prop :=
  w.keydir.get key = none ∧ w.disk.log.Newest key f none ∧
    ∃ id entry, id < f ∧ w.disk.log.LastIn key id (some entry) ∧
      ∀ mid, id < mid → mid < f → ∀ op, ¬ w.disk.log.LastIn key mid op

/-- The operation does not take away a file that covers a deleted key. -/
def KeepsCovered (w : World) (o : Op) (r : Op.Res o) : Prop :=
  ∀ f key, (⟨o, r⟩ : Σ o, Op.Res o) = ⟨.removeData f, .ok ()⟩ → ¬ w.Uncovers f key

/-- What may come of an operation of a merge. -/
def Tolerated (failing : Prop) (o : Op) (w : World) (r : Op.Res o) (w' : World) : Prop :=
  Removing failing o w r w' ∧ (failing → KeepsCovered w o r)

section

variable {failing : Prop} {w w' : World} {g g' : MergeLog} {op : Op} {r : Op.Res op} {id : FileId}

omit [Crc32Fast] in
theorem Removing.outcome (h : Removing failing op w r w') : Outcome op w r w' :=
  h.imp_right fun h => h.2.2

omit [Crc32Fast] in
/-- A removal that fails does nothing. -/
theorem Removing.failed (h : Removing failing op w r w') :
    perform op w = (r, w') ∨ failing ∧ op.isRemoval = true ∧ w' = w := by
  refine h.imp_right ?_
  rintro ⟨hf, hop, f, hfault⟩
  refine ⟨hf, hop, ?_⟩
  cases op with
  | removeData f | removeHint f => exact (Prod.mk.inj (Option.some.inj hfault)).2.symm
  | _ => cases hop

omit [Crc32Fast] in
/-- A refused write is not forgotten. -/
theorem refused_perform (op : Op) (h : w.refused = true) : (perform op w).2.refused = true := by
  cases op with
  | locked s =>
    cases s with
    | append n e =>
      cases hlong : World.tooLong w.disk.data w.active.fileId e.bytes with
      | true => rw [perform_append_tooLong _ _ _ hlong]
      | false =>
        rw [perform_append _ _ _ hlong]
        unfold World.appendRotate
        dsimp only
        split <;> exact h
    | activeFileId => exact h
    | restoreActive highest =>
      rw [perform_restoreActive]
      dsimp only
      split <;> exact h
  | writeData id bytes | writeHint id bytes | removeData id | removeHint id | openReader id
  | commit generation | readFile id =>
    simp only [perform, performBase]
    repeat' split
    all_goals first
      | exact h
      | rfl
  | _ => exact h

/-! ## The record, step by step -/

/-- Only entries found live are copied. -/
theorem MergeLog.copies_step (hR : protocol g op r g') {o : Output} {c : Copy} (ho : o ∈ g'.outs)
    (hc : c ∈ o.copies) :
    (∃ o ∈ g.outs, c ∈ o.copies) ∨ ∃ x, g.checked = some x ∧ c.entry = x.2.2 := by
  unfold protocol at hR
  split at hR
  all_goals grind [init, fail, list, read, copied, copyTo, flushedData, flushedHint, failFlush,
    Output.push, Output.pushHint, Output.opened]

/-- An entry to be copied was found live. -/
theorem MergeLog.checked_step (hR : protocol g op r g') {x : FileId × Nat × Entry}
    (hx : g'.checked = some x) :
    g.checked = some x ∨ x ∈ g.todo ∧ (⟨op, r⟩ : Σ op, Op.Res op)
      = ⟨.keydirIsLive x.2.2.key x.1 (valuePosOf x.2.1 x.2.2), true⟩ := by
  unfold protocol at hR
  split at hR
  all_goals grind [init, fail, list, read, copied, flushedData, flushedHint, failFlush]

/-- Nothing is added to the inputs to be read. -/
theorem MergeLog.unread_step (hR : protocol g op r g') (hinputs : g.inputs ≠ []) {f : FileId}
    (hf : f ∈ g'.unread) : f ∈ g.unread := by
  unfold protocol at hR
  split at hR
  all_goals grind [ids, init, fail, list, read, copied, flushedData, flushedHint, failFlush]

/-- A merge fails by a failed operation. -/
theorem MergeLog.error_step (hR : protocol g op r g') (hfailed : g'.failed = true) :
    g.failed = true ∨ (op.error? r).isSome = true := by
  unfold protocol at hR
  split at hR
  all_goals grind [Op.error?, init, fail, list, read, copied, flushedData, flushedHint, failFlush]

/-- Where nothing but a removal goes wrong and no input is missing, a merge fails
    only where a write is refused. -/
theorem MergeLog.failed_step (hR : protocol g op r g') (hO : Removing failing op w r w')
    (hunread : ∀ f ∈ g.unread, w.Linked f) (hfailed : g'.failed = true) :
    g.failed = true ∨ w'.refused = true := by
  refine (error_step hR hfailed).imp_right fun herror => ?_
  rcases hO with hO | ⟨-, hop, -⟩
  · obtain rfl : r = (perform op w).1 := (congrArg Prod.fst hO).symm
    obtain rfl : w' = (perform op w).2 := (congrArg Prod.snd hO).symm
    cases op with
    | locked s =>
      cases s with
      | restoreActive highest =>
        rw [perform_restoreActive] at herror
        cases herror
      | activeFileId => cases herror
      | append n e => exact hR.elim
    | writeData id bytes | writeHint id bytes =>
      simp only [perform, performBase] at herror ⊢
      split
      · rfl
      · rename_i hshort
        rw [if_neg hshort] at herror
        cases herror
    | readFile f =>
      -- the input is there to be read
      obtain ⟨rest, hrest, -⟩ := hR
      obtain ⟨data, hopen⟩ := hunread f (hrest ▸ List.mem_cons_self)
      simp only [perform, performBase, hopen] at herror
      cases herror
    | openReader | pread | commit => exact hR.elim
    | _ => cases herror
  · cases op with
    | removeData f | removeHint f => cases herror
    | _ => cases hop

/-! ## What is copied -/

/-- What a merge copies are pairs of the map `m`, and the keydir says what the map
    says. -/
structure Carrying (m : KeyMap) (g : MergeLog) (w : World) : Prop where
  inputs : g.inputs ≠ []
  unread : ∀ f ∈ g.unread, w.Linked f
  failed : g.failed = true → w.refused = true
  kept : ∀ key value, m key = some value → Kept g w key value
  absent : ∀ key, m key = none → w.keydir.get key = none
  checked : ∀ x, g.checked = some x → m x.2.2.key = some x.2.2.value
  copies : ∀ o ∈ g.outs, ∀ c ∈ o.copies, m c.entry.key = some c.entry.value

variable {m : KeyMap} {own : FileId → Prop} {key value : Bytes}

/-- A key the keydir does not have, it does not have after a step of a merge. -/
theorem Outcome.absent (hO : Outcome op w r w') (hR : MergeLog.protocol g op r g')
    (h : w.keydir.get key = none) : w'.keydir.get key = none := by
  cases op with
  | keydirCasRepoint key' old new =>
    rcases hO with hO | ⟨f, hO⟩
    · obtain ⟨-, rfl⟩ := Prod.mk.inj hO
      by_cases hkey : key = key'
      · subst hkey
        refine (Keydir.get_casRepoint_self _ _ _ _).trans ?_
        rw [h]
        rfl
      · exact (Keydir.get_casRepoint_of_ne _ _ _ hkey).trans h
    · cases hO
  | keydirInsert | keydirRemove => exact hR.elim
  | _ => rw [hO.keydir rfl, h]

/-- An entry found live is the one the keydir has for its key. -/
theorem Carrying.live (h : Carrying m g w) (hwork : AtWork True own g w) {x : FileId × Nat × Entry}
    (hx : x ∈ g.todo) (hlive : ((w.keydir.get x.2.2.key).any fun kd =>
      kd.fileId == x.1 && kd.valuePos == valuePosOf x.2.1 x.2.2) = true) :
    m x.2.2.key = some x.2.2.value := by
  obtain ⟨kd, hkd, hplace⟩ := (Option.any_eq_true _ _).mp hlive
  obtain ⟨hfile, hpos⟩ : kd.fileId = x.1 ∧ kd.valuePos = valuePosOf x.2.1 x.2.2 := by
    simpa using hplace
  cases hm : m x.2.2.key with
  | none => cases (h.absent _ hm).symm.trans hkd
  | some value =>
    obtain ⟨entry, hkd', hscan, hholds, -, -⟩ := h.kept _ _ hm
    cases hkd.symm.trans hkd'
    have hinput := hwork.sourced.todo x hx
    obtain ⟨bytes, hread, hmem, -⟩ := id hinput
    obtain ⟨p, hp, -, -, hentry⟩ := World.scans_iff.mp hscan
    rw [hfile] at hp hentry
    have hmem' := (readAllEntries_front (hwork.merge.reads _ hread)).subset hmem
    have hpos' : valuePosOf p.1 p.2 = valuePosOf x.2.1 x.2.2 := by
      rw [← hpos, ← hentry]
      rfl
    obtain rfl := readAllEntries_inj hp hmem' hpos'
    rw [← hentry] at hholds
    rw [(hinput.holds hwork.merge).unique hholds]

/-- Every step of a merge keeps it. -/
theorem Carrying.step (h : Carrying m g w) (hwork : AtWork True own g w)
    (hR : MergeLog.protocol g op r g') (hO : Removing failing op w r w')
    (hids : w'.allotted < 2 ^ 32) : Carrying m g' w' where
  inputs := by
    rw [(MergeLog.plan_step hR h.inputs).2.1]
    exact h.inputs
  unread := fun f hf => by
    have hf' := MergeLog.unread_step hR h.inputs hf
    refine hO.outcome.linked ?_ (h.unread f hf')
    rintro rfl
    obtain ⟨hsettled, -⟩ := hR
    rw [hsettled.unread] at hf'
    cases hf'
  failed := fun hfailed => by
    rcases MergeLog.failed_step hR hO h.unread hfailed with hold | hnew
    · rcases hO.failed with hO | ⟨-, -, rfl⟩
      · obtain rfl : w' = (perform op w).2 := (congrArg Prod.snd hO).symm
        exact refused_perform op (h.failed hold)
      · exact h.failed hold
    · exact hnew
  kept := fun key value hm =>
    (h.kept key value hm).step hwork.files hwork.merge hwork.sourced hwork.present hR hO.outcome
      (hwork.step hR hO.outcome hids).2
  absent := fun key hm => hO.outcome.absent hR (h.absent key hm)
  checked := fun x hx => by
    rcases MergeLog.checked_step hR hx with hold | ⟨htodo, heq⟩
    · exact h.checked x hold
    · obtain ⟨rfl, hr⟩ := Sigma.mk.inj heq
      cases hr
      exact h.live hwork htodo hO.outcome.keydirIsLive.symm
  copies := fun o ho c hc => by
    rcases MergeLog.copies_step hR ho hc with ⟨o', ho', hc'⟩ | ⟨x, hx, heq⟩
    · exact h.copies o' ho' c hc'
    · rw [heq]
      exact h.checked x hx

/-! ## The other files -/

/-- Of the files that are no outputs of the merge: a deleted key is deleted in
    their log; those no older than the active file at the start agree with the map
    `m`, and all others are inputs. -/
structure Aside (failing : Prop) (m : KeyMap) (g : MergeLog) (w : World) : Prop where
  gone : ∀ key id op, (w.disk.log.off (· ∈ g.ids)).Newest key id op → m key = none → op = none
  young : ∀ key id op, id ∉ g.ids → g.activeAtStart ≤ id → w.disk.log.LastIn key id op →
    w.Says (m key) op
  full : ∀ id, id ∉ g.ids → g.activeAtStart ≤ id ∨ failing → w.Linked id →
    fileOps w.disk id = w.scanOps id
  old : ∀ id, w.Linked id → id ∉ g.ids → id < g.activeAtStart → id ∈ g.inputs
  top : ∀ id, w.Linked id → id ∉ g.ids → id ≤ w.active.fileId
  above : ∀ id ∈ g.ids, g.activeAtStart < id
  sorted : g.toRemove.Pairwise (· < ·)
  keeping : ¬ failing → g.kept = []

/-- A step that leaves them alone; the merge may claim an id no file has. -/
theorem Aside.alike (h : Aside failing m g w) (hids : ∀ id ∈ g.ids, id ∈ g'.ids)
    (hnew : ∀ id ∈ g'.ids, id ∈ g.ids ∨ ¬ w.Linked id ∧ g.activeAtStart < id)
    (hlog : ∀ id, id ∉ g'.ids → w'.disk.log id = w.disk.log id)
    (hcontent : ∀ id, id ∉ g'.ids → w'.contentOf id = w.contentOf id)
    (hactive : w'.active.fileId = w.active.fileId) (hstart : g'.activeAtStart = g.activeAtStart)
    (hinputs : g'.inputs = g.inputs) (hremove : g'.toRemove = g.toRemove)
    (hkept : g'.kept = g.kept) : Aside failing m g' w' := by
  have hold : ∀ {id}, id ∉ g'.ids → id ∉ g.ids := fun hid hmem => hid (hids _ hmem)
  have hoff : w'.disk.log.off (· ∈ g'.ids) = w.disk.log.off (· ∈ g.ids) := by
    funext id
    unfold Segments.off
    by_cases hid : id ∈ g'.ids
    · rw [if_pos hid]
      rcases hnew id hid with hmem | ⟨hnone, -⟩
      · rw [if_pos hmem]
      · split
        · rfl
        · exact (log_of_not_linked hnone).symm
    · rw [if_neg hid, if_neg (hold hid), hlog id hid]
  refine ⟨?_, fun key id op hid hle hlast => ?_, fun id hid hle hl => ?_, fun id hl hid hlt => ?_,
    fun id hl hid => ?_, fun id hid => ?_, hremove ▸ h.sorted, fun hf => hkept ▸ h.keeping hf⟩
  · rw [hoff]
    exact h.gone
  · have hlast' := hlast.congr (hlog id hid).symm
    exact (h.young key id op (hold hid) (hstart ▸ hle) hlast').stays hlast'
      ((hcontent id hid).symm ▸ List.prefix_rfl)
  · have hl' := (linked_congr (hlog id hid)).mp hl
    rw [fileOps_congr (hlog id hid) hl', h.full id (hold hid) (hstart ▸ hle) hl', World.scanOps,
      World.scanOps, hcontent id hid]
  · rw [hinputs]
    exact h.old id ((linked_congr (hlog id hid)).mp hl) (hold hid) (hstart ▸ hlt)
  · rw [hactive]
    exact h.top id ((linked_congr (hlog id hid)).mp hl) (hold hid)
  · rw [hstart]
    exact (hnew id hid).elim (h.above id) And.right

/-- The same where neither files nor the active one change. -/
theorem Aside.sameFiles (h : Aside failing m g w) (hR : MergeLog.protocol g op r g')
    (hc : Carrying m g w) (hop : ∀ f, op ≠ .removeData f)
    (hnew : ∀ id ∈ g'.ids, id ∈ g.ids ∨ ¬ w.Linked id ∧ g.activeAtStart < id)
    (hdata : ∀ id, id ∉ g'.ids → w'.disk.data.lookup id = w.disk.data.lookup id)
    (hhint : ∀ id, id ∉ g'.ids → w'.disk.hint.lookup id = w.disk.hint.lookup id)
    (hactive : w'.active = w.active) : Aside failing m g' w' := by
  obtain ⟨hstart, hinputs, hplan⟩ := MergeLog.plan_step hR hc.inputs
  obtain ⟨hremove, -, hkept⟩ := hplan hop
  refine h.alike (fun _ => MergeLog.ids_mono hR) hnew (fun id hid => ?_) (fun id hid => ?_)
    (congrArg ActiveFile.fileId hactive) hstart hinputs hremove hkept
  · exact log_congr (by rw [open?_congr (hdata id hid)]) (by rw [open?_congr (hhint id hid)])
  · rw [World.contentOf, World.contentOf, hdata id hid]

/-- A step of the output writer. -/
theorem Aside.write (h : Aside failing m g w) (hc : Carrying m g w) (hwork : AtWork True own g w)
    (hop : op.isWrite = true) (hR : MergeLog.protocol g op r g') (hO : Outcome op w r w') :
    Aside failing m g' w' := by
  have hok := hwork.merge.write hop hR hO
  have hoff : ∀ id, id ∉ g'.ids → id ∉ g.ids := fun id hid => hok.ids ▸ hid
  refine h.sameFiles hR hc ?_ (fun id hid => Or.inl (hok.ids ▸ hid))
    (fun id hid => hok.agrees.data id (hoff id hid)) (fun id hid => hok.agrees.hint id (hoff id hid))
    hok.agrees.active
  rintro f rfl
  cases hop

/-- Claiming an id. -/
theorem Aside.claim (h : Aside failing m g w) (hc : Carrying m g w) (hwork : AtWork True own g w)
    {n : FileId} (hR : MergeLog.protocol g .fetchAddFileId n g')
    (hO : Outcome .fetchAddFileId w n w') : Aside failing m g' w' := by
  rcases hO with hO | ⟨f, hO⟩
  · obtain ⟨rfl, rfl⟩ := Prod.mk.inj hO
    refine h.sameFiles hR hc (fun f heq => by cases heq) (fun id hid => ?_) (fun _ _ => rfl)
      (fun _ _ => rfl) rfl
    rcases MergeLog.ids_step hR hid with hold | heq
    · exact Or.inl hold
    · obtain ⟨-, hr⟩ := Sigma.mk.inj heq
      obtain rfl : w.nextFileId = id := eq_of_heq hr
      refine Or.inr ⟨?_, hwork.merge.activeAtStart.trans_lt hwork.files.active_lt⟩
      rintro ⟨data, hopen⟩
      cases (hwork.files.fresh _ le_rfl).1.symm.trans (open?_eq_some.mp hopen).1
  · cases hO

/-- An input whose removal did not fail is gone, and without failures all are. -/
theorem Aside.linked_removed (h : Aside failing m g w) (hwork : AtWork True own g w) {f : FileId}
    (hf : f ∈ g.removed) (hl : w.Linked f) : f ∈ g.kept ∧ failing := by
  have hkept : f ∈ g.kept := by
    by_contra hkept
    obtain ⟨data, hlookup, hunlinked⟩ := hwork.merge.removed f hf hkept
    obtain ⟨data', hopen⟩ := hl
    obtain ⟨hlookup', hlinked⟩ := open?_eq_some.mp hopen
    cases hlookup.symm.trans hlookup'
    exact Bool.false_ne_true (hunlinked.symm.trans hlinked)
  refine ⟨hkept, ?_⟩
  by_contra hf'
  rw [h.keeping hf'] at hkept
  cases hkept

/-- Removing the hint file of an input. -/
theorem Aside.removeHint (h : Aside failing m g w) (hc : Carrying m g w)
    (hwork : AtWork True own g w) {f : FileId} {r : Except IoError Unit}
    (hR : MergeLog.protocol g (.removeHint f) r g') (hO : Removing failing (.removeHint f) w r w') :
    Aside failing m g' w' := by
  obtain ⟨hf, rfl⟩ := id hR
  rcases hO.failed with hO | ⟨-, -, rfl⟩
  · simp only [perform, performBase] at hO
    split at hO
    · obtain ⟨-, rfl⟩ := Prod.mk.inj hO
      exact h
    · obtain ⟨-, rfl⟩ := Prod.mk.inj hO
      have hlookup : ∀ id, (w.modifyHint f .unlink).disk.hint.lookup id
          = if id = f then (w.disk.hint.lookup f).map .unlink else w.disk.hint.lookup id :=
        fun id => FileTable.lookup_modify w.disk.hint f id _
      have hlog : ∀ id, (w.modifyHint f .unlink).disk.log id = w.disk.log id := by
        intro id
        by_cases hid : id = f
        · subst hid
          have hnone : (w.modifyHint id .unlink).disk.hint.open? id = none := by
            rw [FileTable.open?, hlookup, if_pos rfl]
            cases w.disk.hint.lookup id <;> simp
          by_cases hl : w.Linked id
          · -- its removal failed, and the hint file left nothing out
            obtain ⟨-, hfailing⟩ := h.linked_removed hwork hf hl
            have hapart := hwork.sourced.apart id (hwork.merge.sound.removed id hf)
            have hl' : (w.modifyHint id .unlink).Linked id := hl
            rw [log_of_linked hl, log_of_linked hl', fileOps_noHint hl' hnone,
              h.full id hapart (Or.inr hfailing) hl]
            rfl
          · have hl' : ¬ (w.modifyHint id .unlink).Linked id := hl
            rw [log_of_not_linked hl, log_of_not_linked hl']
        · exact log_congr rfl (by rw [open?_congr ((hlookup id).trans (if_neg hid))])
      exact h.alike (fun _ hid => hid) (fun _ hid => Or.inl hid) (fun id _ => hlog id)
        (fun _ _ => rfl) rfl rfl rfl rfl rfl
  · exact h

/-- What a scan finds in an output that is complete: its copies. -/
theorem OutputOk.content_closed {o : Output} (h : OutputOk True o w) (hclosed : o.Closed) :
    w.contentOf o.id = o.data ∧ readAllEntries (w.contentOf o.id) = o.copies.map Copy.placed := by
  obtain ⟨data, hl, hok⟩ := h.data
  have hcontent : w.contentOf o.id = o.data := by
    rw [contentOf_of_lookup hl, FileState.content_eq_logical (hok.flushed hclosed.drained.1)]
    exact (hclosed.torn ▸ hok.wrote).logical
  rw [hcontent]
  exact ⟨rfl, by simpa using h.sound.readAllEntries torn_nil⟩

/-- The log of an output that is complete: its copies, which a scan finds as
    well. -/
theorem OutputOk.log_closed {o : Output} (h : OutputOk True o w) (hclosed : o.Closed)
    (hlinked : w.Linked o.id) : fileOps w.disk o.id = w.scanOps o.id ∧
      w.scanOps o.id = o.copies.map fun c => (c.entry.key, some c.new) := by
  obtain ⟨data, hl, hok⟩ := h.data
  have hopen : w.disk.data.open? o.id = some data := by
    obtain ⟨data', hopen⟩ := hlinked
    cases hl.symm.trans (open?_eq_some.mp hopen).1
    exact hopen
  have hscanOps : w.scanOps o.id = (o.copies.map Copy.placed).map (entryOp o.id) := by
    rw [World.scanOps, (h.content_closed hclosed).2]
  constructor
  · cases hhint : w.disk.hint.open? o.id with
    | none => exact fileOps_noHint hlinked hhint
    | some hint =>
      have hhintOk := h.hint (Or.inl trivial) hint (open?_eq_some.mp hhint).1
      have hhints : hint.content = o.hints := by
        rw [FileState.content_eq_logical (hhintOk.flushed hclosed.drained.2)]
        exact (hclosed.hintTorn ▸ hhintOk.wrote).logical
      unfold fileOps
      rw [hhint, hopen]
      simp only [Option.bind_some, Option.map_some, Option.getD_some, hhints]
      split
      · rename_i records hvalid
        rw [← List.append_nil o.hints] at hvalid
        obtain ⟨qs, rfl, hfront, hback⟩ := h.sound.validHints List.nil_prefix hvalid
        rw [hclosed.hinted] at hback
        obtain rfl := hfront.eq_of_length_le hback.length_le
        rw [hscanOps, List.map_map]
        rfl
      · rw [World.scanOps, contentOf_of_lookup hl]
  · rw [hscanOps, List.map_map]
    apply List.map_congr_left
    intro c hc
    obtain ⟨hsound, hdst⟩ := h.sound.copies c hc
    have hop : entryOp o.id c.placed = (c.entry.key, some (keydirEntryOf o.id c.dstPos c.entry)) :=
      entryOp_eq_some.mpr ⟨hsound.live, rfl, rfl⟩
    rw [Function.comp_apply, hop, Copy.new, hdst]

/-- What the log of an output says, once the outputs are complete. -/
theorem Carrying.copied (hc : Carrying m g w) (hwork : AtWork True own g w) (hsettled : g.Settled)
    (hid : id ∈ g.ids) {op : Option KeydirEntry} (hlast : w.disk.log.LastIn key id op) :
    ∃ value, m key = some value ∧ w.Says (some value) op := by
  rcases MergeLog.mem_ids.mp hid with hclaimed | ⟨o, ho, rfl⟩
  · cases hsettled.claimed.symm.trans hclaimed
  · have hok := hwork.merge.outs o ho
    have hclosed := hsettled.closed o ho
    obtain ⟨hfull, hops⟩ := hok.log_closed hclosed (hwork.present o ho)
    obtain ⟨ops, hlog, hlast⟩ := hlast
    obtain ⟨-, rfl⟩ := linked_of_log hlog
    have hmem := mem_of_lastOn hlast
    rw [hfull, hops] at hmem
    obtain ⟨c, hcopy, heq⟩ := List.mem_map.mp hmem
    obtain ⟨rfl, rfl⟩ := Prod.mk.inj heq
    exact ⟨c.entry.value, hc.copies o ho c hcopy, c.entry.value, rfl,
      (hok.copied hclosed.drained.1 hcopy).2.2⟩

/-- Removing the data file of an input uncovers no deleted key. -/
theorem Aside.gone_removed (h : Aside failing m g w) (hc : Carrying m g w)
    (hwork : AtWork True own g w) (hsettled : g.Settled) {f : FileId} {rest : List FileId}
    (hremove : g.toRemove = f :: rest) (hsafe : failing → ¬ w.Uncovers f key)
    {op : Option KeydirEntry} (hm : m key = none)
    (hn : Segments.Newest (Function.update (w.disk.log.off (· ∈ g.ids)) f none) key id op) :
    op = none := by
  have hf : f ∈ g.inputs := hwork.merge.sound.toRemove f (hremove ▸ List.mem_cons_self)
  have hlt : f < g.activeAtStart := hwork.merge.sound.inputs f hf
  rcases Segments.newest_remove hn with hn | ⟨⟨op', hf'⟩, hid, hlast, hgap⟩
  · exact h.gone key id op hn hm
  · obtain rfl : op' = none := h.gone key f op' hf' hm
    obtain ⟨hlast, hout⟩ := Segments.lastIn_off.mp hlast
    have hall : ∀ id op, w.disk.log.LastIn key id op →
        (w.disk.log.off (· ∈ g.ids)).LastIn key id op := fun id op hl => by
      refine Segments.lastIn_off.mpr ⟨hl, fun hid => ?_⟩
      obtain ⟨value, hsome, -⟩ := hc.copied hwork hsettled hid hl
      cases hm.symm.trans hsome
    cases op with
    | none => rfl
    | some entry =>
      exfalso
      by_cases hfailing : failing
      · refine hsafe hfailing ⟨hc.absent key hm, ⟨(Segments.lastIn_off.mp hf'.1).1, ?_⟩, id, entry,
          hid, hlast, fun mid h₁ h₂ op hl => hgap mid h₁ h₂ op (hall mid op hl)⟩
        exact fun mid hlt op hl => hf'.2 mid hlt op (hall mid op hl)
      · -- all older inputs are gone
        obtain ⟨ops, hops⟩ := linked_of_lastIn hlast
        have hl := (linked_of_log hops).1
        have hin := h.old id hl hout (hid.trans hlt)
        rcases hwork.sourced.due id hin with hmem | hmem
        · rw [hremove] at hmem
          have hsorted := h.sorted
          rw [hremove] at hsorted
          rcases List.mem_cons.mp hmem with rfl | hmem
          · exact lt_irrefl _ hid
          · exact lt_asymm hid ((List.pairwise_cons.mp hsorted).1 id hmem)
        · exact hfailing (h.linked_removed hwork hmem hl).2

omit [Crc32Fast] in
/-- Unlinking a file leaves its bytes to those who have it open. -/
theorem contentOf_unlinked (w : World) (f id : FileId) :
    (w.modifyData f .unlink).contentOf id = w.contentOf id := by
  apply contentOf_of_sameFile
  have hlookup := FileTable.lookup_modify w.disk.data f id .unlink
  by_cases hid : id = f
  · rw [if_pos hid, ← hid] at hlookup
    exact Or.inr (hid ▸ hlookup)
  · rw [if_neg hid] at hlookup
    exact Or.inl hlookup

theorem log_unlinked (w : World) (f : FileId) :
    (w.modifyData f .unlink).disk.log = Function.update w.disk.log f none := by
  have hlookup : ∀ id, (w.modifyData f .unlink).disk.data.lookup id
      = if id = f then (w.disk.data.lookup f).map .unlink else w.disk.data.lookup id :=
    fun id => FileTable.lookup_modify w.disk.data f id .unlink
  funext id
  by_cases hid : id = f
  · rw [hid, Function.update_self]
    apply log_of_not_linked
    rintro ⟨data, hopen⟩
    obtain ⟨hl, hlinked⟩ := open?_eq_some.mp hopen
    have hl' : (w.disk.data.lookup f).map .unlink = some data :=
      ((hlookup f).trans (if_pos rfl)).symm.trans hl
    obtain ⟨data', -, rfl⟩ := Option.map_eq_some_iff.mp hl'
    cases hlinked
  · rw [Function.update_of_ne hid]
    exact log_congr (by rw [open?_congr ((hlookup id).trans (if_neg hid))]) rfl

/-- Removing the data file of an input. -/
theorem Aside.removeData (h : Aside failing m g w) (hc : Carrying m g w)
    (hwork : AtWork True own g w) {f : FileId} {r : Except IoError Unit}
    (hR : MergeLog.protocol g (.removeData f) r g') (hO : Tolerated failing (.removeData f) w r w') :
    Aside failing m g' w' := by
  obtain ⟨hsettled, rest, hremove, hg'⟩ := id hR
  obtain ⟨hO, hsafe⟩ := hO
  obtain ⟨hstart, hinputs, -⟩ := MergeLog.plan_step hR hc.inputs
  have hids : g'.ids = g.ids := by rw [hg']; rfl
  have hsorted : g'.toRemove.Pairwise (· < ·) := by
    have hsorted := h.sorted
    rw [hremove] at hsorted
    rw [hg']
    exact (List.pairwise_cons.mp hsorted).2
  -- the file is still there, or was not there before
  have hstays : (¬ failing → g'.kept = g.kept) → Aside failing m g' w := by
    intro hkept
    refine ⟨?_, ?_, ?_, ?_, ?_, ?_, hsorted, fun hf => (hkept hf).trans (h.keeping hf)⟩
    · rw [hids]
      exact h.gone
    · rw [hids, hstart]
      exact h.young
    · rw [hids, hstart]
      exact h.full
    · rw [hids, hstart, hinputs]
      exact h.old
    · rw [hids]
      exact h.top
    · rw [hids, hstart]
      exact h.above
  rcases hO.failed with hO | ⟨hfailing, -, rfl⟩
  · simp only [perform, performBase] at hO
    split at hO
    · obtain ⟨rfl, rfl⟩ := Prod.mk.inj hO
      exact hstays fun _ => by rw [hg']
    · obtain ⟨rfl, rfl⟩ := Prod.mk.inj hO
      have hlog := log_unlinked w f
      have hcontent := contentOf_unlinked w f
      have hsame : ∀ id, id ≠ f → (w.modifyData f .unlink).disk.log id = w.disk.log id :=
        fun id hid => by rw [hlog, Function.update_of_ne hid]
      have hlinked : ∀ id, (w.modifyData f .unlink).Linked id → id ≠ f ∧ w.Linked id := by
        intro id hl
        obtain ⟨ops, hops⟩ := linked_iff_log.mp hl
        have hid : id ≠ f := by
          rintro rfl
          rw [hlog, Function.update_self] at hops
          cases hops
        exact ⟨hid, (linked_congr (hsame id hid)).mp hl⟩
      have hf : f ∈ g.inputs := hwork.merge.sound.toRemove f (hremove ▸ List.mem_cons_self)
      have hapart := hwork.sourced.apart f hf
      refine ⟨fun key id op hn hm => ?_, fun key id op hid hle hlast => ?_, fun id hid hle hl => ?_,
        fun id hl hid hlt => ?_, fun id hl hid => ?_, ?_, hsorted, fun hf' => ?_⟩
      · have hoff : (w.modifyData f .unlink).disk.log.off (· ∈ g'.ids)
            = Function.update (w.disk.log.off (· ∈ g.ids)) f none := by
          rw [hlog, hids]
          exact Segments.off_update hapart
        rw [hoff] at hn
        exact h.gone_removed hc hwork hsettled hremove (fun hf' => hsafe hf' f key rfl) hm hn
      · rw [hids] at hid
        rw [hlog] at hlast
        rcases Segments.lastIn_update.mp hlast with ⟨-, ops, hops, -⟩ | ⟨-, hlast⟩
        · cases hops
        · exact (h.young key id op hid (hstart ▸ hle) hlast).stays hlast
            ((hcontent id).symm ▸ List.prefix_rfl)
      · obtain ⟨hne, hl⟩ := hlinked id hl
        rw [fileOps_congr (hsame id hne) hl, h.full id (hids ▸ hid) (hstart ▸ hle) hl, World.scanOps,
          World.scanOps, hcontent]
      · rw [hinputs]
        exact h.old id (hlinked id hl).2 (hids ▸ hid) (hstart ▸ hlt)
      · exact h.top id (hlinked id hl).2 (hids ▸ hid)
      · rw [hids, hstart]
        exact h.above
      · rw [hg']
        exact h.keeping hf'
  · exact hstays fun hf => absurd hfailing hf

/-- Replacing the active file. -/
theorem Aside.rotated (h : Aside failing m g w) (hwork : AtWork True own g w)
    (hids : w.allotted + 1 < 2 ^ 32) : Aside failing m g w.rotated := by
  obtain ⟨hfiles, -⟩ := hwork.files.rotated (X := fun _ => False) hids
  obtain ⟨hnone, hlog, hcontent⟩ := hwork.files.log_rotated
  have hactive := hwork.files.active_lt
  have hstart := hwork.merge.activeAtStart
  have hnew : w.nextFileId ∉ g.ids := fun hid => absurd (hwork.files.own_lt _ (hwork.own _ hid))
    (lt_irrefl _)
  have hsegs : ∀ key id op, w.rotated.disk.log.LastIn key id op ↔ w.disk.log.LastIn key id op := by
    intro key id op
    rw [hlog]
    exact Segments.lastIn_update_nil hnone
  have hother : ∀ id, id ≠ w.nextFileId → w.rotated.disk.log id = w.disk.log id := fun id hid => by
    rw [hlog, Function.update_of_ne hid]
  refine ⟨fun key id op hn hm => ?_, fun key id op hid hle hlast => ?_, fun id hid hle hl => ?_,
    fun id hl hid hlt => ?_, fun id hl hid => ?_, h.above, h.sorted, h.keeping⟩
  · rw [hlog, Segments.off_update hnew, Segments.newest_congr fun _ _ =>
      Segments.lastIn_update_nil (by rw [Segments.off, if_neg hnew, hnone])] at hn
    exact h.gone key id op hn hm
  · have hlast' := (hsegs key id op).mp hlast
    exact (h.young key id op hid hle hlast').stays hlast' ((hcontent id).symm ▸ List.prefix_rfl)
  · by_cases hne : id = w.nextFileId
    · subst hne
      exact fileOps_noHint hl hfiles.noHint_active
    · have hl' := (linked_congr (hother id hne)).mp hl
      rw [fileOps_congr (hother id hne) hl', h.full id hid hle hl', World.scanOps, World.scanOps,
        hcontent]
  · have hne : id ≠ w.nextFileId := by
      have hlt' : id < g.activeAtStart := hlt
      lia
    exact h.old id ((linked_congr (hother id hne)).mp hl) hid hlt
  · by_cases hne : id = w.nextFileId
    · exact hne.le
    · have hle := h.top id ((linked_congr (hother id hne)).mp hl) hid
      exact (hle.trans_lt hactive).le

/-- Every step of a merge keeps it. -/
theorem Aside.step (h : Aside failing m g w) (hc : Carrying m g w) (hwork : AtWork True own g w)
    (hR : MergeLog.protocol g op r g') (hO : Tolerated failing op w r w')
    (hids : w'.allotted < 2 ^ 32) : Aside failing m g' w' := by
  have hlooks : (∀ f, op ≠ .removeData f) → g'.ids = g.ids → w'.disk = w.disk →
      w'.active = w.active → Aside failing m g' w' := fun hop hsame hdisk hactive =>
    h.sameFiles hR hc hop (fun id hid => Or.inl (hsame ▸ hid)) (fun id _ => by rw [hdisk])
      (fun id _ => by rw [hdisk]) hactive
  by_cases hwrite : op.isWrite = true
  · exact h.write hc hwork hwrite hR hO.1.outcome
  · cases op with
    | fetchAddFileId => exact h.claim hc hwork hR hO.1.outcome
    | removeData f => exact h.removeData hc hwork hR hO
    | removeHint f => exact h.removeHint hc hwork hR hO.1
    | keydirIsLive key f pos =>
      obtain ⟨-, hsame, rfl⟩ := hwork.merge.keydirIsLive hR hO.1.outcome
      exact hlooks (fun f heq => by cases heq) hsame rfl rfl
    | discover =>
      obtain ⟨-, hsame, rfl⟩ := hwork.merge.discover hR hO.1.outcome
      exact hlooks (fun f heq => by cases heq) hsame rfl rfl
    | readFile f =>
      obtain ⟨-, hsame, rfl⟩ := hwork.merge.readFile hR hO.1.outcome
      exact hlooks (fun f heq => by cases heq) hsame rfl rfl
    | keydirCasRepoint key old new =>
      obtain ⟨-, hsame, hw'⟩ := hwork.merge.keydirCasRepoint hR hO.1.outcome
      apply hlooks (fun f heq => by cases heq) hsame <;> rw [hw']
    | forget f =>
      obtain ⟨-, rfl⟩ := id hR
      rcases hO.1.failed with hO | ⟨-, hop, -⟩
      · obtain ⟨-, rfl⟩ := Prod.mk.inj hO
        exact hlooks (fun f heq => by cases heq) rfl rfl rfl
      · cases hop
    | locked s =>
      cases s with
      | append n e => exact hR.elim
      | activeFileId =>
        obtain ⟨-, hsame, rfl⟩ := @MergeOk.activeFileId _ True _ _ _ _ _ hR hO.1.outcome
        exact hlooks (fun f heq => by cases heq) hsame rfl rfl
      | restoreActive highest =>
        obtain ⟨-, -, -, hg'⟩ := id hR
        have hids' : g'.ids = g.ids := by
          rw [hg']
          cases r <;> rfl
        rcases hO.1.failed with hO | ⟨-, hop, -⟩
        · rw [perform_restoreActive] at hO
          obtain ⟨rfl, rfl⟩ := Prod.mk.inj hO
          split at hids
          · rename_i hle
            rw [if_pos hle]
            have hrotated := h.rotated hwork hids
            rw [hg']
            exact { hrotated with }
          · rename_i hle
            apply hlooks (fun f heq => by cases heq) hids' <;> rw [if_neg hle]
        · cases hop
    | createData | createHint | writeData | writeHint | flushData | flushHint | syncData =>
      exact absurd rfl hwrite
    | _ => exact hR.elim

/-! ## From its start to its end -/

theorem Carrying.begun (h : Ready failing m w) (hinputs : (MergeLog.begun w).inputs ≠ []) :
    Carrying m (.begun w) w where
  inputs := hinputs
  unread := fun f hf => by
    obtain ⟨data, hl, hlinked⟩ := (FileTable.mem_discover _ _).mp (List.mem_filter.mp hf).1
    exact ⟨data, open?_eq_some.mpr ⟨hl, hlinked⟩⟩
  failed := fun hf => by cases hf
  kept := fun key value hm => by
    obtain ⟨entry, hkd, hleads⟩ := h.present key value hm
    exact ⟨entry, hkd, hleads.scans, hleads.holds, hleads.linked, fun hf => Or.inl hf⟩
  absent := h.absent
  checked := fun x hx => by cases hx
  copies := fun o ho => by cases ho

theorem Aside.begun (h : Ready failing m w) : Aside failing m (.begun w) w where
  gone := fun key id op hn hm => by
    have hoff : w.disk.log.off (· ∈ (MergeLog.begun w).ids) = w.disk.log :=
      funext fun id => if_neg List.not_mem_nil
    rw [hoff] at hn
    have hsays := h.newest key id op hn
    rw [hm] at hsays
    cases op with
    | none => rfl
    | some entry =>
      obtain ⟨value, hvalue, -⟩ := hsays
      cases hvalue
  young := fun key id op _ hle hlast => by
    refine h.newest key id op ⟨hlast, fun id' hlt op' hlast' => ?_⟩
    have hle' : w.active.fileId ≤ id := hle
    have htop := h.top id' (linked_iff_log.mpr (linked_of_lastIn hlast'))
    exact absurd (htop.trans hle') (not_le_of_gt hlt)
  full := fun id _ hle hl => by
    rcases hle with hle | hf
    · obtain rfl : id = w.active.fileId := le_antisymm (h.top id hl) hle
      exact fileOps_noHint hl h.files.noHint_active
    · exact h.full hf id hl
  old := fun id hl _ hlt => by
    obtain ⟨data, hopen⟩ := hl
    refine List.mem_filter.mpr ⟨?_, decide_eq_true hlt⟩
    exact (FileTable.mem_discover _ _).mpr ⟨data, open?_eq_some.mp hopen⟩
  top := fun id hl _ => h.top id hl
  above := fun id hid => by cases hid
  sorted := (FileTable.pairwise_discover _).filter _
  keeping := fun _ => rfl

/-- At the end, what recovery takes from a file that was no input is what a scan
    finds in it. -/
theorem Aside.full_of_settled (h : Aside failing m g w) (hwork : AtWork True own g w)
    (hsettled : g.Settled) (hl : w.Linked id) (hid : id ∉ g.inputs) :
    fileOps w.disk id = w.scanOps id ∧ g.activeAtStart ≤ id := by
  by_cases hmem : id ∈ g.ids
  · refine ⟨?_, (h.above id hmem).le⟩
    rcases MergeLog.mem_ids.mp hmem with hclaimed | ⟨o, ho, rfl⟩
    · cases hsettled.claimed.symm.trans hclaimed
    · exact ((hwork.merge.outs o ho).log_closed (hsettled.closed o ho) hl).1
  · have hle : g.activeAtStart ≤ id := by
      by_contra hlt
      exact hid (h.old id hl hmem (not_le.mp hlt))
    exact ⟨h.full id hmem (Or.inl hle) hl, hle⟩

/-- At the end, the keydir entry of a key of the map leads to its value. -/
theorem Carrying.leads (hc : Carrying m g w) (ha : Aside failing m g w)
    (hwork : AtWork True own g w) (hsettled : g.Settled) (hm : m key = some value) :
    ∃ entry, w.keydir.get key = some entry ∧ Leads w key entry value ∧
      g.activeAtStart ≤ entry.fileId := by
  obtain ⟨entry, hkd, hscan, hholds, hl, hawaits⟩ := hc.kept key value hm
  obtain ⟨hfull, hle⟩ := ha.full_of_settled hwork hsettled hl (hawaits.settled hsettled)
  refine ⟨entry, hkd, ⟨hscan, hholds, hl, ?_⟩, hle⟩
  have hmem : (key, some entry) ∈ fileOps w.disk entry.fileId := hfull ▸ hscan
  obtain ⟨op, hlast⟩ := lastOn_of_mem hmem
  exact ⟨op, _, log_of_linked hl, hlast⟩

/-- What a merge that succeeds leaves. -/
theorem Ready.of_succeeded (hc : Carrying m g w) (ha : Aside failing m g w)
    (hwork : AtWork True own g w) (hown : ∀ id, own id → id ∈ g.ids) (hend : g.Succeeded) :
    Ready failing m w := by
  obtain ⟨hsettled, -, hrest⟩ := id hend
  have hlt : ∀ id ∈ g.ids, id < w.active.fileId := by
    intro id hid
    rcases MergeLog.mem_ids.mp hid with hclaimed | ⟨o, ho, rfl⟩
    · cases hsettled.claimed.symm.trans hclaimed
    · rcases hrest with hnil | hrestored
      · rw [hnil] at ho
        cases ho
      · exact hwork.merge.restored hrestored o ho
  refine ⟨?_, fun id hl => ?_, fun key id op hn => ?_, hc.absent, fun key value hm => ?_,
    fun hf id hl => ?_⟩
  · exact (hwork.merge.release hwork.files (Or.inl hend)).congr fun id =>
      ⟨fun h => h.2 (hown id h.1), fun h => h.elim⟩
  · by_cases hid : id ∈ g.ids
    · exact (hlt id hid).le
    · exact ha.top id hl hid
  · by_cases hid : id ∈ g.ids
    · obtain ⟨value, hm, hsays⟩ := hc.copied hwork hsettled hid hn.1
      exact hm ▸ hsays
    · by_cases hle : g.activeAtStart ≤ id
      · exact ha.young key id op hid hle hn.1
      · cases hm : m key with
        | none => exact ha.gone key id op (hn.off hid) hm ▸ rfl
        | some value =>
          -- a newer file has a record of the key
          obtain ⟨entry, -, hleads, hle'⟩ := hc.leads ha hwork hsettled hm
          obtain ⟨op', hlast⟩ := hleads.logged
          exact absurd (hle'.trans (hn.le hlast)) hle
  · obtain ⟨entry, hkd, hleads, -⟩ := hc.leads ha hwork hsettled hm
    exact ⟨entry, hkd, hleads⟩
  · by_cases hid : id ∈ g.inputs
    · exact ha.full id (hwork.sourced.apart id hid) (Or.inr hf) hl
    · exact (ha.full_of_settled hwork hsettled hl hid).1

omit [Crc32Fast] in
theorem Removing.look {α : Op} (hop : α.isRemoval = false) {r : Op.Res α}
    (h : Removing failing α w r w') : r = (perform α w).1 ∧ w' = (perform α w).2 := by
  rcases h with h | ⟨-, hop', -⟩
  · exact ⟨(congrArg Prod.fst h).symm, (congrArg Prod.snd h).symm⟩
  · cases hop.symm.trans hop'

/-- A merge keeps keydir and log in agreement with the map; it fails only where a
    write is refused. -/
theorem Ready.merged (h : Ready failing m w) {r : Resp}
    (hrun : (Engine.code w.opts .merge).Runs (Tolerated failing) w r w')
    (hids : w'.allotted < 2 ^ 32) :
    (w'.refused = true ∧ ∃ e, r = .unit (.error e)) ∨ r = .unit (.ok ()) ∧ Ready failing m w' := by
  obtain ⟨p, hfollows, hruns, hnone⟩ := runs_merge (fun a w' ho => ho.1.look rfl)
    (fun r w' ho => ho.1.look rfl) h.files.readWrite hrun
  by_cases hinputs : (MergeLog.begun w).inputs = []
  · obtain ⟨rfl, rfl⟩ := hnone hinputs
    exact Or.inr ⟨rfl, h⟩
  · obtain ⟨g, own, hends, hwork, ⟨hc, ha⟩, hown⟩ := (atWork_begun h.files).runs
      (fun _ _ _ _ ho => ho.1.outcome) (fun g w => Carrying m g w ∧ Aside failing m g w)
      (fun own g op w r w' g' hwork hR ho hlt hinv =>
        ⟨hinv.1.step hwork hR ho.1 hlt, hinv.2.step hinv.1 hwork hR ho hlt⟩) hfollows hruns hids
      ⟨.begun h hinputs, .begun h⟩
    rcases hends with ⟨rfl, hend⟩ | ⟨herror, ⟨hinit | hfailed, -⟩⟩
    · exact Or.inr ⟨rfl, .of_succeeded hc ha hwork (fun id ho => (hown id ho).resolve_left not_false) hend⟩
    · exact absurd (by rw [hinit]; rfl) hc.inputs
    · exact Or.inl ⟨hc.failed hfailed, herror⟩

end

end Yabiir
