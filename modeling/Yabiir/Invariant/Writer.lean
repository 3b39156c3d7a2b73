/-
  Yabiir.Invariant.Writer

  The steps of a merge's output writer: opening an output, writing to its two
  files, flushing and syncing them.  Whatever comes of such a step, what the
  merge knows stays true for its new record, and no file of another is touched
  (`MergeOk.write`).
-/

import Yabiir.Invariant.Merge

namespace Yabiir

open Format

variable [Crc32Fast]

/-- What may come of an operation: its effect, or that of a fault. -/
def Outcome (o : Op) (w : World) (r : Op.Res o) (w' : World) : Prop :=
  perform o w = (r, w') ∨ ∃ f, fault f o w = some (r, w')

/-- After a step of the output writer, with record `g'` now: what the merge knows
    is so, and only its own files differ. -/
structure WriteOk (tidy : Prop) (g g' : MergeLog) (w w' : World) : Prop where
  merge : MergeOk tidy g' w'
  agrees : AgreesOff (· ∈ g.ids) w w'
  ids : g'.ids = g.ids

section

variable {tidy : Prop} {g g' : MergeLog} {w w' : World} {o o' : Output} {outs : List Output}
  {id : FileId}

omit [Crc32Fast] in
theorem AgreesOff.mono {X Y : FileId → Prop} (h : AgreesOff X w w') (hXY : ∀ id, X id → Y id) :
    AgreesOff Y w w' :=
  { h with
    data := fun id hY => h.data id fun hx => hY (hXY id hx)
    hint := fun id hY => h.hint id fun hx => hY (hXY id hx) }

/-- A step that touches no file and keeps the outputs. -/
theorem MergeOk.unchanged (h : MergeOk tidy g w) (hA : AgreesOff (fun _ => False) w w')
    (hs : g'.Sound) (houts : g'.outs = g.outs) (hk : g.Keeps g') : WriteOk tidy g g' w w' where
  merge := h.quiet hA hs houts hk
  agrees := hA.mono fun _ hx => hx.elim
  ids := by rw [MergeLog.ids, MergeLog.ids, houts, hk.claimed]

/-- A step that fails without a trace in the files. -/
theorem MergeOk.failed (h : MergeOk tidy g w) : WriteOk tidy g g.fail w w :=
  h.unchanged (.of_eq rfl rfl rfl rfl rfl) h.sound.fail rfl MergeLog.keeps_fail

/-- A step that changes the current output. -/
theorem MergeOk.currentChanged (h : MergeOk tidy g w) (houts : g.outs = o :: outs)
    (hA : AgreesOff (· = o.id) w w') (hs : g'.Sound) (houts' : g'.outs = o' :: outs)
    (hid : o'.id = o.id) (hk : g.Keeps g') (ho' : OutputOk tidy o' w') : WriteOk tidy g g' w w' where
  merge := h.current houts hA hs houts' hid hk ho'
  agrees := hA.mono fun id heq => by
    rw [heq]
    exact MergeLog.id_mem_ids (houts ▸ List.mem_cons_self)
  ids := by simp [MergeLog.ids, houts, houts', hk.claimed, hid]

/-! ## Opening an output -/

theorem OutputOk.opened (hdata : w.disk.data.lookup id = none)
    (hhint : tidy → w.disk.hint.lookup id = none) :
    OutputOk tidy (.opened id 0) (w.createData id).2 where
  sound := outputSound_opened id
  data := by
    have hl : (w.createData id).2.disk.data.lookup id = some .fresh := by
      rw [lookup_createData hdata, if_pos rfl]
    exact ⟨.fresh, hl, wrote_of_eq rfl, fun _ => rfl, Or.inl rfl⟩
  hintMade := fun hm => by cases hm
  hint := fun ht hint hl => by
    rcases ht with ht | ht
    · cases (hhint ht).symm.trans hl
    · cases ht

/-- Creating the data file of an output. -/
theorem MergeOk.createData (h : MergeOk tidy g w) {r : Except IoError Nat}
    (hR : MergeLog.protocol g (.createData id) r g') (hO : Outcome (.createData id) w r w') :
    WriteOk tidy g g' w w' := by
  obtain ⟨hclaimed, hfailed, rfl⟩ := hR
  obtain ⟨hhint, hdata⟩ := h.claimed id hclaimed
  have hnone : w.disk.data.lookup id = none := by
    cases hl : w.disk.data.lookup id with
    | none => rfl
    | some data => cases hfailed.symm.trans (hdata data hl).2
  have hmem : id ∈ g.ids := MergeLog.mem_ids.mpr (Or.inl hclaimed)
  have hA := (AgreesOff.createData hnone).mono (Y := (· ∈ g.ids)) fun _ heq => heq ▸ hmem
  -- the claimed id is no output's yet
  have hne : ∀ o ∈ g.outs, o.id ≠ id := by
    intro o ho heq
    have hn := h.sound.nodup
    rw [MergeLog.ids, hclaimed] at hn
    exact (List.nodup_cons.mp hn).1 (heq ▸ List.mem_map_of_mem ho)
  have hout : ∀ o ∈ g.outs, OutputOk tidy o (w.createData id).2 := fun o ho =>
    (h.outs o ho).agreesOff (AgreesOff.createData hnone) (hne o ho)
  have hrest : g.restored = true → False := fun hr => by
    cases hr.symm.trans (h.sound.unrestored (by simp [hclaimed]))
  rcases hO with hO | ⟨f, hO⟩
  · obtain ⟨rfl, rfl⟩ := Prod.mk.inj hO
    rw [createData_fst hnone]
    refine ⟨?_, hA, by simp [MergeLog.ids, hclaimed, Output.opened]⟩
    apply h.ofAgrees hA (h.sound.opened hclaimed 0) _ _ rfl rfl rfl rfl rfl
    · exact fun hr => (hrest hr).elim
    · intro o ho
      rcases List.mem_cons.mp ho with rfl | ho
      · exact .opened hnone hhint
      · exact hout o ho
    · exact fun _ hc => by cases hc
  · obtain ⟨rfl, rfl⟩ := Prod.mk.inj (Option.some.inj hO)
    by_cases hwrote : f.wrote = 0
    · rw [if_pos hwrote]
      exact h.failed
    · rw [if_neg hwrote]
      refine ⟨?_, hA, rfl⟩
      apply h.ofAgrees hA h.sound.fail hout _ rfl rfl rfl rfl rfl
      · exact fun hr => (hrest hr).elim
      · intro id' hc
        cases hclaimed.symm.trans hc
        refine ⟨hhint, fun data hl => ?_⟩
        rw [lookup_createData hnone, if_pos rfl] at hl
        cases hl
        exact ⟨rfl, rfl⟩

/-- Creating the hint file of an output. -/
theorem MergeOk.createHint (h : MergeOk tidy g w) {r : Except IoError Unit}
    (hR : MergeLog.protocol g (.createHint id) r g') (hO : Outcome (.createHint id) w r w') :
    WriteOk tidy g g' w w' := by
  obtain ⟨o, outs, houts, rfl, ⟨base, hopened⟩, rfl⟩ := hR
  have hok := h.outs o (houts ▸ List.mem_cons_self)
  have hopen : ¬ o.Closed := fun hc => by
    rw [hopened] at hc
    cases hc.hintMade
  have hlookup : ∀ id', (w.disk.hint.createTruncated o.id).lookup id'
      = if id' = o.id then some .fresh else w.disk.hint.lookup id' := fun id' =>
    FileTable.lookup_createTruncated w.disk.hint o.id id'
  have hA : AgreesOff (· = o.id) w
      { w with disk := { w.disk with hint := w.disk.hint.createTruncated o.id } } :=
    .setHint fun id' hne => (hlookup id').trans (if_neg hne)
  have hself := (hlookup o.id).trans (if_pos rfl)
  have hfresh : OutputHint o .fresh := by
    rw [hopened]
    exact ⟨wrote_of_eq rfl, fun _ => rfl⟩
  have hmade : OutputHint { o with hintMade := true } .fresh := ⟨hfresh.wrote, hfresh.flushed⟩
  rcases hO with hO | ⟨f, hO⟩
  · obtain ⟨rfl, rfl⟩ := Prod.mk.inj hO
    exact h.currentChanged houts hA (h.sound.setCurrent houts hopen rfl rfl) rfl rfl
      ⟨rfl, fun hf => hf, rfl, rfl, rfl, rfl, rfl, rfl⟩
      (hok.ofHint hok.sound.makeHint rfl rfl rfl rfl rfl rfl hself hmade)
  · obtain ⟨rfl, rfl⟩ := Prod.mk.inj (Option.some.inj hO)
    by_cases hwrote : f.wrote = 0
    · rw [if_pos hwrote]
      exact h.failed
    · rw [if_neg hwrote]
      exact h.currentChanged houts hA h.sound.fail houts rfl MergeLog.keeps_fail
        (hok.ofHint hok.sound rfl rfl rfl rfl rfl rfl hself hfresh)

/-! ## Writing -/

omit [Crc32Fast] in
theorem AgreesOff.modifyHint {f : FileState → FileState} :
    AgreesOff (· = id) w (w.modifyHint id f) :=
  .setHint fun _ hne => FileTable.lookup_modify_of_ne w.disk.hint f hne

/-- The data file of the current output after a failed write of a record. -/
theorem MergeOk.tornData (h : MergeOk tidy g w) (houts : g.outs = o :: outs) (hopen : o.Open)
    {rec : Record} (hfits : rec.Fits) (hA : AgreesOff (· = o.id) w w')
    (hhint : w'.disk.hint = w.disk.hint) {data' : FileState}
    (hl' : w'.disk.data.lookup o.id = some data') {n : Nat} (hn : n < rec.encode.length)
    (hlogical : data'.logical = o.data ++ rec.encode.take n)
    (hlinked : data'.linked = true ∨ o.id < w.active.fileId) :
    WriteOk tidy g ({ g with outs := { o with torn := rec.encode, dataFlushed := false } :: outs } :
      MergeLog).fail w w' := by
  have hok := h.outs o (houts ▸ List.mem_cons_self)
  have hs : ({ g with outs := { o with torn := rec.encode, dataFlushed := false } :: outs } :
      MergeLog).Sound :=
    h.sound.setCurrent houts (MergeLog.Output.Open.not_closed hopen) rfl rfl
  apply h.currentChanged houts hA hs.fail rfl rfl ⟨rfl, fun _ => rfl, rfl, rfl, rfl, rfl, rfl, rfl⟩
  apply hok.ofData (hok.sound.tear hopen hfits) rfl rfl rfl rfl rfl hhint hl'
  refine ⟨⟨_, hlogical, List.take_prefix .., Or.inr ?_⟩, fun hf => (by cases hf), ?_⟩
  · simpa using hn
  · rw [hA.active]
    exact hlinked

/-- Writing the entry just found live to the data file. -/
theorem MergeOk.writeData (h : MergeOk tidy g w) {bytes : Bytes} {r : Except IoError Unit}
    (hR : MergeLog.protocol g (.writeData id bytes) r g')
    (hO : Outcome (.writeData id bytes) w r w') : WriteOk tidy g g' w w' := by
  obtain ⟨o, outs, x, houts, rfl, hchecked, hopen, hhinted, rfl, rfl⟩ := hR
  have hok := h.outs o (houts ▸ List.mem_cons_self)
  obtain ⟨data, hl, hdata⟩ := hok.data
  obtain ⟨hfits, hlive⟩ := h.sound.checked x hchecked
  have hc : (MergeLog.copyTo o x).Sound := ⟨hfits, hlive⟩
  have hlogical : data.logical = o.data := by
    have hwrote := hdata.wrote
    rw [hopen.torn] at hwrote
    exact hwrote.logical
  have hlen : 0 < (MergeLog.copyTo o x).record.encode.length := by simp [headerSize]
  rcases hO with hO | ⟨f, hO⟩
  · simp only [perform, performBase] at hO
    split at hO
    · -- refused: nothing is written
      obtain ⟨rfl, rfl⟩ := Prod.mk.inj hO
      exact h.tornData houts hopen hc.fits_record (.of_eq rfl rfl rfl rfl rfl) rfl hl hlen
        (by simpa using hlogical) hdata.linked
    · rename_i hshort
      obtain ⟨rfl, rfl⟩ := Prod.mk.inj hO
      have hpush : OutputSound (o.push (MergeLog.copyTo o x)) := by
        apply hok.sound.push hopen hhinted hc rfl rfl
        rw [List.length_append, ← hlogical]
        simpa [World.tooLong, hl] using hshort
      refine h.currentChanged houts (.modifyData fun d hd => ?_) (h.sound.copied houts hopen) rfl rfl
        ⟨rfl, fun hf => hf, rfl, rfl, rfl, rfl, rfl, rfl⟩ ?_
      · exact ⟨FileState.linked_writeAll d _, d.content_prefix_writeAll _⟩
      · refine hok.ofData hpush rfl rfl rfl rfl rfl rfl (lookup_modifyData hl)
          ⟨?_, fun hf => (by cases hf), ?_⟩
        · show Wrote _ _ o.torn
          rw [hopen.torn]
          apply wrote_of_eq
          rw [FileState.logical_writeAll, hlogical]
          simp [Output.data, Output.records, Output.push]
        · show (data.writeAll _).linked = true ∨ o.id < w.active.fileId
          rw [FileState.linked_writeAll]
          exact hdata.linked
  · obtain ⟨d, hd, hO⟩ := Option.bind_eq_some_iff.mp hO
    cases hl.symm.trans hd
    obtain ⟨data', hfail, hO⟩ := Option.map_eq_some_iff.mp hO
    obtain ⟨rfl, rfl⟩ := Prod.mk.inj hO
    obtain ⟨hlinked, hn, hlogical'⟩ := data.logical_writeAllFails _ hfail
    refine h.tornData houts hopen hc.fits_record (.modifyData fun d hd => ?_) rfl
      (lookup_modifyData hl) hn (hlogical ▸ hlogical') (hlinked ▸ hdata.linked)
    cases hl.symm.trans hd
    exact ⟨hlinked, data.content_prefix_writeAllFails _ hfail⟩

/-- Writing a hint record, or the trailer, to the hint file. -/
theorem MergeOk.writeHint (h : MergeOk tidy g w) {bytes : Bytes} {r : Except IoError Unit}
    (hR : MergeLog.protocol g (.writeHint id bytes) r g')
    (hO : Outcome (.writeHint id bytes) w r w') : WriteOk tidy g g' w w' := by
  obtain ⟨o, outs, houts, rfl, hopen, o', hbytes, rfl⟩ := hR
  have hok := h.outs o (houts ▸ List.mem_cons_self)
  obtain ⟨hint, hl⟩ := hok.hintMade hopen.hintMade
  have hhint := hok.hint (Or.inr hopen.hintMade) hint hl
  have hnot := MergeLog.Output.Open.not_closed hopen
  have hhints : o.hints = encodeHints o.hinted := by simp [Output.hints, hopen.trailer]
  have hlogical : hint.logical = o.hints := by
    have hwrote := hhint.wrote
    rw [hopen.hintTorn] at hwrote
    exact hwrote.logical
  -- the output where the write succeeds
  have ho' : OutputSound o' ∧ o'.id = o.id ∧ o'.data = o.data ∧ o'.torn = o.torn ∧
      o'.copies = o.copies ∧ o'.dataFlushed = o.dataFlushed ∧ o'.hintTorn = [] ∧
      o'.hintFlushed = false ∧ o'.hints = o.hints ++ bytes := by
    rcases hbytes with ⟨c, hcopies, rfl, rfl⟩ | ⟨hhinted, -, rfl, rfl⟩
    · refine ⟨hok.sound.pushHint hopen, rfl, rfl, rfl, rfl, rfl, hopen.hintTorn, rfl, ?_⟩
      rw [hhints]
      simp [Output.hints, Output.pushHint, hopen.trailer, hcopies, encodeHints]
    · refine ⟨hok.sound.close hopen hhinted, rfl, rfl, rfl, rfl, rfl, hopen.hintTorn, rfl, ?_⟩
      simp [Output.hints, hopen.trailer]
  obtain ⟨hsound', hid', hdata', htorn', hcopies', hdataFlushed', hhintTorn', hflushed', hhints'⟩ := ho'
  have hlen : 0 < bytes.length := by
    rcases hbytes with ⟨c, -, rfl, -⟩ | ⟨-, -, rfl, -⟩
    · simp [Copy.hint, hintHeaderSize]
    · rw [OutputSound.length_hintTrailer]
      decide
  -- where it fails, some of the bytes may be there
  have hfailed : ∀ (w' : World) (hint' : FileState) (n : Nat), AgreesOff (· = o.id) w w' →
      w'.disk.data = w.disk.data → w'.disk.hint.lookup o.id = some hint' → n < bytes.length →
      hint'.logical = o.hints ++ bytes.take n →
      WriteOk tidy g ({ g with outs := { o with hintTorn := bytes, hintFlushed := false } :: outs } :
        MergeLog).fail w w' := by
    intro w' hint' n hA hdata hl' hn hlogical'
    have hs : ({ g with outs := { o with hintTorn := bytes, hintFlushed := false } :: outs } :
        MergeLog).Sound := h.sound.setCurrent houts hnot rfl rfl
    have htear : OutputSound { o with hintTorn := bytes, hintFlushed := false } := by
      apply hok.sound.tearHint hopen
      rcases hbytes with ⟨c, hc, hb, -⟩ | ⟨hh, -, hb, -⟩
      · exact Or.inl ⟨c, hc, hb⟩
      · exact Or.inr ⟨hh, hb⟩
    apply h.currentChanged houts hA hs.fail rfl rfl ⟨rfl, fun _ => rfl, rfl, rfl, rfl, rfl, rfl, rfl⟩
    refine hok.ofHint htear rfl rfl rfl rfl hdata hA.active hl' ⟨⟨_, hlogical', ?_, Or.inr ?_⟩, ?_⟩
    · exact List.take_prefix ..
    · simpa using hn
    · exact fun hf => by cases hf
  rcases hO with hO | ⟨f, hO⟩
  · simp only [perform, performBase] at hO
    split at hO
    · obtain ⟨rfl, rfl⟩ := Prod.mk.inj hO
      exact hfailed _ hint 0 (.of_eq rfl rfl rfl rfl rfl) rfl hl hlen (by simpa using hlogical)
    · obtain ⟨rfl, rfl⟩ := Prod.mk.inj hO
      apply h.currentChanged houts .modifyHint (h.sound.setCurrent houts hnot hid' hcopies') rfl hid'
        ⟨rfl, fun hf => hf, rfl, rfl, rfl, rfl, rfl, rfl⟩
      refine hok.ofHint hsound' hid' hdata' htorn' hdataFlushed' rfl rfl (lookup_modifyHint hl) ⟨?_, ?_⟩
      · rw [hhintTorn']
        apply wrote_of_eq
        rw [FileState.logical_writeAll, hlogical, hhints']
      · exact fun hf => by cases hflushed'.symm.trans hf
  · obtain ⟨d, hd, hO⟩ := Option.bind_eq_some_iff.mp hO
    cases hl.symm.trans hd
    obtain ⟨hint', hfail, hO⟩ := Option.map_eq_some_iff.mp hO
    obtain ⟨rfl, rfl⟩ := Prod.mk.inj hO
    obtain ⟨-, hn, hlogical'⟩ := hint.logical_writeAllFails _ hfail
    exact hfailed _ hint' _ .modifyHint rfl (lookup_modifyHint hl) hn (hlogical ▸ hlogical')

/-! ## Flushing and syncing -/

/-- A step on the files of one output, whichever it is. -/
theorem MergeOk.outsChanged (h : MergeOk tidy g w) (hid : id ∈ g.outs.map Output.id)
    (hA : AgreesOff (· = id) w w') (hs : g'.Sound) {f : Output → Output}
    (houts : g'.outs = g.outs.map f) (hf : ∀ o, (f o).id = o.id) (hk : g.Keeps g')
    (hok : ∀ o ∈ g.outs, o.id = id → OutputOk tidy (f o) w')
    (hother : ∀ o ∈ g.outs, o.id ≠ id → f o = o) : WriteOk tidy g g' w w' where
  merge := by
    have hclaimed : g.claimed ≠ some id := fun hc => by
      have hn := h.sound.nodup
      rw [MergeLog.ids, hc] at hn
      exact (List.nodup_cons.mp hn).1 hid
    apply h.ofAgrees hA hs _ _ hk.activeAtStart hk.inputs hk.removed hk.kept hk.reads
    · intro hr o ho
      rw [houts] at ho
      obtain ⟨x, hx, rfl⟩ := List.mem_map.mp ho
      rw [hf]
      exact h.restored (hk.restored ▸ hr) x hx
    · intro o ho
      rw [houts] at ho
      obtain ⟨x, hx, rfl⟩ := List.mem_map.mp ho
      by_cases heq : x.id = id
      · exact hok x hx heq
      · rw [hother x hx heq]
        exact (h.outs x hx).agreesOff hA heq
    · intro id' hc
      exact h.claimed_congr hA (fun _ hc heq => hclaimed (heq ▸ hc)) hk.failed hk.claimed hc
  agrees := hA.mono fun id' heq => by
    obtain ⟨o, ho, hoid⟩ := List.mem_map.mp hid
    exact heq ▸ hoid ▸ MergeLog.id_mem_ids ho
  ids := by
    rw [MergeLog.ids, MergeLog.ids, houts, hk.claimed, List.map_map]
    congr 1
    exact List.map_congr_left fun o _ => hf o

/-- Flushing the data file of an output. -/
theorem MergeOk.flushData (h : MergeOk tidy g w) {r : Except IoError Unit}
    (hR : MergeLog.protocol g (.flushData id) r g') (hO : Outcome (.flushData id) w r w') :
    WriteOk tidy g g' w w' := by
  obtain ⟨hid, rfl⟩ := hR
  rcases hO with hO | ⟨f, hO⟩
  · obtain ⟨rfl, rfl⟩ := Prod.mk.inj hO
    have hs : (g.flushedData id).Sound := by
      apply h.sound.mapOuts <;> intro o
      · split <;> rfl
      · split <;> rfl
      · intro hc
        split
        · exact (MergeLog.closed_flush hc).1
        · exact hc
    refine h.outsChanged hid (.modifyData fun d _ => ⟨rfl, d.content_prefix_logical⟩) hs rfl ?_
      ⟨rfl, fun hf => hf, rfl, rfl, rfl, rfl, rfl, rfl⟩ ?_ fun o _ hne => if_neg hne
    · intro o
      split <;> rfl
    · rintro o ho rfl
      obtain ⟨data, hl, hdata⟩ := (h.outs o ho).data
      rw [if_pos rfl]
      refine (h.outs o ho).ofData ((h.outs o ho).sound.flushed true o.hintFlushed) rfl rfl rfl rfl rfl
        rfl (lookup_modifyData hl) ⟨?_, fun _ => rfl, hdata.linked⟩
      exact hdata.wrote.congr data.logical_flushBuf
  · obtain ⟨data, hl, hO⟩ := Option.bind_eq_some_iff.mp hO
    obtain ⟨data', hfail, hO⟩ := Option.map_eq_some_iff.mp hO
    obtain ⟨rfl, rfl⟩ := Prod.mk.inj hO
    obtain ⟨hlinked, hlogical⟩ := data.logical_flushFails hfail
    have hA : AgreesOff (· = id) w (w.modifyData id fun _ => data') := .modifyData fun d hd => by
      cases hl.symm.trans hd
      exact ⟨hlinked, data.content_prefix_flushFails hfail⟩
    refine h.outsChanged hid hA { h.sound with } (List.map_id _).symm (fun _ => rfl)
      ⟨rfl, fun _ => rfl, rfl, rfl, rfl, rfl, rfl, rfl⟩ ?_ fun _ _ _ => rfl
    rintro o ho rfl
    obtain ⟨d, hd, hdata⟩ := (h.outs o ho).data
    cases hl.symm.trans hd
    refine (h.outs o ho).ofData (h.outs o ho).sound rfl rfl rfl rfl rfl rfl
      (lookup_modifyData hl) ⟨hdata.wrote.congr hlogical, fun hf => ?_, ?_⟩
    · -- a file that has nothing buffered cannot fail to be flushed
      rw [FileState.flushFails, hdata.flushed hf] at hfail
      cases hfail
    · rw [hlinked]
      exact hdata.linked

/-- Flushing the hint file of an output. -/
theorem MergeOk.flushHint (h : MergeOk tidy g w) {r : Except IoError Unit}
    (hR : MergeLog.protocol g (.flushHint id) r g') (hO : Outcome (.flushHint id) w r w') :
    WriteOk tidy g g' w w' := by
  obtain ⟨hid, rfl⟩ := hR
  rcases hO with hO | ⟨f, hO⟩
  · obtain ⟨rfl, rfl⟩ := Prod.mk.inj hO
    have hs : (g.flushedHint id).Sound := by
      apply h.sound.mapOuts <;> intro o
      · split <;> rfl
      · split <;> rfl
      · intro hc
        split
        · exact (MergeLog.closed_flush hc).2
        · exact hc
    refine h.outsChanged hid .modifyHint hs rfl ?_ ⟨rfl, fun hf => hf, rfl, rfl, rfl, rfl, rfl, rfl⟩ ?_
      fun o _ hne => if_neg hne
    · intro o
      split <;> rfl
    · rintro o ho rfl
      rw [if_pos rfl]
      have hok := h.outs o ho
      obtain ⟨data, hd, hdata⟩ := hok.data
      refine ⟨hok.sound.flushed o.dataFlushed true,
        ⟨data, hd, hdata.wrote, hdata.flushed, hdata.linked⟩, fun hm => ?_, fun ht hint hl => ?_⟩
      · obtain ⟨hint, hl⟩ := hok.hintMade hm
        exact ⟨_, lookup_modifyHint hl⟩
      · have hl' : (w.disk.hint.lookup o.id).map .flushBuf = some hint :=
          (FileTable.lookup_modify_self w.disk.hint o.id _).symm.trans hl
        obtain ⟨hint', hl'', rfl⟩ := Option.map_eq_some_iff.mp hl'
        exact ⟨(hok.hint ht hint' hl'').wrote.congr hint'.logical_flushBuf, fun _ => rfl⟩
  · obtain ⟨hint, hl, hO⟩ := Option.bind_eq_some_iff.mp hO
    obtain ⟨hint', hfail, hO⟩ := Option.map_eq_some_iff.mp hO
    obtain ⟨rfl, rfl⟩ := Prod.mk.inj hO
    obtain ⟨-, hlogical⟩ := hint.logical_flushFails hfail
    refine h.outsChanged hid .modifyHint { h.sound with } (List.map_id _).symm (fun _ => rfl)
      ⟨rfl, fun _ => rfl, rfl, rfl, rfl, rfl, rfl, rfl⟩ ?_ fun _ _ _ => rfl
    rintro o ho rfl
    have hok := h.outs o ho
    refine ⟨hok.sound, hok.data, fun _ => ⟨_, lookup_modifyHint hl⟩, fun ht d hd => ?_⟩
    cases (lookup_modifyHint hl).symm.trans hd
    have hhint := hok.hint ht hint hl
    refine ⟨hhint.wrote.congr hlogical, fun hf => ?_⟩
    rw [FileState.flushFails, hhint.flushed hf] at hfail
    cases hfail

/-- Syncing the data file of an output. -/
theorem MergeOk.syncData (h : MergeOk tidy g w) {r : Except IoError Unit}
    (hR : MergeLog.protocol g (.syncData id) r g') (hO : Outcome (.syncData id) w r w') :
    WriteOk tidy g g' w w' := by
  obtain ⟨hid, rfl⟩ := hR
  rcases hO with hO | ⟨f, hO⟩
  · obtain ⟨rfl, rfl⟩ := Prod.mk.inj hO
    refine h.outsChanged hid (.modifyData fun d _ => ⟨rfl, List.prefix_rfl⟩) h.sound
      (List.map_id _).symm (fun _ => rfl) ⟨rfl, fun hf => hf, rfl, rfl, rfl, rfl, rfl, rfl⟩ ?_
      fun _ _ _ => rfl
    rintro o ho rfl
    obtain ⟨data, hl, hdata⟩ := (h.outs o ho).data
    refine (h.outs o ho).ofData (h.outs o ho).sound rfl rfl rfl rfl rfl
        rfl (lookup_modifyData hl) ⟨?_, hdata.flushed, hdata.linked⟩
    exact hdata.wrote.congr rfl
  · obtain ⟨rfl, rfl⟩ := Prod.mk.inj (Option.some.inj hO)
    exact h.failed

/-! ## All steps of the writer -/

/-- The writer's operations on files. -/
def Op.isWrite : Op → Bool
  | .createData _ | .createHint _ | .writeData .. | .writeHint .. | .flushData _ | .flushHint _
  | .syncData _ => true
  | _ => false

/-- Whatever comes of a step of the writer, the merge knows its files. -/
theorem MergeOk.write (h : MergeOk tidy g w) {op : Op} (hop : op.isWrite = true) {r : Op.Res op}
    (hR : MergeLog.protocol g op r g') (hO : Outcome op w r w') : WriteOk tidy g g' w w' := by
  cases op with
  | createData id => exact h.createData hR hO
  | createHint id => exact h.createHint hR hO
  | writeData id bytes => exact h.writeData hR hO
  | writeHint id bytes => exact h.writeHint hR hO
  | flushData id => exact h.flushData hR hO
  | flushHint id => exact h.flushHint hR hO
  | syncData id => exact h.syncData hR hO
  | _ => cases hop

/-- What a merge knows is about the files and the active file only. -/
theorem MergeOk.congr (h : MergeOk tidy g w) (hdisk : w'.disk = w.disk)
    (hactive : w'.active = w.active) : MergeOk tidy g w' := by
  obtain ⟨opts, disk, keydir, active, nextFileId, readers, commit, allotted, refused⟩ := w'
  obtain ⟨rfl, rfl⟩ : disk = w.disk ∧ active = w.active := ⟨hdisk, hactive⟩
  exact ⟨h.sound, fun o ho => ⟨(h.outs o ho).sound, (h.outs o ho).data, (h.outs o ho).hintMade,
    (h.outs o ho).hint⟩, h.claimed, h.activeAtStart, h.inputs, h.removed, h.reads, h.restored⟩

/-- Claiming an id no file has. -/
theorem MergeOk.claim (h : MergeOk tidy g w) {n : FileId}
    (hR : MergeLog.protocol g .fetchAddFileId n g') (hO : Outcome .fetchAddFileId w n w')
    (hdata : w.disk.data.lookup w.nextFileId = none)
    (hhint : tidy → w.disk.hint.lookup w.nextFileId = none) (hid : w.nextFileId ∉ g.ids) :
    MergeOk tidy g' w' ∧ w' = w.fetchAddFileId.2 ∧ g'.ids = w.nextFileId :: g.ids := by
  obtain ⟨hclaimed, hrestored, hclosed, rfl⟩ := hR
  rcases hO with hO | ⟨f, hO⟩
  · obtain ⟨rfl, rfl⟩ := Prod.mk.inj hO
    refine ⟨?_, rfl, by simp [MergeLog.ids, hclaimed]⟩
    have hok : MergeOk tidy g w.fetchAddFileId.2 := h.congr rfl rfl
    refine { hok with sound := h.sound.claim hclaimed hrestored hclosed hid, claimed := ?_ }
    rintro _ ⟨⟩
    refine ⟨hhint, fun data hl => ?_⟩
    cases hdata.symm.trans hl
  · cases hO

end

end Yabiir
