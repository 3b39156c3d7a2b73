/-
  Yabiir.HintsCut

  A hint file is never fsynced: a power loss may leave any front of it, and the
  checksum is what tells such a front from the whole (`cuts_rejected_iff`).

  The checksum is the last four bytes of the file, so what is cut behind the
  first field of a record, the timestamp, has a timestamp for a checksum.  Where
  that is the checksum of the records before it the cut goes unnoticed, and
  recovery makes do with those records (`zeroTimestamp_accepted`).

  Unlike in `Yabiir.HintsMatch` an output may be given the id of a file that
  exists: its hint file tells of the new entries only, and this is about them.
-/

import Yabiir.HintsMatch

namespace Yabiir

open Format MergeOutputWriter

variable [Crc32Fast]

/-- The record an entry is written as. -/
def Format.Entry.record (e : Entry) : Record := ⟨e.key, e.value, false, e.header.timestamp⟩

/-- Live entries written one behind the other from `base` on. -/
def placedFrom (base : Nat) (entries : List Entry) : List (Nat × Entry) :=
  layout base (entries.map Entry.record)

/-- The files of a finished output: nothing is left in their buffers, and the
    hint file holds the records of `entries` and their checksum. -/
structure FinishedOutput (w : World) (id : FileId) (base : Nat) (entries : List Entry)
    (data hint : FileState) : Prop where
  dataFile : w.disk.data.open? id = some data
  hintFile : w.disk.hint.open? id = some hint
  drained : data.buffer = [] ∧ hint.buffer = []
  hints : hint.content = encodeHintRecords (placedFrom base entries)
    ++ toLeBytes 4 (Crc32Fast.hash (encodeHintRecords (placedFrom base entries))).toNat

/-- Of the hint file cut anywhere recovery uses nothing. -/
def CutsRejected (id : FileId) (data hint : FileState) : Prop :=
  ∀ cut : Bytes, cut <+: hint.content → cut ≠ hint.content →
    ∀ kd, tryScanHintFile cut id data.content.length kd = none

/-! ## The files as the writer works -/

/-- Records within a file have hint records that can be read back. -/
theorem hintable_layout {rs : List Record} (hfits : ∀ r ∈ rs, r.Fits) {base n : Nat}
    (hle : base + (encodeAll rs).length ≤ n) : ∀ p ∈ layout base rs, Hintable n p := by
  induction rs generalizing base with
  | nil => exact fun p hp => absurd hp List.not_mem_nil
  | cons r rs ih =>
    have hr := hfits r List.mem_cons_self
    have hlen := r.length_encode
    rw [encodeAll_cons, List.length_append] at hle
    intro p hp
    rcases List.mem_cons.mp hp with rfl | hp
    · refine ⟨⟨rfl, rfl, hr.1, hr.2⟩, ?_⟩
      show base + headerSize + r.key.length + r.value.length ≤ n
      omega
    · exact ih (fun r' hr' => hfits r' (List.mem_cons_of_mem _ hr')) (by omega) p hp

/-- The data file of an output is long enough for the copies made. -/
def OutputRoom (o : Output) (data : FileState) : Prop :=
  data.linked = true ∧ o.base + o.data.length ≤ data.logical.length ∧
    (o.copies ≠ [] → data.logical.length ≤ maxFileLen) ∧
    (o.dataFlushed = true → data.buffer = [])

/-- The hint file of an output holds what was written to it. -/
def OutputHints (o : Output) (hint : FileState) : Prop :=
  hint.linked = true ∧ hint.logical = o.hints ∧ (o.hintFlushed = true → hint.buffer = [])

/-- An output no write to which was refused. -/
structure OutputHinted (o : Output) (w : World) : Prop where
  copies : ∀ c ∈ o.copies, c.Sound
  placed : o.copies.map Copy.placed = layout o.base o.records
  data : ∃ data, w.disk.data.lookup o.id = some data ∧ OutputRoom o data
  hint : o.hintMade = true → ∃ hint, w.disk.hint.lookup o.id = some hint ∧ OutputHints o hint

variable {w₀ w w' : World} {g g' : MergeLog} {n : Nat} {o o' : Output}

/-- What leaves the two files alone. -/
theorem OutputHinted.congr (h : OutputHinted o w)
    (hdata : w'.disk.data.lookup o.id = w.disk.data.lookup o.id)
    (hhint : w'.disk.hint.lookup o.id = w.disk.hint.lookup o.id) : OutputHinted o w' where
  copies := h.copies
  placed := h.placed
  data := by
    rw [hdata]
    exact h.data
  hint := by
    rw [hhint]
    exact h.hint

theorem placed_append {c : Copy} {cs : List Copy} {base : Nat} (hsound : c.Sound)
    (hplaced : cs.map Copy.placed = layout base (cs.map Copy.record))
    (hpos : c.dstPos = base + (encodeAll (cs.map Copy.record)).length) :
    (cs ++ [c]).map Copy.placed = layout base ((cs ++ [c]).map Copy.record) := by
  rw [List.map_append, List.map_append, layout_append, hplaced, ← hpos]
  simp [Copy.placed, layout, hsound.entry_record]

/-- Opening the data file. -/
theorem outputHinted_opened (w : World) (id : FileId) :
    OutputHinted (.opened id (w.createData id).1) (w.createData id).2 where
  copies := fun c hc => absurd hc List.not_mem_nil
  placed := rfl
  data := by
    obtain ⟨data, hdata, hlinked, hbuffer⟩ := w.disk.data.lookup_create_self id
    have hbase : (w.createData id).1 = data.content.length := by
      show (((w.disk.data.create id).lookup id).map _).getD 0 = _
      rw [hdata]
      rfl
    refine ⟨data, hdata, hlinked, ?_, fun h => absurd rfl h, fun _ => hbuffer⟩
    show (w.createData id).1 + 0 ≤ data.logical.length
    rw [hbase, FileState.content_eq_logical hbuffer]
    omega
  hint := fun h => by cases h

/-- Opening its hint file. -/
theorem OutputHinted.makeHint {id : FileId} {base : Nat} (h : OutputHinted (.opened id base) w) :
    OutputHinted { Output.opened id base with hintMade := true }
      { w with disk := { w.disk with hint := w.disk.hint.createTruncated id } } where
  copies := h.copies
  placed := h.placed
  data := h.data
  hint := fun _ => by
    refine ⟨.fresh, ?_, rfl, rfl, fun _ => rfl⟩
    show (w.disk.hint.createTruncated id).lookup id = _
    rw [FileTable.lookup_createTruncated, if_pos rfl]

/-- Writing a copy's record. -/
theorem OutputHinted.push (h : OutputHinted o w) {x : FileId × Nat × Entry} (hx : Live x)
    (hshort : World.tooLong w.disk.data o.id (MergeLog.copyTo o x).record.encode = false) :
    OutputHinted (o.push (MergeLog.copyTo o x))
      (w.modifyData o.id (·.writeAll (MergeLog.copyTo o x).record.encode)) := by
  have hsound : (MergeLog.copyTo o x).Sound := ⟨hx.1, hx.2⟩
  refine ⟨?_, placed_append hsound h.placed rfl, ?_, h.hint⟩
  · intro c hc
    rcases List.mem_append.mp hc with hc | hc
    · exact h.copies c hc
    · rw [List.mem_singleton.mp hc]
      exact hsound
  · obtain ⟨data, hdata, hlinked, hroom, -, -⟩ := h.data
    have hlen : (o.push (MergeLog.copyTo o x)).data.length
        = o.data.length + (MergeLog.copyTo o x).record.encode.length := by
      simp [Output.data, Output.records, Output.push]
    rw [World.tooLong, hdata, decide_eq_false_iff_not] at hshort
    refine ⟨_, lookup_modifyData hdata, ?_, ?_, fun _ => ?_, fun hf => by cases hf⟩
    · rw [FileState.linked_writeAll, hlinked]
    · rw [FileState.logical_writeAll, List.length_append, hlen]
      show o.base + _ ≤ _
      omega
    · rw [FileState.logical_writeAll, List.length_append]
      omega

/-- Writing to the hint file. -/
theorem OutputHinted.writeHint (h : OutputHinted o w) (o' : Output) (hmade : o.hintMade = true)
    (hid : o'.id = o.id) (hbase : o'.base = o.base) (hcopies : o'.copies = o.copies)
    (hdataFlushed : o'.dataFlushed = o.dataFlushed) (hflushed : o'.hintFlushed = false)
    {bytes : Bytes} (hhints : o'.hints = o.hints ++ bytes) :
    OutputHinted o' (w.modifyHint o.id (·.writeAll bytes)) := by
  obtain ⟨data, hdata, hlinked, hroom, hshort, hbuffer⟩ := h.data
  obtain ⟨hint, hhint, hlinked', hlogical, -⟩ := h.hint hmade
  have hbytes : o'.data = o.data := by rw [Output.data, Output.records, hcopies]; rfl
  refine ⟨hcopies ▸ h.copies, ?_, ⟨data, hid ▸ hdata, hlinked, ?_, hcopies ▸ hshort, ?_⟩, fun _ => ?_⟩
  · rw [Output.records, hcopies, hbase]
    exact h.placed
  · rw [hbase, hbytes]
    exact hroom
  · rw [hdataFlushed]
    exact hbuffer
  · rw [hid]
    refine ⟨_, lookup_modifyHint hhint, ?_, ?_, fun hf => ?_⟩
    · rw [FileState.linked_writeAll, hlinked']
    · rw [FileState.logical_writeAll, hlogical, hhints]
    · cases hf.symm.trans hflushed

/-- Flushing a data file. -/
theorem OutputHinted.flushData (h : OutputHinted o w) (id : FileId) :
    OutputHinted (if o.id = id then { o with dataFlushed := true } else o)
      (w.modifyData id .flushBuf) := by
  split
  · rename_i hid
    obtain ⟨data, hdata, hlinked, hroom, hshort, -⟩ := h.data
    subst hid
    refine ⟨h.copies, h.placed, ?_, h.hint⟩
    refine ⟨_, lookup_modifyData hdata, hlinked, ?_, fun hne => ?_, fun _ => rfl⟩
    · rw [FileState.logical_flushBuf]
      exact hroom
    · rw [FileState.logical_flushBuf]
      exact hshort hne
  · rename_i hid
    exact h.congr (FileTable.lookup_modify_of_ne _ _ hid) rfl

/-- Flushing a hint file. -/
theorem OutputHinted.flushHint (h : OutputHinted o w) (id : FileId) :
    OutputHinted (if o.id = id then { o with hintFlushed := true } else o)
      (w.modifyHint id .flushBuf) := by
  split
  · rename_i hid
    subst hid
    refine ⟨h.copies, h.placed, h.data, fun hmade => ?_⟩
    obtain ⟨hint, hhint, hlinked, hlogical, -⟩ := h.hint hmade
    refine ⟨_, lookup_modifyHint hhint, hlinked, ?_, fun _ => rfl⟩
    rw [FileState.logical_flushBuf]
    exact hlogical
  · rename_i hid
    exact h.congr rfl (FileTable.lookup_modify_of_ne _ _ hid)

/-- Syncing a data file. -/
theorem OutputHinted.syncData (h : OutputHinted o w) (id : FileId) :
    OutputHinted o (w.modifyData id .syncData) := by
  by_cases hid : o.id = id
  · obtain ⟨data, hdata, hlinked, hroom, hshort, hbuffer⟩ := h.data
    subst hid
    refine ⟨h.copies, h.placed, ?_, h.hint⟩
    exact ⟨_, lookup_modifyData hdata, hlinked, hroom, hshort, hbuffer⟩
  · exact h.congr (FileTable.lookup_modify_of_ne _ _ hid) rfl

/-! ## Every step -/

/-- The outputs since `w₀`, no id of which came twice. -/
structure HintingOk (w₀ : World) (g : MergeLog) (w : World) : Prop where
  ids : ∀ id, id ∈ g.ids ↔ id ∈ w₀.taken w
  nodup : g.ids.Nodup
  checked : ∀ x, g.checked = some x → Live x
  outs : ∀ o ∈ g.outs, OutputHinted o w

/-- The writer at work since `w₀`, while it takes ids none of which comes twice
    and no write of its is refused. -/
structure Hinting (w₀ : World) (n : Nat) (g : MergeLog) (w : World) : Prop where
  counted : Counted w₀ w
  refused : g.failed = true → w.refused = true
  ok : w.allotted ≤ w₀.allotted + n → w.refused = false → HintingOk w₀ g w

namespace MergeLog

variable {outs : List Output}

omit [Crc32Fast] in
/-- The current output has an id of its own. -/
theorem current_ne (hnodup : g.ids.Nodup) (houts : g.outs = o :: outs) :
    ∀ x ∈ outs, x.id ≠ o.id := by
  have hids := (List.nodup_append.mp hnodup).2.1
  rw [houts, List.map_cons, List.nodup_cons] at hids
  intro x hx heq
  exact hids.1 (heq ▸ List.mem_map_of_mem hx)

end MergeLog

/-- Where only the current output and its files change. -/
theorem HintingOk.setCurrent (h : HintingOk w₀ g w) {outs : List Output} (houts : g.outs = o :: outs)
    (houts' : g'.outs = o' :: outs) (hid : o'.id = o.id) (hclaimed : g'.claimed = g.claimed)
    (hchecked : ∀ x, g'.checked = some x → Live x) (htaken : w₀.taken w' = w₀.taken w)
    (hcurrent : OutputHinted o' w')
    (hdata : ∀ id ≠ o.id, w'.disk.data.lookup id = w.disk.data.lookup id)
    (hhint : ∀ id ≠ o.id, w'.disk.hint.lookup id = w.disk.hint.lookup id) : HintingOk w₀ g' w' := by
  have hids := MergeLog.ids_setCurrent houts houts' hid hclaimed
  refine ⟨?_, hids ▸ h.nodup, hchecked, ?_⟩
  · rw [hids, htaken]
    exact h.ids
  · intro x hx
    rw [houts'] at hx
    rcases List.mem_cons.mp hx with rfl | hx
    · exact hcurrent
    · have hne := MergeLog.current_ne h.nodup houts x hx
      have hmem : x ∈ g.outs := by
        rw [houts]
        exact List.mem_cons_of_mem _ hx
      exact (h.outs x hmem).congr (hdata _ hne) (hhint _ hne)

theorem hints_of_open (o : Output) (h : o.trailer = false) :
    o.hints = encodeHints o.hinted := by
  rw [Output.hints, h, if_neg Bool.false_ne_true, List.append_nil]

omit [Crc32Fast] in
theorem perform_writeData {id : FileId} {bytes : Bytes}
    (hrefused : (perform (.writeData id bytes) w).2.refused = false) :
    World.tooLong w.disk.data id bytes = false ∧
      perform (.writeData id bytes) w = (.ok (), w.modifyData id (·.writeAll bytes)) := by
  simp only [perform, performBase] at hrefused ⊢
  split at hrefused
  · cases hrefused
  · rename_i hlong
    exact ⟨Bool.eq_false_of_not_eq_true hlong, if_neg hlong⟩

omit [Crc32Fast] in
theorem perform_writeHint {id : FileId} {bytes : Bytes}
    (hrefused : (perform (.writeHint id bytes) w).2.refused = false) :
    perform (.writeHint id bytes) w = (.ok (), w.modifyHint id (·.writeAll bytes)) := by
  simp only [perform, performBase] at hrefused ⊢
  split at hrefused
  · cases hrefused
  · rename_i hlong
    exact if_neg hlong

/-- A step on the files of the outputs. -/
theorem HintingOk.write (h : HintingOk w₀ g w) {op : Op} (hop : op.isWrite = true)
    (hR : MergeLog.protocol g op (perform op w).1 g') (htaken : w₀.taken (perform op w).2 = w₀.taken w)
    (hrefused : (perform op w).2.refused = false) : HintingOk w₀ g' (perform op w).2 := by
  cases op with
  | createData id =>
    obtain ⟨hclaimed, -, rfl⟩ := hR
    have hids : g.ids = id :: g.outs.map Output.id := by rw [MergeLog.ids, hclaimed]; rfl
    have hnodup := h.nodup
    rw [hids, List.nodup_cons] at hnodup
    refine ⟨?_, ?_, h.checked, fun x hx => ?_⟩
    · intro id'
      rw [htaken, ← h.ids id', hids]
      exact Iff.rfl
    · show (id :: g.outs.map Output.id).Nodup
      rw [List.nodup_cons]
      exact hnodup
    · rcases List.mem_cons.mp hx with rfl | hx
      · exact outputHinted_opened w id
      · have hne : x.id ≠ id := fun heq => hnodup.1 (heq ▸ List.mem_map_of_mem hx)
        exact (h.outs x hx).congr (FileTable.lookup_create_of_ne _ hne) rfl
  | createHint id =>
    obtain ⟨o, outs, houts, rfl, ⟨base, ho⟩, rfl⟩ := hR
    have hcurrent := h.outs o (houts ▸ List.mem_cons_self)
    have hid : o.id = (Output.opened o.id base).id := rfl
    refine h.setCurrent houts rfl rfl rfl h.checked htaken ?_ (fun _ _ => rfl) fun id hne => ?_
    · rw [ho] at hcurrent
      have hmade := hcurrent.makeHint
      rw [← ho] at hmade
      exact hmade
    · show (w.disk.hint.createTruncated _).lookup id = _
      rw [FileTable.lookup_createTruncated, if_neg hne]
  | writeData id bytes =>
    obtain ⟨hlong, hperform⟩ := perform_writeData hrefused
    rw [hperform] at hR htaken ⊢
    obtain ⟨o, outs, x, houts, rfl, hx, -, -, rfl, rfl⟩ := hR
    have hcurrent := h.outs o (houts ▸ List.mem_cons_self)
    refine h.setCurrent houts rfl rfl rfl (fun y hy => by cases hy) htaken ?_ (fun id hne => ?_)
      fun _ _ => rfl
    · exact hcurrent.push (h.checked x hx) hlong
    · exact FileTable.lookup_modify_of_ne _ _ hne
  | writeHint id bytes =>
    have hperform := perform_writeHint hrefused
    rw [hperform] at hR htaken ⊢
    obtain ⟨o, outs, houts, rfl, hopen, o', ho', rfl⟩ := hR
    have hcurrent := h.outs o (houts ▸ List.mem_cons_self)
    have hwritten : OutputHinted o' (w.modifyHint o.id (·.writeAll bytes)) ∧ o'.id = o.id := by
      rcases ho' with ⟨c, hc, rfl, rfl⟩ | ⟨hhinted, -, rfl, rfl⟩
      · refine ⟨hcurrent.writeHint o.pushHint hopen.hintMade rfl rfl rfl rfl rfl ?_, rfl⟩
        have hhints : o.pushHint.hints = encodeHints o.copies :=
          hints_of_open o.pushHint hopen.trailer
        rw [hhints, hints_of_open o hopen.trailer, hc, encodeHints_append]
        simp [encodeHints]
      · refine ⟨hcurrent.writeHint { o with trailer := true, hintFlushed := false } hopen.hintMade rfl rfl rfl rfl rfl ?_, rfl⟩
        rw [hints_of_open o hopen.trailer]
        rfl
    refine h.setCurrent houts rfl hwritten.2 rfl h.checked htaken hwritten.1 (fun _ _ => rfl)
      fun id hne => ?_
    exact FileTable.lookup_modify_of_ne _ _ hne
  | flushData id =>
    obtain rfl : g' = g.flushedData id := hR.2
    refine ⟨?_, ?_, h.checked, fun x hx => ?_⟩
    · rw [htaken, MergeLog.ids_flushedData]
      exact h.ids
    · rw [MergeLog.ids_flushedData]
      exact h.nodup
    · obtain ⟨o, ho, rfl⟩ := List.mem_map.mp hx
      exact (h.outs o ho).flushData id
  | flushHint id =>
    obtain rfl : g' = g.flushedHint id := hR.2
    refine ⟨?_, ?_, h.checked, fun x hx => ?_⟩
    · rw [htaken, MergeLog.ids_flushedHint]
      exact h.ids
    · rw [MergeLog.ids_flushedHint]
      exact h.nodup
    · obtain ⟨o, ho, rfl⟩ := List.mem_map.mp hx
      exact (h.outs o ho).flushHint id
  | syncData id =>
    obtain ⟨-, rfl⟩ := hR
    exact ⟨fun id' => htaken ▸ h.ids id', h.nodup, h.checked, fun o ho => (h.outs o ho).syncData id⟩
  | _ => cases hop

/-- Taking an id that did not come before. -/
theorem HintingOk.claim (h : HintingOk w₀ g w)
    (hR : MergeLog.protocol g .fetchAddFileId w.nextFileId g')
    (htaken : w₀.taken w.fetchAddFileId.2 = w₀.taken w ++ [w.nextFileId])
    (hnodup : (w₀.taken w.fetchAddFileId.2).Nodup) : HintingOk w₀ g' w.fetchAddFileId.2 := by
  obtain ⟨hclaimed, -, -, rfl⟩ := hR
  have hids : g.ids = g.outs.map Output.id := by
    rw [MergeLog.ids, hclaimed]
    rfl
  have hids' : MergeLog.ids { g with claimed := some w.nextFileId } = w.nextFileId :: g.ids := by
    rw [hids]
    rfl
  rw [htaken] at hnodup
  have hfresh : w.nextFileId ∉ w₀.taken w := fun hmem =>
    (List.nodup_append.mp hnodup).2.2 _ hmem _ (by simp) rfl
  refine ⟨fun id => ?_, ?_, h.checked, fun o ho => (h.outs o ho).congr rfl rfl⟩
  · rw [hids', htaken, List.mem_cons, List.mem_append, List.mem_singleton, h.ids id, or_comm]
  · rw [hids', List.nodup_cons, h.ids]
    exact ⟨hfresh, h.nodup⟩

/-- One operation of the writer. -/
theorem Hinting.step (hnodup : (w₀.nextIds n).Nodup) (h : Hinting w₀ n g w) {op : Op}
    (hop : op.isWriters = true) (hR : MergeLog.protocol g op (perform op w).1 g') :
    Hinting w₀ n g' (perform op w).2 := by
  by_cases hwrite : op.isWrite = true
  · obtain ⟨-, hallotted, hmono⟩ := perform_isWrite hwrite w
    obtain ⟨hcounted, htaken⟩ := h.counted.write hwrite
    refine ⟨hcounted, refused_of_failed hwrite hR h.refused, fun hle hrefused => ?_⟩
    have hbefore : w.refused = false := by
      apply Bool.eq_false_of_not_eq_true
      intro ht
      cases (hmono ht).symm.trans hrefused
    exact (h.ok (hallotted ▸ hle) hbefore).write hwrite hR htaken hrefused
  · obtain rfl := Op.isWriters.eq_fetchAddFileId hop hwrite
    show Hinting w₀ n g' w.fetchAddFileId.2
    have hallotted : w.fetchAddFileId.2.allotted = w.allotted + 1 := rfl
    obtain ⟨hcounted, htaken⟩ := h.counted.claim
    refine ⟨hcounted, ?_, fun hle hrefused => ?_⟩
    · obtain ⟨-, -, -, rfl⟩ := hR
      exact h.refused
    · apply (h.ok (by omega) hrefused).claim hR htaken
      exact List.Nodup.sublist (World.nextIds_sublist (by omega)) hnodup

theorem keptByWriter_hinting (hnodup : (w₀.nextIds n).Nodup) : KeptByWriter (Hinting w₀ n) where
  step := fun h hop hR => h.step hnodup hop hR
  check := fun h hx => by
    refine ⟨h.counted, h.refused, fun hle hrefused => ?_⟩
    refine { h.ok hle hrefused with checked := ?_ }
    rintro _ ⟨⟩
    exact hx

theorem hinting_refl (hcounter : w.nextFileId < 2 ^ 32) : Hinting w n .init w := by
  obtain ⟨hcounted, htaken⟩ := counted_refl hcounter
  refine ⟨hcounted, fun hf => (by cases hf), fun _ _ => ⟨fun id => ?_, List.nodup_nil,
    fun x hx => (by cases hx), fun o ho => absurd ho List.not_mem_nil⟩⟩
  simp [htaken, MergeLog.ids, MergeLog.init]

/-! ## Cut hint files -/

/-- A closed output, and what becomes of its hint file when it is cut. -/
theorem OutputHinted.cutsRejected_iff (h : OutputHinted o w) (hc : o.Closed) :
    ∃ data hint, FinishedOutput w o.id o.base (o.copies.map Copy.entry) data hint ∧
      (CutsRejected o.id data hint ↔
        NoTimestampIsChecksum (placedFrom o.base (o.copies.map Copy.entry))) := by
  obtain ⟨data, hdata, hlinked, hroom, hshort, hbuffer⟩ := h.data
  obtain ⟨hint, hhint, hlinked', hlogical, hbuffer'⟩ := h.hint hc.hintMade
  have hdrained := hbuffer hc.drained.1
  have hdrained' := hbuffer' hc.drained.2
  have hplaced : placedFrom o.base (o.copies.map Copy.entry) = o.copies.map Copy.placed := by
    rw [h.placed, placedFrom, List.map_map]
    rfl
  have hcontent : hint.content = encodeHintRecords (o.copies.map Copy.placed)
      ++ toLeBytes 4 (Crc32Fast.hash (encodeHintRecords (o.copies.map Copy.placed))).toNat := by
    rw [FileState.content_eq_logical hdrained', hlogical, ← encodeHints_eq, Output.hints,
      if_pos hc.trailer, hc.hinted]
    rfl
  rw [hplaced]
  refine ⟨data, hint, ⟨open?_eq_some.mpr ⟨hdata, hlinked⟩, open?_eq_some.mpr ⟨hhint, hlinked'⟩,
    ⟨hdrained, hdrained'⟩, hplaced ▸ hcontent⟩, ?_⟩
  rw [CutsRejected, hcontent, FileState.content_eq_logical hdrained]
  by_cases hnone : o.copies = []
  · -- no copy was made, and what is left of the checksum is too short for one
    rw [hnone]
    refine iff_of_true (fun cut hpre hne kd => ?_) fun front p back hps => ?_
    · have hlt : cut.length < hintTrailerSize := by
        have hle := hpre.length_le
        have hne' := fun heq => hne (hpre.eq_of_length heq)
        simp [hintTrailerSize] at hle hne' ⊢
        omega
      rw [tryScanHintFile, validHintRecords, verifyHintFile_short hlt]
      rfl
    · cases front <;> cases hps
  · have hlen := hshort hnone
    have hfits : ∀ r ∈ o.records, r.Fits := by
      intro r hr
      obtain ⟨c, hcopy, rfl⟩ := List.mem_map.mp hr
      exact (h.copies c hcopy).fits_record
    have hps := hintable_layout hfits hroom
    rw [← h.placed] at hps
    apply cut_rejected_iff hps
    · simp only [maxFileLen] at hlen
      omega
    · simp [hintTrailerSize]

/-- The hint files of a writer that is given live entries and then finished:
    each rejects every proper front of itself if and only if no entry of its
    output has the checksum of the hint records before its own for a timestamp.
    (No id of the outputs comes twice, unless there are more than 2^32.) -/
theorem cuts_rejected_iff {w : World} (hcounter : w.nextFileId < 2 ^ 32) (maxFileSize : Nat)
    {entries : List Entry}
    (hentries : ∀ e ∈ entries, e.isTombstone = false ∧
      ∃ (bs : Bytes) (n : Nat) (rest : Bytes), readEntry bs = (some (.ok e n), rest))
    (hnodup : (w.taken ((writeOutputs maxFileSize entries).run perform () w).2).Nodup)
    (hrefused : ((writeOutputs maxFileSize entries).run perform () w).2.refused = false) :
    ((writeOutputs maxFileSize entries).run perform () w).1.1 = .ok () ∧
      ∃ outs : List (FileId × Nat × List Entry),
        (∀ id, id ∈ outs.map (·.1) ↔
          id ∈ w.taken ((writeOutputs maxFileSize entries).run perform () w).2) ∧
        outs.flatMap (·.2.2) = entries ∧
        ∀ out ∈ outs, ∃ data hint,
          FinishedOutput ((writeOutputs maxFileSize entries).run perform () w).2 out.1 out.2.1
            out.2.2 data hint ∧
          (CutsRejected out.1 data hint ↔
            NoTimestampIsChecksum (placedFrom out.2.1 out.2.2)) := by
  have hfits : ∀ e ∈ entries, e.Fits ∧ e.isTombstone = false := by
    intro e he
    obtain ⟨hlive, bs, n, rest, hread⟩ := hentries e he
    exact ⟨readEntry_fits hread, hlive⟩
  obtain ⟨g, hended, h, hcopies⟩ := run_writeOutputs (keptByWriter_hinting hnodup) maxFileSize hfits
    (hinting_refl hcounter)
  rcases hended with ⟨hok, hclaimed, hclosed⟩ | hfailed
  · have hall := h.ok (by have := h.counted.allotted; omega) hrefused
    refine ⟨hok, g.outs.reverse.map fun o => (o.id, o.base, o.copies.map Copy.entry), ?_, ?_, ?_⟩
    · intro id
      rw [← hall.ids, MergeLog.ids, hclaimed]
      simp
    · rw [← hcopies hok, MergeLog.copies, List.flatMap_map, List.map_flatMap]
    · intro out hout
      obtain ⟨o, ho, rfl⟩ := List.mem_map.mp hout
      rw [List.mem_reverse] at ho
      exact (hall.outs o ho).cutsRejected_iff (hclosed o ho)
  · cases hrefused.symm.trans (h.refused hfailed)

/-! ## Timestamp zero -/

/-- The checksum of no bytes is zero, which is a timestamp. -/
def zeroEntry : Entry := ⟨headerOf [1] [2] false 0, [1], [2]⟩

/-- What a writer leaves that is given the entry, in an empty directory. -/
def zeroRun : World :=
  ((writeOutputs 1000 [zeroEntry]).run perform () (.open ⟨∅, ∅⟩ ⟨true, false, 1000⟩ 0 false)).2

theorem zeroEntry_decoded : zeroEntry.isTombstone = false ∧
    ∃ (bs : Bytes) (n : Nat) (rest : Bytes), readEntry bs = (some (.ok zeroEntry n), rest) :=
  ⟨rfl, _, _, _, readEntry_encodeEntry (by decide) (by decide) false 0 []⟩

omit [Crc32Fast] in
/-- Cut behind the timestamp of its first record the hint file passes for one
    with no records: recovery does not find the key, which a scan finds. -/
theorem zeroTimestamp_accepted : letI := ieee
    (zeroEntry.isTombstone = false ∧
      ∃ (bs : Bytes) (n : Nat) (rest : Bytes), readEntry bs = (some (.ok zeroEntry n), rest)) ∧
    ((writeOutputs 1000 [zeroEntry]).run perform ()
      (.open ⟨∅, ∅⟩ ⟨true, false, 1000⟩ 0 false)).1.1 = .ok () ∧
    ∃ data hint, FinishedOutput zeroRun 1 0 [zeroEntry] data hint ∧ ¬ CutsRejected 1 data hint ∧
      (tryScanHintFile [0, 0, 0, 0] 1 data.content.length ∅).map (fun kd => kd.get [1]) = some none ∧
      (scanDataFile data.content 1 ∅).get [1] ≠ none := by
  have hrun : letI := ieee
      ∃ data ∈ zeroRun.disk.data.open? 1, ∃ hint ∈ zeroRun.disk.hint.open? 1,
      (data.buffer = [] ∧ hint.buffer = []) ∧
      hint.content = encodeHintRecords (placedFrom 0 [zeroEntry])
        ++ toLeBytes 4 (Crc32Fast.hash (encodeHintRecords (placedFrom 0 [zeroEntry]))).toNat ∧
      [0, 0, 0, 0] <+: hint.content ∧ [0, 0, 0, 0] ≠ hint.content ∧
      (tryScanHintFile [0, 0, 0, 0] 1 data.content.length ∅).map (fun kd => kd.get [1])
        = some none ∧
      (scanDataFile data.content 1 ∅).get [1] ≠ none := by decide +kernel
  obtain ⟨data, hdata, hint, hhint, hdrained, hhints, hcut, hne, haccepted, hlost⟩ := hrun
  refine ⟨@zeroEntry_decoded ieee, by decide +kernel, data, hint,
    @FinishedOutput.mk ieee _ _ _ _ _ _ hdata hhint hdrained hhints, fun hrejected => ?_,
    haccepted, hlost⟩
  rw [hrejected _ hcut hne ∅] at haccepted
  cases haccepted

omit [Crc32Fast] in
/-- The three outputs of a writer given two entries. -/
theorem cuts_rejected_two : letI := ieee
    ∃ outs : List (FileId × Nat × List Entry),
      (∀ id, id ∈ outs.map (·.1) ↔
        id ∈ (World.open ⟨∅, ∅⟩ ⟨true, false, 0⟩ 0 false).taken
          ((writeOutputs 0 twoEntries).run perform () (.open ⟨∅, ∅⟩ ⟨true, false, 0⟩ 0 false)).2) ∧
      outs.flatMap (·.2.2) = twoEntries ∧
      ∀ out ∈ outs, ∃ data hint,
        FinishedOutput ((writeOutputs 0 twoEntries).run perform ()
          (.open ⟨∅, ∅⟩ ⟨true, false, 0⟩ 0 false)).2 out.1 out.2.1 out.2.2 data hint ∧
        (CutsRejected out.1 data hint ↔ NoTimestampIsChecksum (placedFrom out.2.1 out.2.2)) :=
  letI := ieee
  (cuts_rejected_iff (by decide +kernel) 0 twoEntries_decoded (by decide +kernel)
    (by decide +kernel)).2

end Yabiir
