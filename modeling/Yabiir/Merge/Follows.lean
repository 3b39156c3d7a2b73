/-
  Yabiir.Merge.Follows

  The code of a merge follows the protocol of `Yabiir.Merge.Protocol`: one
  triple for each method, whose protocol state mirrors the method's locals.
-/

import Yabiir.Merge.Protocol

namespace Yabiir

open Format

variable [Crc32Fast] {σ α : Type}

/-! ## Single operations -/

section Ops

variable {G ε : Type} {R : Prog.Protocol Op Op.Res G} {s : σ} {g : G}

omit [Crc32Fast] in
theorem spec_readOp {o : Op} {f : Op.Res o → α} {Q : α → σ → G → Prop} {E : ε → σ → G → Prop}
    (h : ∀ b, ∃ g', R g o b g' ∧ Q (f b) s g') :
    Method.Spec R (readOp o f : EngineM σ ε α) s g Q E := h

omit [Crc32Fast] in
theorem spec_ioOp {o : Op} {f : Op.Res o → Except IoError α} {Q : α → σ → G → Prop}
    {E : IoError → σ → G → Prop}
    (h : ∀ b, ∃ g', R g o b g' ∧
      (match f b with
        | .ok a => Q a s g'
        | .error e => E e s g')) :
    Method.Spec R (ioOp o f : EngineM σ IoError α) s g Q E := by
  refine Method.Spec.bind (P := fun b s' g' => s' = s ∧
    (match f b with
      | .ok a => Q a s g'
      | .error e => E e s g')) ?_ ?_
  · exact Method.Spec.op fun b => by
      obtain ⟨g', hR, hpost⟩ := h b
      exact ⟨g', hR, rfl, hpost⟩
  · rintro b s' g' ⟨rfl, hpost⟩
    refine Method.Spec.ofExcept (fun a ha => ?_) (fun e he => ?_)
    · rw [ha] at hpost
      exact hpost
    · rw [he] at hpost
      exact hpost

end Ops

/-! ## The output writer -/

namespace MergeLog

/-- Nothing failed so far, and the active file is not restored yet. -/
structure Unfailed (g : MergeLog) : Prop where
  failed : g.failed = false
  lost : g.lost = false
  restored : g.restored = false

/-- The writer writes to `o`, the merge's current output, behind earlier ones
    that are closed. -/
structure Writes (w : MergeOutputWriter) (g : MergeLog) (o : Output) (rest : List Output) :
    Prop where
  outs : g.outs = o :: rest
  current : w.currentData = ⟨o.id, o.base + o.data.length⟩
  hintCrc : w.hintCrc = encodeHints o.hinted
  isOpen : o.Open
  closed : ∀ x ∈ rest, x.Closed
  claimed : g.claimed = none
  unfailed : g.Unfailed

/-- An operation failed and at most the writer's current output has bytes in its
    buffers. -/
structure Abandons (w : MergeOutputWriter) (g : MergeLog) : Prop where
  failed : g.failed = true
  lost : g.lost = false
  current : w.currentFileId ∈ g.outs.map Output.id
  drained : ∀ x ∈ g.outs, x.id ≠ w.currentFileId → x.Drained

variable {w : MergeOutputWriter} {g : MergeLog} {o : Output} {rest : List Output}

omit [Crc32Fast] in
theorem map_eq_self {f : Output → Output} {outs : List Output} (h : ∀ x ∈ outs, f x = x) :
    outs.map f = outs := by
  conv_rhs => rw [← List.map_id outs]
  exact List.map_congr_left h

omit [Crc32Fast] in
/-- Flushing the current data file changes the current output only. -/
theorem flushedData_current (h : g.outs = o :: rest) (hrest : ∀ x ∈ rest, x.Closed) :
    g.flushedData o.id = { g with outs := { o with dataFlushed := true } :: rest } := by
  have hsame : rest.map (fun x => if x.id = o.id then { x with dataFlushed := true } else x)
      = rest := map_eq_self fun x hx => by
    have hx := (hrest x hx).drained.1
    split
    · rw [← hx]
    · rfl
  simp [flushedData, h, hsame]

omit [Crc32Fast] in
theorem flushedHint_current (h : g.outs = o :: rest) (hrest : ∀ x ∈ rest, x.Closed) :
    g.flushedHint o.id = { g with outs := { o with hintFlushed := true } :: rest } := by
  have hsame : rest.map (fun x => if x.id = o.id then { x with hintFlushed := true } else x)
      = rest := map_eq_self fun x hx => by
    have hx := (hrest x hx).drained.2
    split
    · rw [← hx]
    · rfl
  simp [flushedHint, h, hsame]

theorem Writes.currentFileId (h : Writes w g o rest) : w.currentFileId = o.id := by
  simp [MergeOutputWriter.currentFileId, h.current]

omit [Crc32Fast] in
/-- Whatever fails while the writer writes behind closed outputs, the merge can
    be abandoned. -/
theorem abandons_of {o : Output} (houts : g.outs = o :: rest) (hid : w.currentFileId = o.id)
    (hclosed : ∀ x ∈ rest, x.Closed) (hfailed : g.failed = true) (hlost : g.lost = false) :
    Abandons w g where
  failed := hfailed
  lost := hlost
  current := by simp [houts, hid]
  drained := by
    intro x hx hne
    rw [houts] at hx
    rcases List.mem_cons.mp hx with rfl | hx
    · exact absurd hid.symm hne
    · exact (hclosed x hx).drained

end MergeLog

open MergeLog

namespace MergeOutputWriter

variable {w : MergeOutputWriter} {g : MergeLog} {o : Output} {rest : List Output}

/-- Claiming an id and opening both files for it. -/
theorem openOutput_spec {s : σ} (hclaimed : g.claimed = none) (hclosed : ∀ x ∈ g.outs, x.Closed)
    (hg : g.Unfailed) :
    Method.Spec protocol (openOutput : EngineM σ IoError ActiveFile) s g
      (fun a s' g' => s' = s ∧ ∃ o : Output, o.Open ∧ o.copies = [] ∧ o.hinted = [] ∧
        o.dataFlushed = true ∧ a = ⟨o.id, o.base⟩ ∧ g' = { g with outs := o :: g.outs })
      (fun _ s' g' => s' = s ∧ g'.failed = true ∧ g'.lost = false ∧
        ∃ opened : List Output, (∀ x ∈ opened, x.Drained) ∧ g'.outs = opened ++ g.outs) := by
  unfold openOutput ActiveFile.create
  refine .seq (spec_readOp fun fileId => ⟨_, ⟨hclaimed, hg.restored, hclosed, rfl⟩, ?_⟩)
  refine .seq (.seq (spec_ioOp fun created => ?_))
  cases created with
  | error e =>
    exact ⟨_, ⟨rfl, hg.failed, rfl⟩, rfl, rfl, hg.lost, [], by simp, rfl⟩
  | ok base =>
    refine ⟨_, ⟨rfl, hg.failed, rfl⟩, .pure (.seq (spec_ioOp fun made => ?_))⟩
    refine ⟨_, ⟨_, _, rfl, rfl, ⟨base, rfl⟩, rfl⟩, ?_⟩
    cases made with
    | error e =>
      refine ⟨rfl, rfl, hg.lost, [.opened fileId base], fun x hx => ?_, rfl⟩
      cases List.mem_singleton.mp hx
      exact ⟨rfl, rfl⟩
    | ok _ =>
      refine .pure ⟨rfl, { Output.opened fileId base with hintMade := true },
        ⟨rfl, rfl, rfl, rfl⟩, rfl, rfl, rfl, rfl, ?_⟩
      simp [hclaimed]

/-- A fresh writer writes to a fresh output. -/
theorem new_spec {s : σ} (maxFileSize : Nat) (hclaimed : g.claimed = none) (houts : g.outs = [])
    (hg : g.Unfailed) :
    Method.Spec protocol (new maxFileSize : EngineM σ IoError MergeOutputWriter) s g
      (fun w _ g' => ∃ o : Output, Writes w g' o [] ∧ o.hinted = o.copies ∧
        g' = { g with outs := [o] })
      (fun _ _ g' => g'.failed = true ∧ g'.lost = false ∧ ∀ x ∈ g'.outs, x.Drained) := by
  unfold new
  refine .seq ((openOutput_spec hclaimed (by simp [houts]) hg).mono ?_ ?_)
  · rintro a s' g' ⟨rfl, o, hopen, hcopies, hhinted, hflushed, rfl, rfl⟩
    refine .pure ⟨o, ⟨by simp [houts], ?_, by simp [hhinted, encodeHints], hopen, by simp,
      hclaimed, ⟨hg.failed, hg.lost, hg.restored⟩⟩, by rw [hcopies, hhinted], by simp [houts]⟩
    simp [Output.data, Output.records, hcopies]
  · rintro e s' g' ⟨-, hfailed, hlost, opened, hdrained, hg'⟩
    exact ⟨hfailed, hlost, fun x hx => hdrained x (by simpa [hg', houts] using hx)⟩

/-- Flushing the current data file. -/
theorem flushOnly_spec (h : Writes w g o rest) :
    Method.Spec protocol (onData ActiveFile.flushOnly) w g
      (fun _ w' g' => w' = w ∧ g' = { g with outs := { o with dataFlushed := true } :: rest })
      (fun _ w' g' => w' = w ∧ Abandons w g') := by
  unfold onData ActiveFile.flushOnly
  refine .onPart (.seq (.get (spec_ioOp fun b => ?_)))
  rw [h.current]
  refine ⟨_, ⟨by simp [h.outs], rfl⟩, ?_⟩
  cases b with
  | ok _ => exact ⟨by rw [← h.current], flushedData_current h.outs h.closed⟩
  | error e =>
    exact ⟨by rw [← h.current],
      abandons_of h.outs h.currentFileId h.closed rfl h.unfailed.failed⟩

theorem sync_spec (h : Writes w g o rest) :
    Method.Spec protocol (onData ActiveFile.sync) w g
      (fun _ w' g' => w' = w ∧ g' = { g with outs := { o with dataFlushed := true } :: rest })
      (fun _ w' g' => w' = w ∧ Abandons w g') := by
  unfold onData ActiveFile.sync
  refine .onPart (.seq (.get (.seq (spec_ioOp fun b => ?_))))
  rw [h.current]
  refine ⟨_, ⟨by simp [h.outs], rfl⟩, ?_⟩
  cases b with
  | error e =>
    exact ⟨by rw [← h.current],
      abandons_of h.outs h.currentFileId h.closed rfl h.unfailed.failed⟩
  | ok _ =>
    have hflush := flushedData_current h.outs h.closed
    refine spec_ioOp fun b => ⟨_, ⟨?_, rfl⟩, ?_⟩
    · simp [hflush]
    · cases b with
      | ok _ => exact ⟨by rw [← h.current], hflush⟩
      | error e =>
        refine ⟨by rw [← h.current], abandons_of
          (o := { o with dataFlushed := true }) ?_ h.currentFileId h.closed rfl ?_⟩
        · simp [hflush, MergeLog.fail]
        · simp [hflush, MergeLog.fail, h.unfailed.lost]

/-- An output with everything flushed and the hint file's trailer written. -/
def sealed (o : Output) : Output :=
  { o with dataFlushed := true, trailer := true, hintFlushed := true }

omit [Crc32Fast] in
theorem closed_sealed (h : o.Open) (hhinted : o.hinted = o.copies) : (sealed o).Closed :=
  ⟨hhinted, h.hintMade, rfl, ⟨rfl, rfl⟩, h.torn, h.hintTorn⟩

/-- Closing the hint file of a flushed output whose hint records are complete. -/
theorem closeCurrentHintFile_spec (h : Writes w g o rest) (hhinted : o.hinted = o.copies)
    (hflushed : o.dataFlushed = true) :
    Method.Spec protocol closeCurrentHintFile w g
      (fun _ w' g' => w' = { w with hintCrc := [] } ∧ g' = { g with outs := sealed o :: rest })
      (fun _ w' g' => Abandons w' g') := by
  have hid := h.currentFileId
  unfold closeCurrentHintFile
  refine .seq (.get (.seq (.modify (.seq (spec_ioOp fun b => ?_)))))
  refine ⟨_, ⟨o, rest, h.outs, hid.symm, h.isOpen, _, Or.inr ⟨hhinted, hflushed, ?_, rfl⟩, rfl⟩,
    ?_⟩
  · simp [hintTrailer, h.hintCrc]
  cases b with
  | error e => exact abandons_of rfl hid h.closed rfl h.unfailed.lost
  | ok _ =>
    refine spec_ioOp fun b => ⟨_, ⟨by simp [hid], rfl⟩, ?_⟩
    cases b with
    | error e =>
      exact abandons_of rfl hid h.closed rfl h.unfailed.failed
    | ok _ =>
      refine ⟨rfl, ?_⟩
      dsimp only [id]
      rw [hid, flushedHint_current (o := { o with trailer := true, hintFlushed := false }) rfl
        h.closed]
      simp [sealed, hflushed]

/-- Rotating to a new output behind one whose hint records are complete. -/
theorem rotate_spec (h : Writes w g o rest) (hhinted : o.hinted = o.copies) :
    Method.Spec protocol rotate w g
      (fun _ w' g' => ∃ o' : Output, Writes w' g' o' (sealed o :: rest) ∧ o'.copies = [] ∧
        o'.hinted = [] ∧ o'.dataFlushed = true ∧
        g' = { g with outs := o' :: sealed o :: rest })
      (fun _ w' g' => Abandons w' g') := by
  have hflushed : Writes w { g with outs := { o with dataFlushed := true } :: rest }
      { o with dataFlushed := true } rest :=
    { h with
      outs := rfl
      isOpen := ⟨h.isOpen.hintMade, h.isOpen.trailer, h.isOpen.torn, h.isOpen.hintTorn⟩
      unfailed := { h.unfailed with } }
  have hclosed : ∀ x ∈ sealed o :: rest, x.Closed := by
    intro x hx
    rcases List.mem_cons.mp hx with rfl | hx
    · exact closed_sealed h.isOpen hhinted
    · exact h.closed x hx
  unfold rotate
  refine .seq ((sync_spec h).mono ?_ ?_)
  · rintro _ w' g' ⟨rfl, rfl⟩
    refine .seq ((closeCurrentHintFile_spec hflushed hhinted rfl).mono ?_ fun _ _ _ h => h)
    rintro _ w' g' ⟨rfl, rfl⟩
    refine .seq ((openOutput_spec (g := { g with outs := sealed o :: rest }) h.claimed hclosed
      { h.unfailed with }).mono ?_ ?_)
    · rintro a w' g' ⟨rfl, o', hopen, hcopies, hhinted', hflushed', rfl, rfl⟩
      refine .modify ⟨o', ⟨rfl, ?_, ?_, hopen, hclosed, h.claimed,
        { h.unfailed with }⟩, hcopies, hhinted', hflushed', rfl⟩
      · simp [Output.data, Output.records, hcopies]
      · simp [hhinted', encodeHints]
    · rintro e w' g' ⟨rfl, hfailed, hlost, opened, hdrained, hg'⟩
      refine ⟨hfailed, hlost, ?_, fun x hx _ => ?_⟩
      · simp [hg', currentFileId, h.current, sealed]
      · rw [hg'] at hx
        exact (List.mem_append.mp hx).elim (hdrained x) fun hx => (hclosed x hx).drained
  · rintro e w' g' ⟨rfl, habandons⟩
    exact habandons

/-- What the writer does behind each entry it wrote. -/
theorem rotateOrFlush_spec (h : Writes w g o rest) (hhinted : o.hinted = o.copies) :
    Method.Spec protocol rotateOrFlush w g
      (fun flushed w' g' => ∃ (o' : Output) (rest' : List Output), Writes w' g' o' rest' ∧
        o'.hinted = o'.copies ∧ (flushed = true → g'.Flushed) ∧
        (∀ x ∈ g'.outs, x.id = w'.currentFileId ∨ x.id ∈ g.outs.map Output.id) ∧
        g' = { g with outs := o' :: rest' })
      (fun _ w' g' => Abandons w' g') := by
  have hid : w.currentFileId = o.id := by simp [currentFileId, h.current]
  unfold rotateOrFlush
  refine .seq (.get ?_)
  split
  · refine .seq ((rotate_spec h hhinted).mono ?_ fun _ _ _ h => h)
    rintro _ w' g' ⟨o', hw', hcopies, hhinted', hflushed', rfl⟩
    have hid' : w'.currentFileId = o'.id := by simp [currentFileId, hw'.current]
    refine .pure ⟨o', _, hw', by rw [hcopies, hhinted'], fun _ x hx => ?_, fun x hx => ?_, rfl⟩
    · rcases List.mem_cons.mp hx with rfl | hx
      · exact ⟨hflushed', by rw [hcopies, hhinted']⟩
      · exact ⟨(hw'.closed x hx).drained.1, (hw'.closed x hx).hinted⟩
    · rcases List.mem_cons.mp hx with rfl | hx
      · exact Or.inl hid'.symm
      · rcases List.mem_cons.mp hx with rfl | hx
        · exact Or.inr (by simp [h.outs, sealed])
        · exact Or.inr (List.mem_map_of_mem (by simp [h.outs, hx]))
  · split
    · unfold flushBatch
      refine .seq (.seq ((flushOnly_spec h).mono ?_ fun _ _ _ h => h.1 ▸ h.2))
      rintro _ w' g' ⟨rfl, rfl⟩
      refine .modify (.pure ⟨{ o with dataFlushed := true }, rest, ⟨rfl, h.current, h.hintCrc,
        ⟨h.isOpen.hintMade, h.isOpen.trailer, h.isOpen.torn, h.isOpen.hintTorn⟩, h.closed,
        h.claimed, { h.unfailed with }⟩, hhinted, fun _ x hx => ?_,
        fun x hx => ?_, rfl⟩)
      · rcases List.mem_cons.mp hx with rfl | hx
        · exact ⟨rfl, hhinted⟩
        · exact ⟨(h.closed x hx).drained.1, (h.closed x hx).hinted⟩
      · rcases List.mem_cons.mp hx with rfl | hx
        · exact Or.inl hid.symm
        · exact Or.inr (List.mem_map_of_mem (by simp [h.outs, hx]))
    · refine .pure ⟨o, rest, h, hhinted, fun hf => absurd hf (by simp), fun x hx => ?_, ?_⟩
      · exact Or.inr (List.mem_map_of_mem hx)
      · rw [← h.outs]

/-- The copy's record behind an output's other records. -/
theorem length_data_push (o : Output) (c : Copy) :
    (o.push c).data.length = o.data.length + c.record.encode.length := by
  simp [Output.data, Output.records, Output.push]

/-- Where the value of the copy is. -/
theorem valuePos_new {x : FileId × Nat × Entry} (hfits : x.2.2.Fits) :
    (copyTo o x).new.valuePos
      = o.base + o.data.length + ((copyTo o x).record.encode.length - x.2.2.value.length) := by
  simp [Copy.new, keydirEntryOf, valuePosOf, copyTo, hfits.keySize, Copy.record]
  omega

/-- Copying the entry just found live, with its hint record. -/
theorem writeLiveEntry_spec (h : Writes w g o rest) (hhinted : o.hinted = o.copies)
    {f : FileId} {pos : Nat} {entry : Entry} (hchecked : g.checked = some (f, pos, entry))
    (hfits : entry.Fits) :
    Method.Spec protocol (writeLiveEntry entry) w g
      (fun r w' g' => ∃ (o' : Output) (rest' : List Output), Writes w' g' o' rest' ∧
        o'.hinted = o'.copies ∧ (r.2.2 = true → g'.Flushed) ∧
        r.1 = (copyTo o (f, pos, entry)).new.fileId ∧
        r.2.1 = (copyTo o (f, pos, entry)).new.valuePos ∧
        (∀ x ∈ g'.outs, x.id = w'.currentFileId ∨ x.id ∈ g.outs.map Output.id) ∧
        g' = { g with
          checked := none
          pending := g.pending ++ [copyTo o (f, pos, entry)]
          outs := o' :: rest' })
      (fun _ w' g' => Abandons w' g') := by
  have hpos := valuePos_new (o := o) (x := (f, pos, entry)) hfits
  set c := copyTo o (f, pos, entry) with hc
  have hencode : (encodeEntry entry.key entry.value false entry.header.timestamp).bytes
      = c.record.encode := rfl
  have hvaluePos : o.base + o.data.length
        + ((encodeEntry entry.key entry.value false entry.header.timestamp).bytes.length
          - entry.value.length) = c.new.valuePos := hpos.symm
  unfold writeLiveEntry onData ActiveFile.appendBuffered ActiveFile.writeUnflushed
  refine .seq (.onPart (.seq (.get (.seq (spec_ioOp fun b => ?_)))))
  rw [h.current]
  refine ⟨_, ⟨o, rest, _, h.outs, rfl, hchecked, h.isOpen, hhinted, hencode, rfl⟩, ?_⟩
  cases b with
  | error e => exact abandons_of rfl rfl h.closed rfl h.unfailed.lost
  | ok _ =>
    refine .seq (.modify (.pure (.seq (.get (.seq (spec_ioOp fun b => ?_))))))
    refine ⟨_, ⟨o.push c, rest, rfl, rfl,
      ⟨h.isOpen.hintMade, h.isOpen.trailer, h.isOpen.torn, h.isOpen.hintTorn⟩, _,
      Or.inl ⟨c, by simp [Output.push, hhinted], ?_, rfl⟩, rfl⟩, ?_⟩
    · simp only [valueLen_encodeEntry, hvaluePos]
      rfl
    cases b with
    | error e =>
      exact abandons_of rfl rfl h.closed rfl h.unfailed.lost
    | ok _ =>
      refine .seq (.modify (.seq ((@rotateOrFlush_spec _ _ _ (o.push c).pushHint rest
        ?_ rfl).mono ?_ fun _ _ _ h => h)))
      · refine ⟨rfl, ?_, ?_, ⟨h.isOpen.hintMade, h.isOpen.trailer, h.isOpen.torn,
          h.isOpen.hintTorn⟩, h.closed, h.claimed, { h.unfailed with }⟩
        · rw [hencode, Nat.add_assoc, ← length_data_push]
          rfl
        · simp only [valueLen_encodeEntry, hvaluePos]
          simp [h.hintCrc, Output.pushHint, Output.push, encodeHints, hhinted]
          rfl
      · rintro flushed w' g' ⟨o', rest', hw', hhinted', hflushed, hids, rfl⟩
        refine .pure ⟨o', rest', hw', hhinted', hflushed, rfl, hvaluePos, ?_, rfl⟩
        simpa [h.outs, MergeLog.copied, Output.push, Output.pushHint] using hids

/-- Finishing the last output. -/
theorem finish_spec (h : Writes w g o rest) (hhinted : o.hinted = o.copies) :
    Method.Spec protocol finish w g
      (fun _ _ g' => g' = { g with outs := sealed o :: rest })
      (fun _ w' g' => Abandons w' g') := by
  have hflushed : Writes w { g with outs := { o with dataFlushed := true } :: rest }
      { o with dataFlushed := true } rest :=
    { h with
      outs := rfl
      isOpen := ⟨h.isOpen.hintMade, h.isOpen.trailer, h.isOpen.torn, h.isOpen.hintTorn⟩
      unfailed := { h.unfailed with } }
  unfold finish
  refine .seq ((sync_spec h).mono ?_ fun _ _ _ h => h.1 ▸ h.2)
  rintro _ w' g' ⟨rfl, rfl⟩
  exact (closeCurrentHintFile_spec hflushed hhinted rfl).mono (fun _ _ _ h => h.2)
    fun _ _ _ h => h

/-- Dropping the writer of an abandoned merge empties the last buffers. -/
theorem drop_spec {s : σ} {ε : Type} {E : ε → σ → MergeLog → Prop} (h : Abandons w g) :
    Method.Spec protocol (drop w : EngineM σ ε Unit) s g (fun _ _ g' => g'.Failed) E := by
  unfold drop
  refine .seq (spec_readOp fun data => ⟨_, ⟨h.current, rfl⟩, spec_readOp fun hint =>
    ⟨_, ⟨?_, rfl⟩, ?_⟩⟩)
  · cases data with
    | ok _ =>
      have hids : (g.flushedData w.currentFileId).outs.map Output.id = g.outs.map Output.id := by
        simp only [flushedData, List.map_map]
        exact List.map_congr_left fun x _ => by simp only [Function.comp]; split <;> rfl
      exact hids ▸ h.current
    | error e => exact h.current
  · cases data with
    | error e =>
      cases hint with
      | error e' => exact ⟨Or.inr rfl, Or.inl rfl⟩
      | ok _ => exact ⟨Or.inr rfl, Or.inl h.failed⟩
    | ok _ =>
      cases hint with
      | error e' => exact ⟨Or.inr rfl, Or.inl h.failed⟩
      | ok _ =>
        refine ⟨Or.inr h.failed, Or.inr fun x hx => ?_⟩
        simp only [flushedData, flushedHint, List.map_map, List.mem_map, Function.comp] at hx
        obtain ⟨y, hy, rfl⟩ := hx
        by_cases hid : y.id = w.currentFileId
        · simp [hid, Output.Drained]
        · simpa [hid] using h.drained y hy hid

end MergeOutputWriter

/-! ## The merge -/

/-- What the queue holds for a copy. -/
def Copy.repoint (c : Copy) : Bytes × KeydirEntry × KeydirEntry := (c.entry.key, c.old, c.new)

/-- The locals of a merge that is copying, `highest` bounding the ids of its
    outputs. -/
structure Copying (s : MergeState) (g : MergeLog) (highest : FileId) (o : Output)
    (rest : List Output) : Prop where
  writes : Writes s.writer g o rest
  hinted : o.hinted = o.copies
  pending : s.pending = g.pending.map Copy.repoint
  highest : ∀ x ∈ g.outs, x.id ≤ highest

variable {s : MergeState} {g : MergeLog} {highest : FileId} {o : Output} {rest : List Output}

theorem repointAll_spec {E : IoError → MergeState → MergeLog → Prop} (hflushed : g.Flushed) :
    Method.Spec protocol (repointAll (g.pending.map Copy.repoint)) s g
      (fun _ s' g' => s' = s ∧ g' = { g with pending := [] }) E := by
  obtain ⟨cs, hcs⟩ : ∃ cs, g.pending = cs := ⟨_, rfl⟩
  induction cs generalizing g with
  | nil =>
    rw [hcs]
    exact .pure ⟨rfl, by rw [← hcs]⟩
  | cons c cs ih =>
    rw [hcs]
    refine .seq (spec_readOp fun done => ⟨_, ⟨c, cs, hcs, rfl, rfl, rfl, hflushed, rfl⟩, ?_⟩)
    exact ih (g := { g with pending := cs }) hflushed rfl

theorem applyPendingRepoints_spec {E : IoError → MergeState → MergeLog → Prop}
    (hpending : s.pending = g.pending.map Copy.repoint) (hflushed : g.Flushed) :
    Method.Spec protocol applyPendingRepoints s g
      (fun _ s' g' => s' = { s with pending := [] } ∧ g' = { g with pending := [] }) E := by
  unfold applyPendingRepoints
  refine .seq (.get (.seq (.modify ?_)))
  rw [hpending]
  exact repointAll_spec hflushed

/-- One input file's entries: each live one is copied. -/
theorem copyEntries_spec {f : FileId} {entries : List (Nat × Entry)}
    (hfits : ∀ p ∈ entries, p.2.Fits) (h : Copying s g highest o rest)
    (htodo : g.todo = liveEntries f entries) (hchecked : g.checked = none) :
    Method.Spec protocol (copyEntries f entries highest) s g
      (fun highest' s' g' => ∃ (o' : Output) (rest' : List Output) (pending' : List Copy),
        Copying s' g' highest' o' rest' ∧
        g' = { g with todo := [], checked := none, pending := pending', outs := o' :: rest' })
      (fun _ s' g' => Abandons s'.writer g') := by
  induction entries generalizing s g highest o rest with
  | nil =>
    refine .pure ⟨o, rest, g.pending, h, ?_⟩
    rw [← h.writes.outs]
    cases g
    simp_all [liveEntries]
  | cons p entries ih =>
    obtain ⟨pos, entry⟩ := p
    have hfits' : ∀ p ∈ entries, p.2.Fits := fun p hp => hfits p (List.mem_cons_of_mem _ hp)
    have hentry : entry.Fits := hfits (pos, entry) List.mem_cons_self
    unfold copyEntries
    by_cases htomb : entry.isTombstone
    · rw [if_pos htomb]
      exact ih hfits' h (by rw [htodo]; simp [liveEntries, htomb]) hchecked
    · rw [if_neg htomb]
      have htodo' : g.todo = (f, pos, entry) :: liveEntries f entries := by
        rw [htodo]
        simp [liveEntries, htomb]
      refine .seq (spec_readOp fun live => ⟨_, ⟨pos, entry, _, htodo', rfl, rfl, hchecked, rfl⟩, ?_⟩)
      dsimp only [id]
      cases live with
      | false =>
        have h' : Copying s { g with todo := liveEntries f entries, checked := none } highest o
            rest :=
          { h with writes := { h.writes with
              unfailed := { h.writes.unfailed with } } }
        rw [if_pos (show (!false) = true from rfl)]
        exact ih hfits' h' rfl rfl
      | true =>
        have h' : Writes s.writer
            { g with todo := liveEntries f entries, checked := some (f, pos, entry) } o rest :=
          { h.writes with unfailed := { h.writes.unfailed with } }
        refine .seq (.onPart ((MergeOutputWriter.writeLiveEntry_spec h' h.hinted rfl hentry).mono ?_
          fun _ _ _ h => h))
        rintro ⟨newFileId, newValuePos, flushed⟩ w' g' ⟨o', rest', hw', hhinted', hflushed, hid, hpos,
          hids, rfl⟩
        have hqueue : s.pending.queue entry f newFileId (valuePosOf pos entry) newValuePos
            = (g.pending ++ [copyTo o (f, pos, entry)]).map Copy.repoint := by
          simp only at hid hpos
          rw [hid, hpos, List.map_append, ← h.pending]
          rfl
        have hhighest : ∀ x ∈ o' :: rest', x.id ≤ max highest w'.currentFileId := by
          intro x hx
          rcases hids x hx with hx | hx
          · exact hx ▸ le_max_right _ _
          · obtain ⟨y, hy, hxy⟩ := List.mem_map.mp hx
            exact hxy ▸ le_max_of_le_left (h.highest y hy)
        refine .seq (.get (.seq (.modify ?_)))
        dsimp only
        by_cases hf : flushed = true
        · rw [if_pos hf]
          refine .seq ((applyPendingRepoints_spec hqueue (hflushed hf)).mono ?_ fun _ _ _ h => h)
          rintro _ s' g' ⟨rfl, rfl⟩
          exact ih hfits' ⟨{ hw' with
            unfailed := { hw'.unfailed with } }, hhinted', rfl, hhighest⟩ rfl rfl
        · rw [if_neg hf]
          exact ih hfits' ⟨hw', hhinted', hqueue, hhighest⟩ rfl rfl

/-- Between two input files: nothing of the last one is left to check. -/
structure Scanned (g : MergeLog) (unread toRemove : List FileId) : Prop where
  unread : g.unread = unread
  todo : g.todo = []
  checked : g.checked = none
  toRemove : g.toRemove = toRemove

theorem copyForwardLiveFileEntries_spec {f : FileId} {unread toRemove : List FileId}
    (h : Copying s g s.highestOutputId o rest) (hscan : Scanned g (f :: unread) toRemove) :
    Method.Spec protocol (copyForwardLiveFileEntries f) s g
      (fun _ s' g' => ∃ (o' : Output) (rest' : List Output),
        Copying s' g' s'.highestOutputId o' rest' ∧ Scanned g' unread toRemove)
      (fun _ s' g' => Abandons s'.writer g') := by
  unfold copyForwardLiveFileEntries
  refine .seq (.get (.seq (spec_ioOp fun bytes => ?_)))
  refine ⟨_, ⟨unread, hscan.unread, hscan.todo, hscan.checked, rfl⟩, ?_⟩
  cases bytes with
  | error e =>
    exact abandons_of h.writes.outs h.writes.currentFileId h.writes.closed rfl
      h.writes.unfailed.lost
  | ok bytes =>
    have hread : Copying s (g.read f unread bytes) s.highestOutputId o rest :=
      { h with writes := { h.writes with
          unfailed := { h.writes.unfailed with } } }
    refine .seq ((copyEntries_spec (fun p hp => (mem_readAllEntries hp).fits) hread rfl
      hscan.checked).mono ?_ fun _ _ _ h => h)
    rintro highest s' g' ⟨o', rest', pending', hcopy, rfl⟩
    exact .modify ⟨o', rest', { hcopy with }, ⟨rfl, rfl, rfl, hscan.toRemove⟩⟩

theorem copyForwardAllLiveEntries_spec {unread toRemove : List FileId}
    (h : Copying s g s.highestOutputId o rest) (hscan : Scanned g unread toRemove) :
    Method.Spec protocol (copyForwardAllLiveEntries unread) s g
      (fun _ s' g' => ∃ (o' : Output) (rest' : List Output),
        Copying s' g' s'.highestOutputId o' rest' ∧ Scanned g' [] toRemove)
      (fun _ s' g' => Abandons s'.writer g') := by
  induction unread generalizing s g o rest with
  | nil => exact .pure ⟨o, rest, h, hscan⟩
  | cons f unread ih =>
    refine .seq ((copyForwardLiveFileEntries_spec h hscan).mono ?_ fun _ _ _ h => h)
    rintro _ s' g' ⟨o', rest', hcopy, hscan'⟩
    exact ih hcopy hscan'

theorem finishAndApplyPendingRepoints_spec {toRemove : List FileId}
    (h : Copying s g s.highestOutputId o rest) (hscan : Scanned g [] toRemove) :
    Method.Spec protocol finishAndApplyPendingRepoints s g
      (fun _ s' g' => g'.Settled ∧ g'.toRemove = toRemove ∧
        ∀ x ∈ g'.outs, x.id ≤ s'.highestOutputId)
      (fun _ s' g' => Abandons s'.writer g') := by
  have hclosed : ∀ x ∈ MergeOutputWriter.sealed o :: rest, x.Closed := by
    intro x hx
    rcases List.mem_cons.mp hx with rfl | hx
    · exact MergeOutputWriter.closed_sealed h.writes.isOpen h.hinted
    · exact h.writes.closed x hx
  unfold finishAndApplyPendingRepoints
  refine .seq (.onPart ((MergeOutputWriter.finish_spec h.writes h.hinted).mono ?_
    fun _ _ _ h => h))
  rintro _ w' g' rfl
  refine (applyPendingRepoints_spec (s := { s with writer := w' })
    (g := { g with outs := MergeOutputWriter.sealed o :: rest }) h.pending
    fun x hx => ⟨(hclosed x hx).drained.1, (hclosed x hx).hinted⟩).mono ?_ fun _ _ _ h => h
  rintro _ s' g' ⟨rfl, rfl⟩
  refine ⟨⟨hscan.unread, hscan.todo, hscan.checked, rfl, h.writes.claimed, hclosed⟩,
    hscan.toRemove, fun x hx => ?_⟩
  rcases List.mem_cons.mp hx with rfl | hx
  · exact h.highest o (by simp [h.writes.outs])
  · exact h.highest x (by simp [h.writes.outs, hx])

omit [Crc32Fast] in
theorem removeOldInputFiles_spec [Crc32Fast] {s : σ} {ε : Type} {E : ε → σ → MergeLog → Prop}
    {ids : List FileId} (hsettled : g.Settled) (hids : g.toRemove = ids) :
    Method.Spec protocol (removeOldInputFiles ids : EngineM σ ε Unit) s g
      (fun _ _ g' => g'.Settled ∧ g'.toRemove = [] ∧ g'.outs = g.outs) E := by
  induction ids generalizing g with
  | nil => exact .pure ⟨hsettled, hids, rfl⟩
  | cons f ids ih =>
    have hmem : f ∈ f :: g.removed := List.mem_cons_self
    refine .seq (spec_readOp fun _ => ⟨_, ⟨hsettled, ids, hids, rfl⟩, ?_⟩)
    refine .seq (spec_readOp fun _ => ⟨_, ⟨hmem, rfl⟩, ?_⟩)
    refine .seq (spec_readOp fun _ => ⟨_, ⟨hmem, rfl⟩, ?_⟩)
    exact ih (g := { g with toRemove := ids, removed := f :: g.removed, kept := _ })
      { hsettled with } rfl

theorem restoreActiveFile_spec {s : σ} (hsettled : g.Settled) (hremoved : g.toRemove = [])
    (hhighest : ∀ x ∈ g.outs, x.id ≤ highest) :
    Method.Spec protocol (restoreActiveFile highest : EngineM σ IoError Unit) s g
      (fun _ _ g' => g'.Succeeded) (fun _ _ g' => g'.Failed) := by
  unfold restoreActiveFile
  refine spec_ioOp fun r => ⟨_, ⟨hsettled, hremoved, hhighest, rfl⟩, ?_⟩
  cases r with
  | ok _ => exact ⟨{ hsettled with }, hremoved, Or.inr rfl⟩
  | error e => exact ⟨Or.inr rfl, Or.inr fun x hx => (hsettled.closed x hx).drained⟩

omit [Crc32Fast] in
theorem spec_withLocals {G τ ε ε' : Type} {R : Prog.Protocol Op Op.Res G} {init : τ}
    {m : EngineM τ ε α} {s : σ} {g : G} {Q : Except ε α × τ → σ → G → Prop}
    {E : ε' → σ → G → Prop}
    (h : Method.Spec R m init g (fun a t => Q (.ok a, t) s) fun e t => Q (.error e, t) s) :
    Method.Spec R (withLocals init m) s g Q E := by
  refine Prog.Follows.bind h ?_
  rintro ⟨r, t⟩ g' hr
  cases r <;> exact hr

/-- The code of a merge follows the protocol, and ends as it should. -/
theorem merge_spec (maxFileSize : Nat) :
    Method.Spec protocol (merge maxFileSize) () init (fun _ _ g => g.Succeeded)
      (fun _ _ g => g.Failed) := by
  unfold merge collectInputIds
  refine .seq (.seq (spec_readOp fun activeIdAtStart => ⟨_, ⟨rfl, rfl⟩, ?_⟩))
  refine .seq (spec_ioOp fun ids => ⟨_, ⟨rfl, rfl, rfl⟩, ?_⟩)
  cases ids with
  | error e => exact ⟨Or.inr rfl, Or.inr (by simp [init, MergeLog.fail])⟩
  | ok ids =>
    refine .pure ?_
    dsimp only [id]
    by_cases hnil : (ids.filter (· < activeIdAtStart)).isEmpty = true
    · rw [if_pos hnil]
      rw [List.isEmpty_iff] at hnil
      exact .pure ⟨⟨hnil, rfl, rfl, rfl, rfl, by simp [MergeLog.list, init]⟩, hnil, Or.inl rfl⟩
    · rw [if_neg hnil]
      have hunfailed : (list { init with activeAtStart := activeIdAtStart } ids).Unfailed :=
        ⟨rfl, rfl, rfl⟩
      refine .seq ((MergeOutputWriter.new_spec maxFileSize rfl rfl hunfailed).mono ?_ ?_)
      · rintro writer s g ⟨o, hwrites, hhinted, rfl⟩
        have hcopying : Copying
            { writer, highestOutputId := writer.currentFileId, pending := [], liveEntriesCopied := 0 }
            { list { init with activeAtStart := activeIdAtStart } ids with outs := [o] }
            writer.currentFileId o [] :=
          ⟨hwrites, hhinted, rfl, by simp [hwrites.currentFileId]⟩
        refine .seq (spec_withLocals (.seq ((copyForwardAllLiveEntries_spec hcopying
          ⟨rfl, rfl, rfl, rfl⟩).mono ?_ ?_)))
        · rintro _ s' g' ⟨o', rest', hcopy, hscan⟩
          refine (finishAndApplyPendingRepoints_spec hcopy hscan).mono ?_ ?_
          · rintro _ s g ⟨hsettled, hids, hhighest⟩
            refine .seq ((removeOldInputFiles_spec hsettled hids).mono ?_ fun _ _ _ h => h)
            rintro _ _ g ⟨hsettled', hremoved, houts⟩
            exact restoreActiveFile_spec hsettled' hremoved (houts ▸ hhighest)
          · rintro e s g habandons
            exact .seq ((MergeOutputWriter.drop_spec habandons).mono (fun _ _ _ h => .fail h)
              fun _ _ _ h => h)
        · rintro e s g habandons
          exact .seq ((MergeOutputWriter.drop_spec habandons).mono (fun _ _ _ h => .fail h)
            fun _ _ _ h => h)
      · rintro e s g ⟨hfailed, -, hdrained⟩
        exact ⟨Or.inr hfailed, Or.inr hdrained⟩

end Yabiir
