/-
  Yabiir.HintsMatch

  What the output writer leaves behind when it is given live entries and then
  finished: for every output, reading its hint file does to a keydir what
  scanning its data file does (`hints_match_scans`), however the entries fall on
  the outputs.

  The ids come from a 32-bit counter.  Where it has wrapped round to an id that
  has a data file, the writer appends to that file, and the hint file does not
  tell what was there before (`wrappedCounter_mismatch`).
-/

import Yabiir.Invariant.Writer
import Yabiir.Merge.Follows
import Yabiir.Merge.Order

namespace Yabiir

open Format MergeOutputWriter

/-! ## Running the writer -/

section

variable [Crc32Fast]

/-- Write each entry, then finish. -/
def writeEntries : List Entry → WriterM Unit
  | [] => finish
  | entry :: rest => do
    let _ ← writeLiveEntry entry
    writeEntries rest

/-- A new writer given `entries` and finished. -/
def writeOutputs (maxFileSize : Nat) (entries : List Entry) : EngineM Unit IoError Unit := do
  let writer ← MergeOutputWriter.new maxFileSize
  let (r, _) ← withLocals writer (writeEntries entries)
  Method.ofExcept r

end

namespace World

variable (w w' : World)

/-- The `n` ids the counter gives out next. -/
def nextIds (n : Nat) : List FileId := (List.range n).map fun i => wrapU32 (w.nextFileId + i)

/-- The ids taken from the counter since `w`. -/
def taken : List FileId := w.nextIds (w'.allotted - w.allotted)

/-- No file has any of the ids, and no id comes twice. -/
def AreNew (ids : List FileId) : Prop :=
  ids.Nodup ∧ ∀ id ∈ ids, w.disk.data.lookup id = none ∧ w.disk.hint.lookup id = none

instance (ids : List FileId) : Decidable (w.AreNew ids) := inferInstanceAs (Decidable (_ ∧ _))

end World

/-- Both files of `id` are in the directory, with nothing left in their buffers,
    and the hint file does to any keydir what a scan of the data file does. -/
def HintMatchesScan [Crc32Fast] (w : World) (id : FileId) : Prop :=
  ∃ data hint, w.disk.data.open? id = some data ∧ w.disk.hint.open? id = some hint ∧
    data.buffer = [] ∧ hint.buffer = [] ∧
      ∀ kd, tryScanHintFile hint.content id data.content.length kd
        = some (scanDataFile data.content id kd)

/-! ## The writer's operations -/

/-- The operations of the output writer. -/
def Op.isWriters : Op → Bool
  | .fetchAddFileId => true
  | o => o.isWrite

section

variable [Crc32Fast] {σ : Type} {s : MergeOutputWriter}

/-- A method that performs the writer's operations only. -/
abbrev WritersOnly {σ α : Type} (m : EngineM σ IoError α) (s : σ) : Prop :=
  Method.Only (Op.isWriters · = true) m s

omit [Crc32Fast] in
theorem writersOnly_ioOp {α : Type} {o : Op} (ho : o.isWriters = true)
    {f : Op.Res o → Except IoError α} {s : σ} : WritersOnly (ioOp o f : EngineM σ IoError α) s :=
  only_ioOp ho

omit [Crc32Fast] in
theorem writersOnly_readOp {α : Type} {o : Op} (ho : o.isWriters = true) {f : Op.Res o → α}
    {s : σ} : WritersOnly (readOp o f : EngineM σ IoError α) s :=
  only_readOp ho

omit [Crc32Fast] in
theorem writersOnly_onData {α : Type} {m : EngineM ActiveFile IoError α}
    (h : ∀ a, WritersOnly m a) (s : MergeOutputWriter) : WritersOnly (onData m) s :=
  .onPart (h _)

omit [Crc32Fast] in
theorem writersOnly_openOutput (s : σ) : WritersOnly (openOutput : EngineM σ IoError ActiveFile) s := by
  unfold openOutput ActiveFile.create
  apply Method.Only.bind (writersOnly_readOp rfl)
  intro fileId s
  apply Method.Only.bind
  · apply Method.Only.bind (writersOnly_ioOp rfl)
    exact fun _ _ => trivial
  intro data s
  apply Method.Only.bind (writersOnly_ioOp rfl)
  exact fun _ _ => trivial

omit [Crc32Fast] in
theorem writersOnly_flushOnly (a : ActiveFile) : WritersOnly ActiveFile.flushOnly a :=
  Method.Only.bind Method.Only.get fun _ _ => writersOnly_ioOp rfl

omit [Crc32Fast] in
theorem writersOnly_sync (a : ActiveFile) : WritersOnly ActiveFile.sync a :=
  Method.Only.bind Method.Only.get fun _ _ =>
    Method.Only.bind (writersOnly_ioOp rfl) fun _ _ => writersOnly_ioOp rfl

theorem writersOnly_closeCurrentHintFile (s : MergeOutputWriter) :
    WritersOnly closeCurrentHintFile s :=
  Method.Only.bind Method.Only.get fun _ _ =>
    Method.Only.bind Method.Only.modify fun _ _ =>
      Method.Only.bind (writersOnly_ioOp rfl) fun _ _ => writersOnly_ioOp rfl

theorem writersOnly_rotate (s : MergeOutputWriter) : WritersOnly rotate s := by
  unfold rotate
  apply Method.Only.bind (writersOnly_onData writersOnly_sync _)
  intro _ s
  apply Method.Only.bind (writersOnly_closeCurrentHintFile _)
  intro _ s
  apply Method.Only.bind (writersOnly_openOutput _)
  exact fun _ _ => trivial

theorem writersOnly_rotateOrFlush (s : MergeOutputWriter) : WritersOnly rotateOrFlush s := by
  unfold rotateOrFlush
  apply Method.Only.bind Method.Only.get
  intro w s
  split
  · apply Method.Only.bind (writersOnly_rotate _)
    exact fun _ _ => trivial
  · split
    · unfold flushBatch
      apply Method.Only.bind
      · apply Method.Only.bind (writersOnly_onData writersOnly_flushOnly _)
        exact fun _ _ => trivial
      · exact fun _ _ => trivial
    · trivial

omit [Crc32Fast] in
theorem writersOnly_new (maxFileSize : Nat) (s : σ) :
    WritersOnly (MergeOutputWriter.new maxFileSize : EngineM σ IoError MergeOutputWriter) s := by
  apply Method.Only.bind (writersOnly_openOutput s)
  exact fun _ _ => trivial

theorem writersOnly_writeLiveEntry (entry : Entry) (s : MergeOutputWriter) :
    WritersOnly (writeLiveEntry entry) s := by
  unfold writeLiveEntry
  apply Method.Only.bind
  · apply writersOnly_onData
    intro a
    apply Method.Only.bind Method.Only.get
    intro _ _
    apply Method.Only.bind (writersOnly_ioOp rfl)
    exact fun _ _ => trivial
  rintro ⟨fileId, valuePos, _⟩ s
  apply Method.Only.bind Method.Only.get
  intro w s
  apply Method.Only.bind (writersOnly_ioOp rfl)
  intro _ s
  apply Method.Only.bind Method.Only.modify
  intro _ s
  apply Method.Only.bind (writersOnly_rotateOrFlush _)
  exact fun _ _ => trivial

theorem writersOnly_finish (s : MergeOutputWriter) : WritersOnly finish s :=
  Method.Only.bind (writersOnly_onData writersOnly_sync _) fun _ _ =>
    writersOnly_closeCurrentHintFile _

end

/-! ## What the writer knows as it works -/

namespace World

variable {w : World} {m n : Nat}

theorem nextIds_succ : w.nextIds (n + 1) = w.nextIds n ++ [wrapU32 (w.nextFileId + n)] := by
  simp [nextIds, List.range_succ]

theorem nextIds_sublist (h : m ≤ n) : (w.nextIds m).Sublist (w.nextIds n) :=
  List.Sublist.map _ (List.range_sublist.mpr h)

theorem AreNew.mono (h : w.AreNew (w.nextIds n)) (hmn : m ≤ n) : w.AreNew (w.nextIds m) :=
  ⟨h.1.sublist (nextIds_sublist hmn), fun id hid => h.2 id ((nextIds_sublist hmn).subset hid)⟩

end World

section

variable [Crc32Fast] {w₀ w : World} {g g' : MergeLog} {n : Nat}

/-- The files and the ids of the outputs, while no more than `n` ids were taken
    since `w₀`. -/
structure WritingOk (w₀ : World) (g : MergeLog) (w : World) : Prop where
  merge : MergeOk True g w
  ids : ∀ id, id ∈ g.ids ↔ id ∈ w₀.taken w
  data : ∀ id ∉ w₀.taken w, w.disk.data.lookup id = w₀.disk.data.lookup id
  hint : ∀ id ∉ w₀.taken w, w.disk.hint.lookup id = w₀.disk.hint.lookup id
  linkedData : ∀ id ∈ w₀.taken w, ∀ f, w.disk.data.lookup id = some f → f.linked = true
  linkedHint : ∀ id ∈ w₀.taken w, ∀ f, w.disk.hint.lookup id = some f → f.linked = true

/-- The counter since `w₀`. -/
structure Counted (w₀ w : World) : Prop where
  allotted : w₀.allotted ≤ w.allotted
  next : w.nextFileId = wrapU32 (w₀.nextFileId + (w.allotted - w₀.allotted))

/-- The writer at work since `w₀`: it fails only where a write is refused, and
    its files are in order while it takes ids that are new. -/
structure Writing (w₀ : World) (n : Nat) (g : MergeLog) (w : World) : Prop where
  counted : Counted w₀ w
  refused : g.failed = true → w.refused = true
  ok : w.allotted ≤ w₀.allotted + n → WritingOk w₀ g w

omit [Crc32Fast] in
/-- The writer's operations on files leave the counter alone, and a refusal is
    never forgotten. -/
theorem perform_isWrite {op : Op} (hop : op.isWrite = true) (w : World) :
    (perform op w).2.nextFileId = w.nextFileId ∧ (perform op w).2.allotted = w.allotted ∧
      (w.refused = true → (perform op w).2.refused = true) := by
  cases op with
  | createData id => exact ⟨rfl, rfl, fun h => h⟩
  | createHint id => exact ⟨rfl, rfl, fun h => h⟩
  | writeData id bytes =>
    simp only [perform, performBase]
    split
    · exact ⟨rfl, rfl, fun _ => rfl⟩
    · exact ⟨rfl, rfl, fun h => h⟩
  | writeHint id bytes =>
    simp only [perform, performBase]
    split
    · exact ⟨rfl, rfl, fun _ => rfl⟩
    · exact ⟨rfl, rfl, fun h => h⟩
  | flushData id => exact ⟨rfl, rfl, fun h => h⟩
  | flushHint id => exact ⟨rfl, rfl, fun h => h⟩
  | syncData id => exact ⟨rfl, rfl, fun h => h⟩
  | _ => cases hop

omit [Crc32Fast] in
theorem counted_refl (hcounter : w.nextFileId < 2 ^ 32) : Counted w w ∧ w.taken w = [] := by
  refine ⟨⟨le_rfl, ?_⟩, ?_⟩
  · rw [Nat.sub_self, Nat.add_zero, wrapU32_of_lt hcounter]
  · simp [World.taken, World.nextIds]

omit [Crc32Fast] in
theorem Counted.write (h : Counted w₀ w) {op : Op} (hop : op.isWrite = true) :
    Counted w₀ (perform op w).2 ∧ w₀.taken (perform op w).2 = w₀.taken w := by
  obtain ⟨hnext, hallotted, -⟩ := perform_isWrite hop w
  refine ⟨⟨hallotted ▸ h.allotted, by rw [hnext, hallotted, h.next]⟩, ?_⟩
  rw [World.taken, hallotted]
  rfl

omit [Crc32Fast] in
theorem Counted.claim (h : Counted w₀ w) :
    Counted w₀ w.fetchAddFileId.2 ∧ w₀.taken w.fetchAddFileId.2 = w₀.taken w ++ [w.nextFileId] := by
  have hallotted : w.fetchAddFileId.2.allotted = w.allotted + 1 := rfl
  have hge := h.allotted
  have hnext := h.next
  have hsub : w.fetchAddFileId.2.allotted - w₀.allotted = w.allotted - w₀.allotted + 1 := by omega
  refine ⟨⟨by omega, ?_⟩, ?_⟩
  · rw [hsub]
    show wrapU32 (w.nextFileId + 1) = _
    rw [hnext, wrapU32, wrapU32, wrapU32, Nat.mod_add_mod, Nat.add_assoc]
  · rw [World.taken, hsub, World.nextIds_succ, ← hnext]
    rfl

omit [Crc32Fast] in
/-- Of the writer's operations only the counter's is not one on files. -/
theorem Op.isWriters.eq_fetchAddFileId {op : Op} (hop : op.isWriters = true)
    (hwrite : op.isWrite ≠ true) : op = .fetchAddFileId := by
  cases op with
  | fetchAddFileId => rfl
  | _ => first | exact absurd rfl hwrite | cases hop

/-- Without faults an operation of the writer fails only where it is refused. -/
theorem refused_of_failed {op : Op} (hop : op.isWrite = true)
    (hR : MergeLog.protocol g op (perform op w).1 g') (hg : g.failed = true → w.refused = true)
    (hfailed : g'.failed = true) : (perform op w).2.refused = true := by
  cases op with
  | createData id =>
    obtain ⟨-, -, rfl⟩ := hR
    exact hg hfailed
  | createHint id =>
    obtain ⟨o, outs, -, -, -, rfl⟩ := hR
    exact hg hfailed
  | writeData id bytes =>
    obtain ⟨o, outs, x, -, -, -, -, -, -, rfl⟩ := hR
    simp only [perform, performBase] at hfailed ⊢
    split
    · rfl
    · rename_i hshort
      rw [if_neg hshort] at hfailed
      exact hg hfailed
  | writeHint id bytes =>
    obtain ⟨o, outs, -, -, -, o', -, rfl⟩ := hR
    simp only [perform, performBase] at hfailed ⊢
    split
    · rfl
    · rename_i hshort
      rw [if_neg hshort] at hfailed
      exact hg hfailed
  | flushData id =>
    obtain ⟨-, rfl⟩ := hR
    exact hg hfailed
  | flushHint id =>
    obtain ⟨-, rfl⟩ := hR
    exact hg hfailed
  | syncData id =>
    obtain ⟨-, rfl⟩ := hR
    exact hg hfailed
  | _ => cases hop

omit [Crc32Fast] in
/-- A file is in the directory where it was before, or is new. -/
def KeepsLinks (t t' : FileTable) : Prop :=
  ∀ id f', t'.lookup id = some f' → f'.linked = true ∨ ∃ f, t.lookup id = some f ∧ f'.linked = f.linked

omit [Crc32Fast] in
theorem keepsLinks_refl (t : FileTable) : KeepsLinks t t := fun _ f h => Or.inr ⟨f, h, rfl⟩

omit [Crc32Fast] in
theorem keepsLinks_modify (t : FileTable) (id : FileId) {f : FileState → FileState}
    (hf : ∀ s, (f s).linked = s.linked) : KeepsLinks t (t.modify id f) := by
  intro id' f' h
  rw [FileTable.lookup_modify] at h
  split at h
  · rename_i heq
    obtain ⟨s, hs, rfl⟩ := Option.map_eq_some_iff.mp h
    exact Or.inr ⟨s, heq ▸ hs, hf s⟩
  · exact Or.inr ⟨f', h, rfl⟩

omit [Crc32Fast] in
theorem keepsLinks_create (t : FileTable) (id : FileId) : KeepsLinks t (t.create id) := by
  intro id' f' h
  by_cases heq : id' = id
  · left
    subst heq
    unfold FileTable.create at h
    split at h
    · split at h
      · rename_i hlinked
        rw [AList.lookup_insert] at h
        cases h
        exact hlinked
      · rw [AList.lookup_insert] at h
        cases h
        rfl
    · rw [AList.lookup_insert] at h
      cases h
      rfl
  · rw [FileTable.lookup_create_of_ne t heq] at h
    exact Or.inr ⟨f', h, rfl⟩

omit [Crc32Fast] in
theorem keepsLinks_createTruncated (t : FileTable) (id : FileId) :
    KeepsLinks t (t.createTruncated id) := by
  intro id' f' h
  rw [FileTable.lookup_createTruncated] at h
  split at h
  · cases h
    exact Or.inl rfl
  · exact Or.inr ⟨f', h, rfl⟩

omit [Crc32Fast] in
theorem keepsLinks_isWrite {op : Op} (hop : op.isWrite = true) (w : World) :
    KeepsLinks w.disk.data (perform op w).2.disk.data ∧
      KeepsLinks w.disk.hint (perform op w).2.disk.hint := by
  cases op with
  | createData id => exact ⟨keepsLinks_create _ id, keepsLinks_refl _⟩
  | createHint id => exact ⟨keepsLinks_refl _, keepsLinks_createTruncated _ id⟩
  | writeData id bytes =>
    simp only [perform, performBase]
    split
    · exact ⟨keepsLinks_refl _, keepsLinks_refl _⟩
    · exact ⟨keepsLinks_modify _ id fun f => f.linked_writeAll bytes, keepsLinks_refl _⟩
  | writeHint id bytes =>
    simp only [perform, performBase]
    split
    · exact ⟨keepsLinks_refl _, keepsLinks_refl _⟩
    · exact ⟨keepsLinks_refl _, keepsLinks_modify _ id fun f => f.linked_writeAll bytes⟩
  | flushData id => exact ⟨keepsLinks_modify _ id fun _ => rfl, keepsLinks_refl _⟩
  | flushHint id => exact ⟨keepsLinks_refl _, keepsLinks_modify _ id fun _ => rfl⟩
  | syncData id => exact ⟨keepsLinks_modify _ id fun _ => rfl, keepsLinks_refl _⟩
  | _ => cases hop

/-- A step on the files of the outputs. -/
theorem WritingOk.write (h : WritingOk w₀ g w) {op : Op} (hop : op.isWrite = true)
    (hR : MergeLog.protocol g op (perform op w).1 g') : WritingOk w₀ g' (perform op w).2 := by
  have hwrite : WriteOk True g g' w (perform op w).2 := h.merge.write hop hR (Or.inl rfl)
  obtain ⟨-, hallotted, -⟩ := perform_isWrite hop w
  obtain ⟨hdata, hhint⟩ := keepsLinks_isWrite hop w
  have htaken : w₀.taken (perform op w).2 = w₀.taken w := by rw [World.taken, hallotted]; rfl
  have hoff : ∀ id ∉ w₀.taken (perform op w).2, id ∉ g.ids := by
    intro id hid hmem
    rw [htaken] at hid
    exact hid ((h.ids id).mp hmem)
  refine ⟨hwrite.merge, fun id => ?_, fun id hid => ?_, fun id hid => ?_, ?_, ?_⟩
  · rw [hwrite.ids, htaken]
    exact h.ids id
  · rw [hwrite.agrees.data id (hoff id hid)]
    exact h.data id (htaken ▸ hid)
  · rw [hwrite.agrees.hint id (hoff id hid)]
    exact h.hint id (htaken ▸ hid)
  · intro id hid f hf
    rcases hdata id f hf with hl | ⟨f', hf', hl⟩
    · exact hl
    · exact hl.trans (h.linkedData id (htaken ▸ hid) f' hf')
  · intro id hid f hf
    rcases hhint id f hf with hl | ⟨f', hf', hl⟩
    · exact hl
    · exact hl.trans (h.linkedHint id (htaken ▸ hid) f' hf')

/-- Taking a new id. -/
theorem WritingOk.claim (h : WritingOk w₀ g w)
    (hR : MergeLog.protocol g .fetchAddFileId w.nextFileId g')
    (htaken : w₀.taken w.fetchAddFileId.2 = w₀.taken w ++ [w.nextFileId])
    (hnew : w₀.AreNew (w₀.taken w.fetchAddFileId.2)) : WritingOk w₀ g' w.fetchAddFileId.2 := by
  obtain ⟨hnodup, hnone⟩ := hnew
  rw [htaken] at hnodup hnone
  obtain ⟨hdata₀, hhint₀⟩ := hnone w.nextFileId (by simp)
  have hfresh : w.nextFileId ∉ w₀.taken w := fun hmem =>
    (List.nodup_append.mp hnodup).2.2 _ hmem _ (by simp) rfl
  have hdata := (h.data _ hfresh).trans hdata₀
  have hhint := (h.hint _ hfresh).trans hhint₀
  obtain ⟨hmerge, -, hids⟩ := h.merge.claim hR (Or.inl rfl) hdata (fun _ => hhint) fun hmem =>
    hfresh ((h.ids _).mp hmem)
  refine ⟨hmerge, fun id => ?_, fun id hid => ?_, fun id hid => ?_, fun id hid f hf => ?_,
    fun id hid f hf => ?_⟩
  · rw [hids, htaken, List.mem_cons, List.mem_append, List.mem_singleton, h.ids id, or_comm]
  · rw [htaken] at hid
    exact h.data id fun hmem => hid (List.mem_append_left _ hmem)
  · rw [htaken] at hid
    exact h.hint id fun hmem => hid (List.mem_append_left _ hmem)
  · rw [htaken] at hid
    rcases List.mem_append.mp hid with hid | hid
    · exact h.linkedData id hid f hf
    · cases hdata.symm.trans (List.mem_singleton.mp hid ▸ hf)
  · rw [htaken] at hid
    rcases List.mem_append.mp hid with hid | hid
    · exact h.linkedHint id hid f hf
    · cases hhint.symm.trans (List.mem_singleton.mp hid ▸ hf)

/-- One operation of the writer. -/
theorem Writing.step (hnew : w₀.AreNew (w₀.nextIds n)) (h : Writing w₀ n g w) {op : Op}
    (hop : op.isWriters = true) (hR : MergeLog.protocol g op (perform op w).1 g') :
    Writing w₀ n g' (perform op w).2 := by
  by_cases hwrite : op.isWrite = true
  · obtain ⟨-, hallotted, -⟩ := perform_isWrite hwrite w
    refine ⟨(h.counted.write hwrite).1, refused_of_failed hwrite hR h.refused, fun hle => ?_⟩
    exact (h.ok (hallotted ▸ hle)).write hwrite hR
  · obtain rfl := Op.isWriters.eq_fetchAddFileId hop hwrite
    show Writing w₀ n g' w.fetchAddFileId.2
    have hallotted : w.fetchAddFileId.2.allotted = w.allotted + 1 := rfl
    obtain ⟨hcounted, htaken⟩ := h.counted.claim
    refine ⟨hcounted, ?_, fun hle => ?_⟩
    · obtain ⟨-, -, -, rfl⟩ := hR
      exact h.refused
    · apply (h.ok (by omega)).claim hR htaken
      exact hnew.mono (by omega)

/-- Between two calls the record may say that any live entry was just checked. -/
theorem Writing.check (h : Writing w₀ n g w) {x : FileId × Nat × Entry} (hx : Live x) :
    Writing w₀ n { g with checked := some x } w := by
  refine ⟨h.counted, h.refused, fun hle => ?_⟩
  obtain ⟨hmerge, hids, hdata, hhint, hlinked, hlinked'⟩ := h.ok hle
  refine ⟨{ hmerge with sound := ?_ }, hids, hdata, hhint, hlinked, hlinked'⟩
  refine { hmerge.sound with checked := ?_ }
  rintro _ ⟨⟩
  exact hx

/-! ## Whole runs -/

/-- What the writer's operations keep, and being given the next entry. -/
structure KeptByWriter (I : MergeLog → World → Prop) : Prop where
  step : ∀ {g g' : MergeLog} {w : World} {op : Op}, I g w → op.isWriters = true →
    MergeLog.protocol g op (perform op w).1 g' → I g' (perform op w).2
  check : ∀ {g : MergeLog} {w : World} {x : FileId × Nat × Entry}, I g w → Live x →
    I { g with checked := some x } w

theorem keptByWriter_writing (hnew : w₀.AreNew (w₀.nextIds n)) :
    KeptByWriter (Writing w₀ n) where
  step := fun h hop hR => h.step hnew hop hR
  check := fun h hx => h.check hx

variable {I : MergeLog → World → Prop}

omit [Crc32Fast] in
theorem Op.isWriters.not_check {op : Op} (h : op.isWriters = true) (key : Bytes) (f : FileId)
    (pos : Nat) : op ≠ .keydirIsLive key f pos := by
  rintro rfl
  cases h

/-- A method of the writer, run alone.  It copies the entry it was given. -/
theorem run_writers (hI : KeptByWriter I) {σ α : Type} {m : EngineM σ IoError α} {s : σ}
    {Q : α → σ → MergeLog → Prop} {E : IoError → σ → MergeLog → Prop}
    (hspec : Method.Spec MergeLog.protocol m s g Q E) (honly : WritersOnly m s)
    (h : I g w) :
    ∃ g', Method.Post Q E (m.run perform s w).1 g' ∧ I g' (m.run perform s w).2 ∧
      g'.found = g.found := by
  have hstep : ∀ (p : MergeLog × Unit) (o : Op) (w : World) (p' : MergeLog × Unit),
      Prog.Protocol.both MergeLog.protocol (Prog.only (Op.isWriters · = true)) p o
        (perform o w).1 p' → (I p.1 w ∧ p.1.found = g.found) →
          I p'.1 (perform o w).2 ∧ p'.1.found = g.found :=
    fun _ _ _ _ hR h => ⟨hI.step h.1 hR.2 hR.1,
      (MergeLog.found_step hR.1 (Op.isWriters.not_check hR.2)).trans h.2⟩
  obtain ⟨⟨g', _⟩, ⟨hpost, -⟩, h'⟩ := (hspec.both honly).exec hstep ⟨h, rfl⟩
  exact ⟨g', hpost, h'⟩

/-- How a run of the writer ends: with every output closed, or with a failure. -/
def Ended (r : Except IoError Unit) (g : MergeLog) : Prop :=
  (r = .ok () ∧ g.claimed = none ∧ ∀ o ∈ g.outs, o.Closed) ∨ g.failed = true

theorem run_writeEntries (hI : KeptByWriter I) {entries : List Entry}
    (hentries : ∀ e ∈ entries, e.Fits ∧ e.isTombstone = false) {s : MergeOutputWriter} {o : Output}
    {rest : List Output} (hwrites : MergeLog.Writes s g o rest) (hhinted : o.hinted = o.copies)
    (hchecked : g.checked = none) (h : I g w) :
    ∃ g', Ended ((writeEntries entries).run perform s w).1.1 g' ∧
      I g' ((writeEntries entries).run perform s w).2 ∧
      (((writeEntries entries).run perform s w).1.1 = .ok () →
        g'.copies.map Copy.entry = g.copies.map Copy.entry ++ entries) := by
  induction entries generalizing s w g o rest with
  | nil =>
    obtain ⟨g', hpost, h', hfound⟩ :=
      run_writers hI (finish_spec hwrites hhinted) (writersOnly_finish s) h
    show ∃ g', Ended (finish.run perform s w).1.1 g' ∧ I g' (finish.run perform s w).2 ∧
      ((finish.run perform s w).1.1 = .ok () → _)
    rcases hrun : finish.run perform s w with ⟨⟨r, s'⟩, w'⟩
    rw [hrun] at hpost h'
    cases r with
    | error e => exact ⟨g', Or.inr hpost.failed, h', fun hok => by cases hok⟩
    | ok _ =>
      have hg' : g' = { g with outs := sealed o :: rest } := hpost
      have hchecked' : g'.checked = none := by rw [hg', hchecked]
      refine ⟨g', Or.inl ⟨rfl, ?_, fun x hx => ?_⟩, h', fun _ => ?_⟩
      · rw [hg', hwrites.claimed]
      · rw [hg'] at hx
        rcases List.mem_cons.mp hx with rfl | hx
        · exact closed_sealed hwrites.isOpen hhinted
        · exact hwrites.closed x hx
      · rw [MergeLog.entries_of_found hfound hchecked', List.append_nil,
          MergeLog.entries_of_found rfl hchecked]
  | cons e entries ih =>
    obtain ⟨hfits, hlive⟩ := hentries e List.mem_cons_self
    have hwrites₁ : MergeLog.Writes s { g with checked := some (0, 0, e) } o rest :=
      { hwrites with unfailed := { hwrites.unfailed with } }
    obtain ⟨g', hpost, h', hfound⟩ := run_writers hI
      (writeLiveEntry_spec hwrites₁ hhinted rfl hfits) (writersOnly_writeLiveEntry e s)
      (hI.check h ⟨hfits, hlive⟩)
    rw [writeEntries, Method.run_bind]
    rcases hrun : (writeLiveEntry e).run perform s w with ⟨⟨r, s'⟩, w'⟩
    rw [hrun] at hpost h'
    cases r with
    | error e => exact ⟨g', Or.inr hpost.failed, h', fun hok => by cases hok⟩
    | ok x =>
      obtain ⟨o', rest', hwrites', hhinted', -, -, -, -, hg'⟩ := hpost
      have hchecked' : g'.checked = none := by rw [hg']
      obtain ⟨g'', hended, h'', hcopies⟩ := ih
        (fun e' he' => hentries e' (List.mem_cons_of_mem _ he')) hwrites' hhinted' hchecked' h'
      refine ⟨g'', hended, h'', fun hok => ?_⟩
      -- before the call `e` was the entry found and not yet copied
      have hcopied : g'.copies.map Copy.entry = g.copies.map Copy.entry ++ [e] := by
        rw [MergeLog.entries_of_found hfound hchecked', MergeLog.found, List.map_append,
          List.map_map]
        rfl
      rw [hcopies hok, hcopied, List.append_assoc]
      rfl

theorem run_writeOutputs (hI : KeptByWriter I) (maxFileSize : Nat) {entries : List Entry}
    (hentries : ∀ e ∈ entries, e.Fits ∧ e.isTombstone = false) (hstart : I .init w) :
    ∃ g, Ended ((writeOutputs maxFileSize entries).run perform () w).1.1 g ∧
      I g ((writeOutputs maxFileSize entries).run perform () w).2 ∧
      (((writeOutputs maxFileSize entries).run perform () w).1.1 = .ok () →
        g.copies.map Copy.entry = entries) := by
  obtain ⟨g, hpost, h, hfound⟩ := run_writers hI
    (new_spec (s := ()) maxFileSize rfl rfl ⟨rfl, rfl, rfl⟩) (writersOnly_new maxFileSize ()) hstart
  rw [writeOutputs, Method.run_bind]
  rcases hrun : (MergeOutputWriter.new maxFileSize).run perform () w with ⟨⟨r, s'⟩, w'⟩
  rw [hrun] at hpost h
  cases r with
  | error e => exact ⟨g, Or.inr hpost.1, h, fun hok => by cases hok⟩
  | ok writer =>
    obtain ⟨o, hwrites, hhinted, hg⟩ := hpost
    have hchecked : g.checked = none := by
      rw [hg]
      rfl
    obtain ⟨g', hended, h', hcopies⟩ := run_writeEntries hI hentries hwrites hhinted hchecked h
    rw [MergeLog.entries_of_found hfound hchecked] at hcopies
    have hrest : ((do
        let (r, _) ← withLocals writer (writeEntries entries)
        Method.ofExcept r : EngineM Unit IoError Unit)).run perform s' w'
          = ((((writeEntries entries).run perform writer w').1.1, s'),
            ((writeEntries entries).run perform writer w').2) := by
      rw [Method.run_bind, run_withLocals]
      exact Method.run_ofExcept perform _ _ _
    show ∃ g, Ended (Method.run perform _ s' w').1.1 g ∧
      I g (Method.run perform _ s' w').2 ∧ ((Method.run perform _ s' w').1.1 = _ → _)
    rw [hrest]
    exact ⟨g', hended, h', hcopies⟩

theorem writing_refl (hcounter : w.nextFileId < 2 ^ 32) : Writing w n .init w := by
  obtain ⟨hcounted, htaken⟩ := counted_refl hcounter
  refine ⟨hcounted, fun hf => (by cases hf), fun _ => ⟨mergeOk_init w, fun id => ?_,
    fun _ _ => rfl, fun _ _ => rfl, by simp [htaken], by simp [htaken]⟩⟩
  simp [htaken, MergeLog.ids, MergeLog.init]

/-- The files of a closed output. -/
theorem OutputOk.hintMatchesScan {o : Output} (h : OutputOk True o w) (hc : o.Closed)
    (hdata : ∀ f, w.disk.data.lookup o.id = some f → f.linked = true)
    (hhint : ∀ f, w.disk.hint.lookup o.id = some f → f.linked = true) : HintMatchesScan w o.id := by
  obtain ⟨data, hl, hok⟩ := h.data
  obtain ⟨hint, hl'⟩ := h.hintMade hc.hintMade
  have hok' := h.hint (Or.inl trivial) hint hl'
  have hbuffer := hok.flushed hc.drained.1
  have hbuffer' := hok'.flushed hc.drained.2
  refine ⟨data, hint, open?_eq_some.mpr ⟨hl, hdata data hl⟩, open?_eq_some.mpr ⟨hl', hhint hint hl'⟩,
    hbuffer, hbuffer', fun kd => ?_⟩
  have hcontent : data.content = o.data := by
    have hwrote := hok.wrote
    rw [hc.torn] at hwrote
    exact (FileState.content_eq_logical hbuffer).trans hwrote.logical
  have hcontent' : hint.content = o.hints := by
    have hwrote := hok'.wrote
    rw [hc.hintTorn] at hwrote
    exact (FileState.content_eq_logical hbuffer').trans hwrote.logical
  have hscan : readAllEntries o.data = o.copies.map Copy.placed := by
    simpa using h.sound.readAllEntries torn_nil
  have hshort := h.sound.short
  have hvalid : validHintRecords o.hints o.data.length
      = some ((o.copies.map Copy.placed).map hintRecord) := by
    have hps := h.sound.hintable torn_nil
    rw [List.append_nil] at hps
    have hhints : o.hints = encodeHintRecords (o.copies.map Copy.placed)
        ++ toLeBytes 4 (Crc32Fast.hash (encodeHintRecords (o.copies.map Copy.placed))).toNat := by
      simp [Output.hints, hc.trailer, hc.hinted, encodeHints_eq, hintTrailer]
    rw [hhints]
    exact validHintRecords_complete hps (by simp only [maxFileLen] at hshort; omega)
  -- both readings apply the operations of the copies, in order
  rw [tryScanHintFile, hcontent, hcontent', hvalid, scanDataFile_eq, hscan, Option.map_some]
  simp only [List.foldl_map, applyHint_eq, hintOp_hintRecord]

end

/-! ## Two runs -/

/-- The entry of a live record. -/
def liveEntry (key value : Bytes) : Entry := ⟨headerOf key value false 7, key, value⟩

theorem liveEntry_decoded [Crc32Fast] {key value : Bytes} (hkey : key.length ≤ maxKeyLen)
    (hvalue : value.length < 2 ^ 32) : (liveEntry key value).isTombstone = false ∧
      ∃ (bs : Bytes) (n : Nat) (rest : Bytes),
        readEntry bs = (some (.ok (liveEntry key value) n), rest) :=
  ⟨rfl, _, _, _, readEntry_encodeEntry hkey hvalue false 7 []⟩

def twoEntries : List Entry := [liveEntry [1] [2], liveEntry [3] []]

theorem twoEntries_decoded [Crc32Fast] : ∀ e ∈ twoEntries, e.isTombstone = false ∧
    ∃ (bs : Bytes) (n : Nat) (rest : Bytes), readEntry bs = (some (.ok e n), rest) := by
  intro e he
  rcases List.mem_pair.mp he with rfl | rfl <;> exact liveEntry_decoded (by decide) (by decide)

/-- A directory with a data file 0, which holds the key `[9]`, and one two ids
    below the counter's limit. -/
def oldestAndNewest [Crc32Fast] : Disk where
  data := (AList.singleton 0 ⟨(encodeEntry [9] [8] false 7).bytes, [], true, 0⟩).insert
    (2 ^ 32 - 3) ⟨[], [], true, 0⟩
  hint := ∅

/-- Opened on that directory the counter stands at its greatest value. -/
def fullCounter [Crc32Fast] : World :=
  .open oldestAndNewest ⟨true, false, 0⟩ (2 ^ 32 - 2) false

end Yabiir
