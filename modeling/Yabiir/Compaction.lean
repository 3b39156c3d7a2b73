/-
  Yabiir.Compaction

  A merge that runs alone, on a directory of any bytes.  It keeps the value of a
  key exactly if the keydir entry of the key is one that a scan of its file
  finds (`merge_keeps_iff`): recovery may have taken the entry from a hint file,
  merge goes by the scan, and removes the file in either case.
-/

import Yabiir.Invariant.Open
import Yabiir.Invariant.Values
import Yabiir.Calls

namespace Yabiir

open Format

/-! ## Running a merge alone -/

section

variable [Crc32Fast] {tidy : Prop} {w : World}

/-- The record once the merge has listed its inputs. -/
def MergeLog.begun (w : World) : MergeLog :=
  MergeLog.list { MergeLog.init with activeAtStart := w.active.fileId } w.disk.data.discover

/-- How a merge that returned `r` ends. -/
def MergeLog.Ends (r : Resp) (g : MergeLog) : Prop :=
  (r = .unit (.ok ()) ∧ g.Succeeded) ∨ (∃ e, r = .unit (.error e)) ∧ g.Failed

/-- The first two operations of a merge only look; without inputs they are the
    only ones. -/
theorem merge_begins {opts : Options} (hrw : opts.isReadWrite = true) :
    ∃ k : FileId → Except IoError (List FileId) → Prog Op Op.Res Resp,
      (Engine.code opts .merge = .act (.locked .activeFileId) fun a => .act .discover (k a)) ∧
      ∀ a ids, ids.filter (· < a) = [] → k a (.ok ids) = .ret (.unit (.ok ())) := by
  unfold Engine.code Engine.merge Engine.requireWrite
  rw [if_pos hrw, hrw]
  refine ⟨_, rfl, fun a ids hnone => ?_⟩
  have hempty : (ids.filter (· < a)).isEmpty = true := by rw [hnone, List.isEmpty_nil]
  show Prog.bind (Prog.bind
    ((if (ids.filter (· < a)).isEmpty = true then pure () else _ : EngineM Unit IoError Unit) ()) _)
    _ = _
  rw [if_pos hempty]
  rfl

/-- What is left of a merge, once it has listed its inputs, whatever rules it
    follows. -/
theorem runs_merge_along {G : Type} {R : Prog.Protocol Op Op.Res G} {Q : Resp → G → Prop} {x : G}
    {Out : (o : Op) → World → Op.Res o → World → Prop} {r : Resp} {w' : World}
    (hfollows : (Engine.code w.opts .merge).Follows R Q x)
    (hlook : ∀ a w', Out (.locked .activeFileId) w a w' → a = w.active.fileId ∧ w' = w)
    (hlist : ∀ r w', Out .discover w r w' → r = .ok w.disk.data.discover ∧ w' = w)
    (hrw : w.opts.isReadWrite = true) (hrun : (Engine.code w.opts .merge).Runs Out w r w') :
    ∃ (p : Prog Op Op.Res Resp) (x₁ x₂ : G), R x (.locked .activeFileId) w.active.fileId x₁ ∧
      R x₁ .discover (.ok w.disk.data.discover) x₂ ∧ p.Follows R Q x₂ ∧
      p.Runs Out w r w' ∧ ((MergeLog.begun w).inputs = [] → r = .unit (.ok ()) ∧ w' = w) := by
  obtain ⟨k, hk, hnone⟩ := merge_begins hrw
  rw [hk] at hfollows hrun
  obtain ⟨x₁, hR₁, h₁⟩ := hfollows w.active.fileId
  obtain ⟨x₂, hR₂, h₂⟩ := h₁ (.ok w.disk.data.discover)
  cases hrun with
  | act ho hrun =>
    obtain ⟨rfl, rfl⟩ := hlook _ _ ho
    cases hrun with
    | act ho hrun =>
      obtain ⟨rfl, rfl⟩ := hlist _ _ ho
      refine ⟨_, x₁, x₂, hR₁, hR₂, h₂, hrun, fun hinputs => ?_⟩
      rw [hnone _ _ hinputs] at hrun
      cases hrun
      exact ⟨rfl, rfl⟩

/-- The same for its record alone. -/
theorem runs_merge {Out : (o : Op) → World → Op.Res o → World → Prop} {r : Resp} {w' : World}
    (hlook : ∀ a w', Out (.locked .activeFileId) w a w' → a = w.active.fileId ∧ w' = w)
    (hlist : ∀ r w', Out .discover w r w' → r = .ok w.disk.data.discover ∧ w' = w)
    (hrw : w.opts.isReadWrite = true) (hrun : (Engine.code w.opts .merge).Runs Out w r w') :
    ∃ p : Prog Op Op.Res Resp, p.Follows MergeLog.protocol MergeLog.Ends (.begun w) ∧
      p.Runs Out w r w' ∧ ((MergeLog.begun w).inputs = [] → r = .unit (.ok ()) ∧ w' = w) := by
  obtain ⟨p, _, _, ⟨-, rfl⟩, ⟨-, -, rfl⟩, hrest⟩ :=
    runs_merge_along (Engine.merge_follows w.opts) hlook hlist hrw hrun
  exact ⟨p, hrest⟩

/-- A merge that has listed its inputs. -/
theorem atWork_begun (hfiles : FilesOk tidy (fun _ => False) w) :
    AtWork tidy (fun _ => False) (.begun w) w := by
  have hsound := hfiles.sound
  have hR₁ : MergeLog.protocol .init (.locked .activeFileId) w.active.fileId
      { MergeLog.init with activeAtStart := w.active.fileId } := ⟨rfl, rfl⟩
  have hO₁ : Outcome (.locked .activeFileId) w w.active.fileId w := Or.inl rfl
  have h₁ := ((atWork_init hfiles).step hR₁ hO₁ hsound).1
  have hR₂ : MergeLog.protocol { MergeLog.init with activeAtStart := w.active.fileId } .discover
      (.ok w.disk.data.discover) (.begun w) := ⟨rfl, rfl, rfl⟩
  have hO₂ : Outcome .discover w (.ok w.disk.data.discover) w := Or.inl rfl
  have h₂ := (h₁.step hR₂ hO₂ hsound).1
  exact ⟨hfiles, fun id hid => (by cases hid), h₂.merge, h₂.sourced, h₂.present⟩

/-- The rule for a merge that runs alone: what its steps keep holds at its end. -/
theorem run_merge (Inv : MergeLog → World → Prop) (hrw : w.opts.isReadWrite = true)
    (hfiles : FilesOk tidy (fun _ => False) w) (hids : (w.call .merge).2.allotted < 2 ^ 32)
    (hinit : Inv (.begun w) w)
    (hstep : ∀ own g op w g', AtWork tidy own g w → MergeLog.protocol g op (perform op w).1 g' →
      (perform op w).2.allotted < 2 ^ 32 → Inv g w → Inv g' (perform op w).2) :
    ∃ g own, MergeLog.Ends (w.call .merge).1 g ∧ AtWork tidy own g (w.call .merge).2 ∧
      Inv g (w.call .merge).2 := by
  obtain ⟨p, hfollows, hrun, -⟩ := runs_merge
    (fun a w' ho => ⟨(congrArg Prod.fst ho).symm, (congrArg Prod.snd ho).symm⟩)
    (fun r w' ho => ⟨(congrArg Prod.fst ho).symm, (congrArg Prod.snd ho).symm⟩) hrw
    (Prog.runs_exec perform (Engine.code w.opts .merge) w)
  obtain ⟨g, own, hends, hwork, hinv, -⟩ := (atWork_begun hfiles).runs
    (fun _ _ _ _ ho => Or.inl ho) Inv (fun own g op w r w' g' hwork hR ho hlt hinv => by
      obtain ⟨rfl, rfl⟩ := Prod.mk.inj ho
      exact hstep own g op w g' hwork hR hlt hinv) hfollows hrun hids hinit
  exact ⟨g, own, hends, hwork, hinv⟩

/-! ## The value of one key -/

/-- The keydir entry of `key` is one that a scan of its data file finds. -/
def World.Scannable (w : World) (key : Bytes) : Prop :=
  ∃ entry, w.keydir.get key = some entry ∧ w.Scans key entry

/-- A get of `key` returns `value`, and the keydir points into a file of the
    directory. -/
def World.Serves (w : World) (key value : Bytes) : Prop :=
  (w.call (.get key)).1 = .value (.ok (some value)) ∧
    ∃ entry, w.keydir.get key = some entry ∧ w.Linked entry.fileId

variable {key value : Bytes} {entry : KeydirEntry}

theorem World.serves_iff : w.Serves key value ↔
    ∃ entry, w.keydir.get key = some entry ∧ w.Linked entry.fileId ∧ w.Holds entry value := by
  obtain ⟨readers, -, -, hget⟩ := call_get w key
  constructor
  · rintro ⟨h, entry, hkd, hlinked⟩
    obtain ⟨entry', hkd', -, hholds⟩ := (hget value).mp h
    cases hkd.symm.trans hkd'
    exact ⟨entry, hkd, hlinked, hholds⟩
  · rintro ⟨entry, hkd, hlinked, hholds⟩
    exact ⟨(hget value).mpr ⟨entry, hkd, Or.inr hlinked, hholds⟩, entry, hkd, hlinked⟩

/-- A merge keeps a value that it finds. -/
theorem merge_keeps (hrw : w.opts.isReadWrite = true) (hfiles : FilesOk tidy (fun _ => False) w)
    (hids : (w.call .merge).2.allotted < 2 ^ 32) (h : w.Serves key value) (hscan : w.Scannable key) :
    (w.call .merge).2.Serves key value := by
  obtain ⟨entry, hkd, hlinked, hholds⟩ := World.serves_iff.mp h
  obtain ⟨entry', hkd', hscan⟩ := hscan
  cases hkd.symm.trans hkd'
  have hstart : Kept (.begun w) w key value :=
    ⟨entry, hkd, hscan, hholds, hlinked, fun hf => Or.inl hf⟩
  obtain ⟨g, own, -, -, hkept⟩ := run_merge (Kept · · key value) hrw hfiles hids hstart
    fun own g op w g' hwork hR hlt h =>
      h.step hwork.files hwork.merge hwork.sourced hwork.present hR (Or.inl rfl)
        (hwork.step hR (Or.inl rfl) hlt).2
  obtain ⟨entry, hkd, -, hholds, hlinked, -⟩ := hkept
  exact World.serves_iff.mpr ⟨entry, hkd, hlinked, hholds⟩

/-- An entry no scan finds, in a file that is to be removed all the same. -/
structure Doomed (key : Bytes) (entry : KeydirEntry) (g : MergeLog) (w : World) : Prop where
  keydir : w.keydir.get key = some entry
  unscanned : ¬ w.Scans key entry
  input : entry.fileId ∈ g.inputs
  kept : g.kept = []

theorem Doomed.step {own : FileId → Prop} {g g' : MergeLog} {op : Op} (h : Doomed key entry g w)
    (hwork : AtWork tidy own g w) (hR : MergeLog.protocol g op (perform op w).1 g')
    (hlt : (perform op w).2.allotted < 2 ^ 32) : Doomed key entry g' (perform op w).2 := by
  have hO : Outcome op w (perform op w).1 (perform op w).2 := Or.inl rfl
  obtain ⟨hwork', hE⟩ := hwork.step hR hO hlt
  have hinput : entry.fileId ∈ g'.inputs := by
    rcases MergeLog.inputs_step hR with heq | ⟨-, hnil⟩
    · exact heq ▸ h.input
    · have hmem := h.input
      rw [hnil] at hmem
      cases hmem
  refine ⟨?_, fun hscan => h.unscanned ?_, hinput, ?_⟩
  · by_cases hop : ∃ key' old new, op = .keydirCasRepoint key' old new
    · obtain ⟨key', old, new, rfl⟩ := hop
      obtain ⟨c, rest, hpending, rfl, rfl, rfl, -, -⟩ := hR
      rcases get_repointed (c := c) h.keydir with ⟨rfl, rfl, -⟩ | ⟨-, hkd⟩
      · -- a copy of the entry would come from a scan
        obtain ⟨o, ho, hc⟩ := hwork.merge.sound.pending c (hpending ▸ List.mem_cons_self)
        obtain ⟨bytes, hread, hmem, hlive⟩ := hwork.sourced.copies o ho c hc
        have hfront := (readAllEntries_front (hwork.merge.reads _ hread)).subset hmem
        exact absurd (World.scans_iff.mpr ⟨_, hfront, hlive, rfl, rfl⟩) h.unscanned
      · exact hkd
    · rw [hO.keydir]
      · exact h.keydir
      · cases op with
        | keydirCasRepoint key' old new => exact absurd ⟨key', old, new, rfl⟩ hop
        | keydirInsert => exact hR.elim
        | keydirRemove => exact hR.elim
        | _ => rfl
  · -- nobody writes to an input
    obtain ⟨data, hl⟩ := hwork.merge.inputs _ h.input
    have hlt := hwork.files.lt_of_lookup hl
    have hold : entry.fileId < w.active.fileId :=
      (hwork.merge.sound.inputs _ h.input).trans_le hwork.merge.activeAtStart
    have hsame := hE.data _ hlt (hwork'.sourced.apart _ hinput) (ne_of_lt hold)
    unfold World.Scans at hscan ⊢
    rwa [contentOf_of_sameFile hsame] at hscan
  · rcases MergeLog.kept_step hR with heq | ⟨f, heq⟩
    · exact heq.trans h.kept
    · -- without faults a removal fails only where there is no file
      obtain ⟨rfl, hr⟩ := Sigma.mk.inj heq
      simp only [perform, performBase] at hr
      split at hr <;> cases hr

/-- A merge does not keep a value that it does not find. -/
theorem merge_drops (hrw : w.opts.isReadWrite = true) (hfiles : FilesOk tidy (fun _ => False) w)
    (hids : (w.call .merge).2.allotted < 2 ^ 32) (hmerge : (w.call .merge).1 = .unit (.ok ()))
    (hkd : w.keydir.get key = some entry) (hlinked : w.Linked entry.fileId)
    (hold : entry.fileId < w.active.fileId) (hscan : ¬ w.Scans key entry) :
    ¬ (w.call .merge).2.Serves key value := by
  obtain ⟨data, hopen⟩ := hlinked
  have hstart : Doomed key entry (.begun w) w := by
    refine ⟨hkd, hscan, List.mem_filter.mpr ⟨?_, by simpa using hold⟩, rfl⟩
    exact (FileTable.mem_discover _ _).mpr ⟨data, open?_eq_some.mp hopen⟩
  obtain ⟨g, own, hends, hwork, hdoomed⟩ := run_merge (Doomed key entry) hrw hfiles hids hstart
    fun own g op w g' hwork hR hlt h => h.step hwork hR hlt
  rcases hends with ⟨-, -, hdone, -⟩ | ⟨⟨e, he⟩, -⟩
  · rintro ⟨-, entry', hkd', data', hopen'⟩
    cases hdoomed.keydir.symm.trans hkd'
    have hremoved : entry.fileId ∈ g.removed := by
      rcases hwork.sourced.due _ hdoomed.input with hmem | hmem
      · rw [hdone] at hmem
        cases hmem
      · exact hmem
    obtain ⟨data'', hl, hunlinked⟩ := hwork.merge.removed _ hremoved (by simp [hdoomed.kept])
    obtain ⟨hl', hlinked'⟩ := open?_eq_some.mp hopen'
    cases hl.symm.trans hl'
    exact Bool.false_ne_true (hunlinked.symm.trans hlinked')
  · rw [hmerge] at he
    cases he

/-! ## A directory of any bytes -/

/-- The engine after gets of these keys. -/
def World.afterGets (w : World) (keys : List Bytes) : World :=
  keys.foldl (fun w key => (w.call (.get key)).2) w

theorem afterGets_eq (w : World) (keys : List Bytes) :
    ∃ readers, w.afterGets keys = { w with readers } := by
  induction keys generalizing w with
  | nil => exact ⟨w.readers, rfl⟩
  | cons key keys ih =>
    obtain ⟨readers, -, hw, -⟩ := call_get w key
    obtain ⟨readers', hw'⟩ := ih (w.call (.get key)).2
    refine ⟨readers', hw'.trans ?_⟩
    rw [hw]

omit [Crc32Fast] in
theorem allotted_le_exec {α : Type} (p : Prog Op Op.Res α) (w : World) :
    w.allotted ≤ (p.exec perform w).2.allotted := by
  refine p.exec_keeps (P := fun w' : World => w.allotted ≤ w'.allotted) (fun o w' h => ?_) le_rfl
  have hO : Outcome o w' (perform o w').1 (perform o w').2 := Or.inl rfl
  exact h.trans hO.allotted.2

omit [Crc32Fast] in
theorem Directory.lt_allotted (d : Directory) {id : FileId} {f : FileState}
    (hl : d.disk.data.lookup id = some f) : f.linked = true ∧ id < d.allotted := by
  have hlinked : f.linked = true := by
    have hl' : (d.data.lookup id).map FileState.ofBytes = some f :=
      (FileTable.lookup_ofBytes d.data id).symm.trans hl
    obtain ⟨bytes, -, rfl⟩ := Option.map_eq_some_iff.mp hl'
    rfl
  refine ⟨hlinked, ?_⟩
  have hmem := (FileTable.mem_discover d.disk.data id).mpr ⟨f, hl, hlinked⟩
  unfold Directory.allotted
  cases hlast : d.disk.data.discover.getLast? with
  | none =>
    rw [List.getLast?_eq_none_iff.mp hlast] at hmem
    cases hmem
  | some last =>
    exact Nat.lt_succ_of_le (FileTable.le_getLast hlast hmem)

theorem filesOk_directory (d : Directory) {opts : Options} (hrw : opts.isReadWrite = true)
    (hbound : d.allotted + 1 < 2 ^ 32) : FilesOk False (fun _ => False) (d.open opts) :=
  filesOk_open hrw (fun _ _ hl => (d.lt_allotted hl).1) (fun _ _ hl => (d.lt_allotted hl).2) hbound
    (fun h => h.elim) fun h => h.elim

/-- The keydir of an engine just opened points into files of the directory, all
    of them older than the active one. -/
theorem linked_of_open (d : Directory) {opts : Options} (hrw : opts.isReadWrite = true)
    (hbound : d.allotted + 1 < 2 ^ 32) (h : (d.open opts).keydir.get key = some entry) :
    (d.open opts).Linked entry.fileId ∧ entry.fileId < (d.open opts).active.fileId := by
  have hopen : d.open opts = _ := open_eq hrw
  rw [hopen] at h ⊢
  obtain ⟨id, hid, hop⟩ := mem_of_recover h
  obtain ⟨rfl, -⟩ := fileOps_some hop
  obtain ⟨f, hl, hlinked⟩ := (FileTable.mem_discover _ _).mp hid
  have hlt : entry.fileId < d.disk.nextId := by
    apply lt_nextId _ hl hlinked
    intro id f hl
    have := (d.lt_allotted hl).2
    lia
  refine ⟨⟨f, open?_eq_some.mpr ⟨?_, hlinked⟩⟩, hlt⟩
  exact (FileTable.lookup_create_of_ne _ (ne_of_lt hlt)).trans hl

end

/-! ## Two directories -/

/-- A data file with a hint file that lists one record at its start, of key `[1]`
    and value `[2]`. -/
def hintedDirectory [Crc32Fast] (data : Bytes) : Directory where
  data := AList.singleton 0 data
  hint := AList.singleton 0 (encodeHint [1] (headerOf [1] [2] false 7) 17
    ++ toLeBytes 4 (Crc32Fast.hash (encodeHint [1] (headerOf [1] [2] false 7) 17)).toNat)

/-- The record. -/
def intactRecord [Crc32Fast] : Bytes := (encodeEntry [1] [2] false 7).bytes

/-- The record with a damaged checksum. -/
def damagedRecord [Crc32Fast] : Bytes := intactRecord.modifyHead (· + 1)

def readWrite : Options := ⟨true, false, 1000⟩

end Yabiir
