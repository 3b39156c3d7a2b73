/-
  Yabiir.Invariant.Synced

  How far fsyncs have come.  Every entry that an append gets to the kernel has a
  generation and a place, and the generations marked as durable are at places that a
  successful `sync_data` has covered (`Marked`).  A file that is no longer the active one
  was synced when it was left, so a leader that syncs whatever file is active by then
  covers every generation there was when it began.
-/

import Yabiir.Invariant.Pool

namespace Yabiir

open Format

/-- Where an append put its entry. -/
structure Place where
  fileId : FileId
  start : Nat
  bytes : Bytes

def Place.stop (p : Place) : Nat := p.start + p.bytes.length

/-- The bytes are at their place, within what fits in `n` of the file's bytes. -/
def Place.Within (p : Place) (f : FileState) (n : Nat) : Prop :=
  p.bytes <+: f.content.drop p.start ∧ p.stop ≤ n

namespace World

variable (w : World)

/-- The kernel has the bytes. -/
def Handed (p : Place) : Prop :=
  ∃ f, w.disk.data.lookup p.fileId = some f ∧ p.Within f f.content.length

/-- An fsync has covered the bytes. -/
def Durable (p : Place) : Prop := ∃ f, w.disk.data.lookup p.fileId = some f ∧ p.Within f f.synced

/-- Only bytes that the kernel has are synced. -/
def SyncSound : Prop := ∀ id f, w.disk.data.lookup id = some f → f.synced ≤ f.content.length

/-- Files keep their bytes, and what is synced stays so. -/
structure Advances (w w' : World) : Prop where
  files : ∀ id f, w.disk.data.lookup id = some f → ∃ f', w'.disk.data.lookup id = some f' ∧
    f.content <+: f'.content ∧ f.synced ≤ f'.synced
  sound : w.SyncSound → w'.SyncSound

end World

section

variable {w w' w'' : World} {p : Place} {id : FileId}

theorem Place.Within.mono {f f' : FileState} {n n' : Nat} (h : p.Within f n)
    (hcontent : f.content <+: f'.content) (hn : n ≤ n') : p.Within f' n' := by
  obtain ⟨tail, htail⟩ := hcontent
  refine ⟨h.1.trans ?_, h.2.trans hn⟩
  rw [← htail, List.drop_append]
  exact List.prefix_append ..

theorem World.Advances.refl (w : World) : w.Advances w :=
  ⟨fun _ f hl => ⟨f, hl, List.prefix_rfl, le_rfl⟩, fun h => h⟩

theorem World.Advances.trans (h : w.Advances w') (h' : w'.Advances w'') : w.Advances w'' where
  files := by
    intro id f hl
    obtain ⟨f', hl', hcontent, hsynced⟩ := h.files id f hl
    obtain ⟨f'', hl'', hcontent', hsynced'⟩ := h'.files id f' hl'
    exact ⟨f'', hl'', hcontent.trans hcontent', hsynced.trans hsynced'⟩
  sound := fun hsound => h'.sound (h.sound hsound)

theorem World.Advances.handed (h : w.Advances w') (hp : w.Handed p) : w'.Handed p := by
  obtain ⟨f, hl, hin⟩ := hp
  obtain ⟨f', hl', hcontent, -⟩ := h.files _ f hl
  exact ⟨f', hl', hin.mono hcontent hcontent.length_le⟩

theorem World.Advances.durable (h : w.Advances w') (hp : w.Durable p) : w'.Durable p := by
  obtain ⟨f, hl, hin⟩ := hp
  obtain ⟨f', hl', hcontent, hsynced⟩ := h.files _ f hl
  exact ⟨f', hl', hin.mono hcontent hsynced⟩

theorem World.Durable.handed (hp : w.Durable p) (hsound : w.SyncSound) : w.Handed p := by
  obtain ⟨f, hl, hin⟩ := hp
  exact ⟨f, hl, hin.mono List.prefix_rfl (hsound _ f hl)⟩

/-! ## Operations -/

/-- A step that leaves the data files alone. -/
theorem World.Advances.of_eq (hdata : w'.disk.data = w.disk.data) : w.Advances w' where
  files := fun _ f hl => ⟨f, hdata ▸ hl, List.prefix_rfl, le_rfl⟩
  sound := fun hsound id f hl => hsound id f (hdata ▸ hl)

/-- A change of one file. -/
theorem World.Advances.modifyData {g : FileState → FileState} (hsound : w.SyncSound)
    (hg : ∀ f, w.disk.data.lookup id = some f → f.synced ≤ f.content.length →
      f.content <+: (g f).content ∧ f.synced ≤ (g f).synced ∧
        (g f).synced ≤ (g f).content.length) : w.Advances (w.modifyData id g) where
  files := by
    intro id' f hl
    have hlookup := FileTable.lookup_modify w.disk.data id id' g
    by_cases hid : id' = id
    · subst hid
      obtain ⟨hcontent, hsynced, -⟩ := hg f hl (hsound _ f hl)
      refine ⟨g f, ?_, hcontent, hsynced⟩
      rw [if_pos rfl, hl] at hlookup
      exact hlookup
    · rw [if_neg hid] at hlookup
      exact ⟨f, hlookup.trans hl, List.prefix_rfl, le_rfl⟩
  sound := by
    intro _ id' f' hl'
    have hlookup := FileTable.lookup_modify w.disk.data id id' g
    by_cases hid : id' = id
    · subst hid
      rw [if_pos rfl] at hlookup
      obtain ⟨f, hl, rfl⟩ := Option.map_eq_some_iff.mp (hlookup.symm.trans hl')
      exact (hg f hl (hsound _ f hl)).2.2
    · rw [if_neg hid] at hlookup
      exact hsound id' f' (hlookup.symm.trans hl')

/-- Creating a file, where none is lost by it. -/
theorem World.Advances.createData {n : FileId} (hsound : w.SyncSound)
    (hkept : ∀ f, w.disk.data.lookup n = some f → f.linked = false → f.content = []) :
    w.Advances (w.createData n).2 := by
  -- the file there is, with its bytes, or an empty one
  have hself : ∃ f', (w.disk.data.create n).lookup n = some f' ∧ f'.synced ≤ f'.content.length ∧
      ∀ f, w.disk.data.lookup n = some f → f.content <+: f'.content ∧ f.synced ≤ f'.synced := by
    unfold FileTable.create
    cases hl : w.disk.data.lookup n with
    | none => exact ⟨.fresh, AList.lookup_insert _, le_rfl, fun f hf => by cases hf⟩
    | some f =>
      dsimp only
      by_cases hlinked : f.linked = true
      · rw [if_pos hlinked]
        refine ⟨{ f with buffer := [] }, AList.lookup_insert _, hsound n f hl, ?_⟩
        rintro _ ⟨⟩
        exact ⟨List.prefix_rfl, le_rfl⟩
      · rw [if_neg hlinked]
        have hnil := hkept f hl (Bool.eq_false_iff.mpr hlinked)
        refine ⟨.fresh, AList.lookup_insert _, le_rfl, ?_⟩
        rintro _ ⟨⟩
        have hsynced := hsound n f hl
        rw [hnil] at hsynced
        exact ⟨hnil ▸ List.prefix_rfl, hsynced⟩
  obtain ⟨f', hl', hsound', hkeeps⟩ := hself
  constructor
  · intro id f hl
    by_cases hid : id = n
    · subst hid
      exact ⟨f', hl', hkeeps f hl⟩
    · exact ⟨f, (FileTable.lookup_create_of_ne _ hid).trans hl, List.prefix_rfl, le_rfl⟩
  · intro _ id f hl
    by_cases hid : id = n
    · subst hid
      cases hl'.symm.trans hl
      exact hsound'
    · exact hsound id f ((FileTable.lookup_create_of_ne _ hid).symm.trans hl)

theorem FileState.synced_writeAll (f : FileState) (bytes : Bytes) :
    (f.writeAll bytes).synced = f.synced := by
  unfold FileState.writeAll
  split
  · rfl
  · dsimp only
    split <;> split <;> rfl

theorem FileState.synced_writeAllFails {f f' : FileState} {bytes : Bytes} {n : Nat}
    (h : f.writeAllFails bytes n = some f') : f'.synced = f.synced := by
  unfold FileState.writeAllFails at h
  split at h
  · cases h
  · split at h
    · cases h
      rfl
    · by_cases hspare : bytes.length > bufCapacity - f.buffer.length
      · simp only [hspare, if_true] at h
        split at h <;> cases h
        rfl
      · simp only [hspare, if_false] at h
        split at h <;> cases h
        rfl

theorem FileState.synced_flushFails {f f' : FileState} {n : Nat} (h : f.flushFails n = some f') :
    f'.synced = f.synced := by
  unfold FileState.flushFails at h
  split at h <;> cases h
  rfl

/-- Bytes that reach the kernel leave what is synced alone. -/
theorem World.Advances.grown {g : FileState → FileState} (hsound : w.SyncSound)
    (hg : ∀ f, w.disk.data.lookup id = some f →
      f.content <+: (g f).content ∧ (g f).synced = f.synced) : w.Advances (w.modifyData id g) := by
  refine .modifyData hsound fun f hl hle => ?_
  obtain ⟨hcontent, hsynced⟩ := hg f hl
  exact ⟨hcontent, hsynced.ge, hsynced.le.trans (hle.trans hcontent.length_le)⟩

/-- The operations that are neither of a section nor of group commit. -/
def Op.isBare : Op → Bool
  | .locked _ | .commit _ | .recordPending | .markAllDurable | .setActive _ => false
  | _ => true

/-- What such an operation does: group commit and the active file are left alone. -/
structure Bare (w w' : World) : Prop where
  advances : w.Advances w'
  commit : w'.commit = w.commit
  active : w'.active = w.active

theorem Bare.refl (w : World) : Bare w w := ⟨.refl w, rfl, rfl⟩

theorem Bare.of_eq (hdata : w'.disk.data = w.disk.data) (hcommit : w'.commit = w.commit)
    (hactive : w'.active = w.active) : Bare w w' :=
  ⟨.of_eq hdata, hcommit, hactive⟩

theorem Bare.grown {g : FileState → FileState} (hsound : w.SyncSound)
    (hg : ∀ f, w.disk.data.lookup id = some f →
      f.content <+: (g f).content ∧ (g f).synced = f.synced) : Bare w (w.modifyData id g) :=
  ⟨.grown hsound hg, rfl, rfl⟩

/-- A file that was unlinked is not found again. -/
theorem World.Grows.bare_createData {n : FileId} (hgrows : w.Grows (w.createData n).2)
    (hsound : w.SyncSound) : Bare w (w.createData n).2 := by
  refine ⟨.createData hsound fun f hl hlinked => ?_, rfl, rfl⟩
  obtain ⟨f', hl', hcontent, hlinked'⟩ := hgrows n f hl
  obtain ⟨f'', hl'', hopened, -⟩ := FileTable.lookup_create_self w.disk.data n
  cases hl'.symm.trans hl''
  rw [hlinked' hlinked] at hopened
  cases hopened

theorem bare_performBase {o : Op} (ho : o.isBare = true) (hgrows : w.Grows (performBase o w).2)
    (hsound : w.SyncSound) : Bare w (performBase o w).2 := by
  cases o with
  | locked | commit | recordPending | markAllDurable | setActive => cases ho
  | createData n => exact hgrows.bare_createData hsound
  | writeData id bytes =>
    simp only [performBase]
    split
    · exact .of_eq rfl rfl rfl
    · exact .grown hsound fun f _ => ⟨f.content_prefix_writeAll bytes, f.synced_writeAll bytes⟩
  | writeHint id bytes =>
    simp only [performBase]
    split <;> exact .of_eq rfl rfl rfl
  | flushData id => exact .grown hsound fun f _ => ⟨f.content_prefix_logical, rfl⟩
  | syncData id =>
    exact ⟨.modifyData hsound fun f _ hle => ⟨List.prefix_rfl, hle, le_rfl⟩, rfl, rfl⟩
  | readFile id =>
    simp only [performBase]
    split <;> exact .refl w
  | removeData id =>
    simp only [performBase]
    split
    · exact .refl w
    · exact .grown hsound fun f _ => ⟨List.prefix_rfl, rfl⟩
  | removeHint id =>
    simp only [performBase]
    split <;> exact .of_eq rfl rfl rfl
  | openReader id =>
    simp only [performBase]
    split
    · exact .refl w
    · split <;> exact .of_eq rfl rfl rfl
  | _ => exact .of_eq rfl rfl rfl

theorem bare_faultBase {f : Fault} {o : Op} {r : Op.Res o} (ho : o.isBare = true)
    (hf : faultBase f o w = some (r, w')) (hgrows : w.Grows w') (hsound : w.SyncSound) :
    Bare w w' := by
  cases o with
  | createData id =>
    obtain ⟨-, rfl⟩ := Prod.mk.inj (Option.some.inj hf)
    split
    · exact .refl w
    · rename_i hw
      rw [if_neg hw] at hgrows
      exact hgrows.bare_createData hsound
  | createHint id =>
    obtain ⟨-, rfl⟩ := Prod.mk.inj (Option.some.inj hf)
    split <;> exact .of_eq rfl rfl rfl
  | writeData id bytes =>
    obtain ⟨file, hl, hf⟩ := Option.bind_eq_some_iff.mp hf
    obtain ⟨file', hs, hf⟩ := Option.map_eq_some_iff.mp hf
    obtain ⟨-, rfl⟩ := Prod.mk.inj hf
    refine .grown hsound fun f' hl' => ?_
    cases hl.symm.trans hl'
    exact ⟨file.content_prefix_writeAllFails bytes hs, FileState.synced_writeAllFails hs⟩
  | writeHint id bytes =>
    obtain ⟨file, hl, hf⟩ := Option.bind_eq_some_iff.mp hf
    obtain ⟨file', hs, hf⟩ := Option.map_eq_some_iff.mp hf
    obtain ⟨-, rfl⟩ := Prod.mk.inj hf
    exact .of_eq rfl rfl rfl
  | flushData id =>
    obtain ⟨file, hl, hf⟩ := Option.bind_eq_some_iff.mp hf
    obtain ⟨file', hs, hf⟩ := Option.map_eq_some_iff.mp hf
    obtain ⟨-, rfl⟩ := Prod.mk.inj hf
    refine .grown hsound fun f' hl' => ?_
    cases hl.symm.trans hl'
    exact ⟨file.content_prefix_flushFails hs, FileState.synced_flushFails hs⟩
  | flushHint id =>
    obtain ⟨file, hl, hf⟩ := Option.bind_eq_some_iff.mp hf
    obtain ⟨file', hs, hf⟩ := Option.map_eq_some_iff.mp hf
    obtain ⟨-, rfl⟩ := Prod.mk.inj hf
    exact .of_eq rfl rfl rfl
  | commit => cases ho
  | discover | syncData | readFile | removeData | removeHint | openReader | pread =>
    obtain ⟨-, rfl⟩ := Prod.mk.inj (Option.some.inj hf)
    exact .refl w
  | _ => cases hf

theorem Outcome.bare {o : Op} {r : Op.Res o} (hO : Outcome o w r w') (ho : o.isBare = true)
    (hgrows : w.Grows w') (hsound : w.SyncSound) : Bare w w' := by
  have hbase : ∀ w, perform o w = performBase o w ∧ ∀ f, fault f o w = faultBase f o w := by
    intro w
    cases o with
    | locked => cases ho
    | _ => exact ⟨rfl, fun _ => rfl⟩
  rcases hO with hO | ⟨f, hO⟩
  · rw [(hbase w).1] at hO
    have heq : w' = (performBase o w).2 := by rw [hO]
    rw [heq] at hgrows ⊢
    exact bare_performBase ho hgrows hsound
  · exact bare_faultBase ho (((hbase w).2 f).symm.trans hO) hgrows hsound

end

/-! ## Generations and their places -/

/-- The entries of the generations so far, in order, are with the kernel; those marked as
    durable, and all that are not in the active file, are durable. -/
structure Marked (w : World) (places : List Place) : Prop where
  sound : w.SyncSound
  count : places.length = w.commit.pendingWrites
  below : w.commit.maxDurableGeneration ≤ w.commit.pendingWrites
  handed : ∀ p ∈ places, w.Handed p
  marked : ∀ n p, places[n]? = some p → n < w.commit.maxDurableGeneration → w.Durable p
  behind : ∀ p ∈ places, p.fileId ≠ w.active.fileId → w.Durable p

section

variable {w w' : World} {places : List Place} {p : Place} {own : FileId → Prop}

theorem Bare.marked (h : Bare w w') (hm : Marked w places) : Marked w' places where
  sound := h.advances.sound hm.sound
  count := by rw [h.commit, hm.count]
  below := h.commit ▸ hm.below
  handed := fun p hp => h.advances.handed (hm.handed p hp)
  marked := fun n p hp hn => h.advances.durable (hm.marked n p hp (h.commit ▸ hn))
  behind := fun p hp hne => h.advances.durable (hm.behind p hp (h.active ▸ hne))

/-- A rotation syncs the active file first: every generation is durable then. -/
theorem Marked.rotating (h : Marked w places) :
    Marked w.rotating places ∧ w.Advances w.rotating ∧ ∀ p ∈ places, w.rotating.Durable p := by
  have hadvances : w.Advances w.activeSynced :=
    .modifyData h.sound fun f _ hle =>
      ⟨f.content_prefix_logical, hle.trans f.content_prefix_logical.length_le, le_rfl⟩
  have hdurable : ∀ p ∈ places, w.rotating.Durable p := by
    intro p hp
    by_cases hid : p.fileId = w.active.fileId
    · obtain ⟨f, hl, hin⟩ := h.handed p hp
      refine ⟨f.flushBuf.syncData, ?_, hin.mono f.content_prefix_logical
        f.content_prefix_logical.length_le⟩
      rw [World.lookup_rotating, if_pos hid, hl]
      rfl
    · exact hadvances.durable (h.behind p hp hid)
  exact ⟨⟨hadvances.sound h.sound, h.count, le_rfl, fun p hp => hadvances.handed (h.handed p hp),
    fun n p hp _ => hdurable p (List.mem_of_getElem? hp), fun p hp _ => hdurable p hp⟩,
    ⟨hadvances.files, hadvances.sound⟩, hdurable⟩

theorem Marked.created (h : Marked w places) {n : FileId} (hnone : w.disk.data.lookup n = none) :
    Marked (w.createData n).2 places ∧ w.Advances (w.createData n).2 := by
  have hbare : Bare w (w.createData n).2 := by
    refine ⟨.createData h.sound fun f hl => ?_, rfl, rfl⟩
    cases hnone.symm.trans hl
  exact ⟨hbare.marked h, hbare.advances⟩

variable [Crc32Fast]

theorem Marked.rotated (h : Marked w places) (hfiles : FilesOk False own w) :
    Marked w.rotated places ∧ w.Advances w.rotated := by
  obtain ⟨hmarked, hadvances, hdurable⟩ := h.rotating
  have hnone : w.rotating.disk.data.lookup w.nextFileId = none := by
    rw [World.lookup_rotating, if_neg (ne_of_gt hfiles.active_lt)]
    exact (hfiles.fresh _ le_rfl).1
  obtain ⟨hmarked', hadvances'⟩ := hmarked.created hnone
  have hall := hadvances.trans hadvances'
  refine ⟨⟨hmarked'.sound, hmarked'.count, hmarked'.below, hmarked'.handed, hmarked'.marked, fun p hp _ => ?_⟩,
    ⟨hall.files, hall.sound⟩⟩
  exact hadvances'.durable (hdurable p hp)

/-- `restore_active_file`, whatever comes of it. -/
theorem Marked.restoreActive (h : Marked w places) (hfiles : FilesOk False own w)
    {highest : FileId} {r : Except IoError Unit}
    (hO : Outcome (.locked (.restoreActive highest)) w r w') :
    Marked w' places ∧ w.Advances w' := by
  rcases hO with hO | ⟨f, hO⟩
  · rw [perform_restoreActive] at hO
    obtain ⟨-, rfl⟩ := Prod.mk.inj hO
    split
    · exact h.rotated hfiles
    · exact ⟨h, .refl w⟩
  · obtain ⟨data, hdata, hok⟩ := hfiles.active
    obtain ⟨-, hw'⟩ := fault_restoreActive (fun st hst => by
      cases hdata.symm.trans hst
      exact hok.drained) hO
    obtain ⟨hmarked, hadvances, -⟩ := h.rotating
    rcases hw' with rfl | rfl | rfl
    · have hbare : Bare w (w.modifyData w.active.fileId .flushBuf) :=
        .grown h.sound fun f _ => ⟨f.content_prefix_logical, rfl⟩
      exact ⟨hbare.marked h, hbare.advances⟩
    · exact ⟨hmarked, hadvances⟩
    · have hnone : w.rotating.disk.data.lookup w.nextFileId = none := by
        rw [World.lookup_rotating, if_neg (ne_of_gt hfiles.active_lt)]
        exact (hfiles.fresh _ le_rfl).1
      obtain ⟨hmarked', hadvances'⟩ := hmarked.created hnone
      exact ⟨hmarked', hadvances.trans hadvances'⟩

/-- Bytes appended to the active file, as the next generation. -/
theorem Marked.appended (h : Marked w places) (hfiles : FilesOk False own w) (bytes : Bytes) :
    Marked (w.appended bytes) (places ++ [⟨w.active.fileId, w.active.offset, bytes⟩]) ∧
      w.Advances (w.appended bytes) := by
  obtain ⟨data, hdata, hok⟩ := hfiles.active
  have hlogical : data.logical = data.content := (FileState.content_eq_logical hok.drained).symm
  have hgrown : w.Advances (w.modifyData w.active.fileId fun f => (f.writeAll bytes).flushBuf) := by
    refine .grown h.sound fun f _ => ⟨?_, f.synced_writeAll bytes⟩
    rw [FileState.content_flushBuf, FileState.logical_writeAll]
    exact f.content_prefix_logical.trans (List.prefix_append ..)
  have hadvances : w.Advances (w.appended bytes) := ⟨hgrown.files, hgrown.sound⟩
  have hnew : (w.appended bytes).Handed ⟨w.active.fileId, w.active.offset, bytes⟩ := by
    refine ⟨(data.writeAll bytes).flushBuf, ?_, ?_⟩
    · rw [World.lookup_appended, if_pos rfl, hdata]
      rfl
    · have hcontent : ((data.writeAll bytes).flushBuf).content = data.content ++ bytes := by
        rw [FileState.content_flushBuf, FileState.logical_writeAll, hlogical]
      rw [Place.Within, hcontent, hok.offset, List.drop_left]
      exact ⟨List.prefix_rfl, by simp [Place.stop]⟩
  have hlast : ∀ q, q ∈ places ++ [⟨w.active.fileId, w.active.offset, bytes⟩] →
      q ∈ places ∨ q = ⟨w.active.fileId, w.active.offset, bytes⟩ := by
    intro q hq
    exact (List.mem_append.mp hq).imp_right List.mem_singleton.mp
  refine ⟨⟨hadvances.sound h.sound, ?_, h.below.trans (Nat.le_succ _), fun q hq => ?_, fun n q hq hn => ?_, fun q hq hne => ?_⟩,
    hadvances⟩
  · rw [List.length_append, h.count]
    rfl
  · rcases hlast q hq with hq | rfl
    · exact hadvances.handed (h.handed q hq)
    · exact hnew
  · -- the new generation is not marked yet
    have hlt : n < places.length := hn.trans_le (h.count ▸ h.below)
    rw [List.getElem?_append_left hlt] at hq
    exact hadvances.durable (h.marked n q hq hn)
  · rcases hlast q hq with hq | rfl
    · exact hadvances.durable (h.behind q hq hne)
    · exact absurd rfl hne

end

/-! ## Any thread's operations -/

section

variable [Crc32Fast] {w w' : World} {places : List Place} {own : FileId → Prop} {γ : EngineGhosts}
  {t : Nat} {l : System.Local Engine.system Engine.Ghost} {o : Op} {g : Engine.Ghost}

/-- What an operation makes of the places: an append that gets its entry to the kernel
    adds one, also where the rotation after it fails. -/
structure Places (places places' : List Place) (o : Op) (r : Op.Res o) : Prop where
  kept : places <+: places'
  added : ∀ maxFileSize encoded, o = .locked (.append maxFileSize encoded) → ∀ id pos generation,
    r ≍ (.ok (id, pos, generation) : Except IoError (FileId × Nat × Nat)) →
      ∃ start, pos = start + (encoded.bytes.length - encoded.valueLen) ∧ 0 < generation ∧
        places'[generation - 1]? = some ⟨id, start, encoded.bytes⟩

/-- An append. -/
theorem Marked.append (h : Marked w places) (hfiles : FilesOk False own w) {maxFileSize : Nat}
    {encoded : EncodedEntry} {r : Except IoError (FileId × Nat × Nat)}
    (hO : Steady (.locked (.append maxFileSize encoded)) w r w') :
    ∃ places', Marked w' places' ∧ w.Advances w' ∧
      Places places places' (.locked (.append maxFileSize encoded)) r := by
  have herror : ∀ {e places'}, places <+: places' →
      Places places places' (.locked (.append maxFileSize encoded)) (.error e) := by
    intro e places' hkept
    refine ⟨hkept, ?_⟩
    rintro n enc heq id pos generation hr
    cases heq
    cases hr
  cases hlong : World.tooLong w.disk.data w.active.fileId encoded.bytes with
  | true =>
    rcases hO with hO | ⟨f, hspares, hO⟩
    · rw [perform_append_tooLong _ _ _ hlong] at hO
      obtain ⟨rfl, rfl⟩ := Prod.mk.inj hO
      have hbare : Bare w { w with refused := true } := .of_eq rfl rfl rfl
      exact ⟨places, hbare.marked h, hbare.advances, herror List.prefix_rfl⟩
    · rw [fault_append_tooLong hspares hlong] at hO
      cases hO
  | false =>
    obtain ⟨hmarked, hadvances⟩ := h.appended hfiles encoded.bytes
    obtain ⟨hfiles', -⟩ := hfiles.appended (X := fun _ => False) (fun ht => ht.elim) hlong
    have hkept : places <+: places ++ [⟨w.active.fileId, w.active.offset, encoded.bytes⟩] :=
      List.prefix_append ..
    rcases hO with hO | ⟨f, hspares, hO⟩
    · rw [perform_append _ _ _ hlong] at hO
      obtain ⟨rfl, rfl⟩ := Prod.mk.inj hO
      have hrotated : Marked (w.appendRotate maxFileSize encoded.bytes)
            (places ++ [⟨w.active.fileId, w.active.offset, encoded.bytes⟩]) ∧
          w.Advances (w.appendRotate maxFileSize encoded.bytes) := by
        unfold World.appendRotate
        split
        · obtain ⟨hmarked', hadvances'⟩ := hmarked.rotated hfiles'
          exact ⟨hmarked', hadvances.trans hadvances'⟩
        · exact ⟨hmarked, hadvances⟩
      refine ⟨places ++ [⟨w.active.fileId, w.active.offset, encoded.bytes⟩], hrotated.1, hrotated.2, hkept, ?_⟩
      rintro n enc heq id pos generation hr
      cases heq
      cases hr
      refine ⟨w.active.offset, rfl, Nat.succ_pos _, ?_⟩
      rw [Nat.add_sub_cancel, ← h.count]
      exact List.getElem?_concat_length
    · obtain ⟨rfl, hrestore⟩ := fault_append hspares hlong hO
      obtain ⟨hmarked', hadvances'⟩ := hmarked.restoreActive hfiles' (Or.inr ⟨_, hrestore⟩)
      exact ⟨_, hmarked', hadvances.trans hadvances', herror hkept⟩

/-- Outside group commit, every operation of every thread. -/
theorem PoolOk.marked (h : PoolOk w γ) (hm : Marked w places) {r : Op.Res o}
    (hR : Engine.rules.step l.call l.journal l.ghost o r g) (hO : Steady o w r w')
    (hgrows : w.Grows w') (hcommit : ∀ generation, o ≠ .commit generation) :
    ∃ places', Marked w' places' ∧ w.Advances w' ∧ Places places places' o r := by
  have hnone : ∀ {places'}, places <+: places' → (∀ n encoded, o ≠ .locked (.append n encoded)) →
      Places places places' o r :=
    fun hkept hnot => ⟨hkept, fun n encoded heq => absurd heq (hnot n encoded)⟩
  obtain ⟨-, -, hcall, -⟩ := hR
  by_cases hbare : o.isBare = true
  · have hb := hO.outcome.bare hbare hgrows hm.sound
    refine ⟨places, hb.marked hm, hb.advances, hnone List.prefix_rfl ?_⟩
    rintro n encoded rfl
    cases hbare
  · cases o with
    | locked s =>
      cases s with
      | append n encoded => exact hm.append h.files hO
      | restoreActive highest =>
        obtain ⟨hmarked, hadvances⟩ := hm.restoreActive h.files hO.outcome
        exact ⟨places, hmarked, hadvances, hnone List.prefix_rfl fun _ _ heq => by cases heq⟩
      | activeFileId =>
        have hsame : w' = w := by
          rcases hO.outcome with hO | ⟨⟨step, wrote⟩, hO⟩
          · exact (Prod.mk.inj hO).2.symm
          · cases step <;> simp [fault, Section.code, Prog.execFault, faultBase] at hO
        exact ⟨places, hsame ▸ hm, hsame ▸ .refl w,
          hnone List.prefix_rfl fun _ _ heq => by cases heq⟩
    | commit generation => exact absurd rfl (hcommit generation)
    | recordPending | markAllDurable | setActive =>
      -- these are for the sections only
      exfalso
      by_cases hmerge : l.call = .merge
      · rw [hmerge] at hcall
        exact hcall
      · obtain ⟨hrule, -⟩ := (Engine.callProtocol_of_ne hmerge).mp hcall
        cases rule_isCalls hrule
    | _ => exact absurd rfl hbare

end

end Yabiir
