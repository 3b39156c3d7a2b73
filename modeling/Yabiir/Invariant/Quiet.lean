/-
  Yabiir.Invariant.Quiet

  What most operations leave alone, sections and failures included: the keydir,
  the files the directory names, the read handles.
-/

import Yabiir.Directory
import Yabiir.Invariant.Step

namespace Yabiir

open Format

/-- The operations that neither change the keydir nor take away a file or a
    handle. -/
def Op.isQuiet : Op → Bool
  | .keydirInsert .. => false
  | .keydirRemove _ => false
  | .keydirCasRepoint .. => false
  | .removeData _ => false
  | .forget _ => false
  | _ => true

/-- What a quiet operation leaves alone. -/
structure Quiet (w w' : World) : Prop where
  opts : w'.opts = w.opts
  keydir : w'.keydir = w.keydir
  linked : ∀ id, w.Linked id → w'.Linked id
  readers : ∀ id ∈ w.readers, id ∈ w'.readers
  allotted : w.allotted ≤ w'.allotted

variable {w w' w'' : World} {id : FileId}

theorem Quiet.refl (w : World) : Quiet w w := ⟨rfl, rfl, fun _ h => h, fun _ h => h, le_rfl⟩

theorem Quiet.trans (h : Quiet w w') (h' : Quiet w' w'') : Quiet w w'' where
  opts := h'.opts.trans h.opts
  keydir := h'.keydir.trans h.keydir
  linked := fun id hl => h'.linked id (h.linked id hl)
  readers := fun id hr => h'.readers id (h.readers id hr)
  allotted := h.allotted.trans h'.allotted

theorem Quiet.opens (h : Quiet w w') (ho : w.Opens id) : w'.Opens id :=
  ho.imp (h.readers id) (h.linked id)

/-! ## Files that stay linked -/

theorem open?_modify {t : FileTable} {f : FileState → FileState}
    (hf : ∀ s, (f s).linked = s.linked) {data : FileState} {id' : FileId}
    (h : t.open? id = some data) : ∃ data', (t.modify id' f).open? id = some data' := by
  obtain ⟨hl, hlinked⟩ := open?_eq_some.mp h
  by_cases heq : id = id'
  · subst heq
    refine ⟨f data, open?_eq_some.mpr ⟨?_, (hf data).trans hlinked⟩⟩
    rw [FileTable.lookup_modify_self, hl]
    rfl
  · exact ⟨data, open?_eq_some.mpr ⟨(FileTable.lookup_modify_of_ne t f heq).trans hl, hlinked⟩⟩

theorem open?_create {t : FileTable} {data : FileState} {id' : FileId}
    (h : t.open? id = some data) : ∃ data', (t.create id').open? id = some data' := by
  obtain ⟨hl, hlinked⟩ := open?_eq_some.mp h
  by_cases heq : id = id'
  · subst heq
    refine ⟨{ data with buffer := [] }, open?_eq_some.mpr ⟨?_, hlinked⟩⟩
    rw [FileTable.create, hl]
    dsimp only
    rw [if_pos hlinked, AList.lookup_insert]
  · exact ⟨data, open?_eq_some.mpr ⟨(FileTable.lookup_create_of_ne t heq).trans hl, hlinked⟩⟩

theorem quiet_modifyData {f : FileState → FileState} (hf : ∀ s, (f s).linked = s.linked)
    (id : FileId) : Quiet w (w.modifyData id f) :=
  ⟨rfl, rfl, fun _ ⟨_, h⟩ => open?_modify hf h, fun _ h => h, le_rfl⟩

theorem quiet_createData (id : FileId) : Quiet w (w.createData id).2 :=
  ⟨rfl, rfl, fun _ ⟨_, h⟩ => open?_create h, fun _ h => h, le_rfl⟩

/-- The file of a modification that keeps what file there was. -/
theorem quiet_setData {file s : FileState} (h : w.disk.data.lookup id = some file)
    (hs : s.linked = file.linked) : Quiet w (w.modifyData id fun _ => s) := by
  refine ⟨rfl, rfl, fun id' ⟨data, hopen⟩ => ?_, fun _ h => h, le_rfl⟩
  obtain ⟨hl, hlinked⟩ := open?_eq_some.mp hopen
  by_cases heq : id' = id
  · subst heq
    cases h.symm.trans hl
    exact ⟨s, open?_eq_some.mpr ⟨lookup_modifyData h, hs.trans hlinked⟩⟩
  · exact ⟨data, open?_eq_some.mpr
      ⟨(FileTable.lookup_modify_of_ne w.disk.data _ heq).trans hl, hlinked⟩⟩

/-- Only what the structure does not speak of differs. -/
theorem Quiet.of_eq (hopts : w'.opts = w.opts) (hkeydir : w'.keydir = w.keydir)
    (hdata : w'.disk.data = w.disk.data) (hreaders : w'.readers = w.readers)
    (hallotted : w.allotted ≤ w'.allotted) : Quiet w w' := by
  refine ⟨hopts, hkeydir, fun id h => ?_, fun id h => hreaders ▸ h, hallotted⟩
  rw [World.Linked, hdata]
  exact h

/-! ## The operations -/

theorem quiet_performBase {o : Op} (ho : o.isQuiet = true) (w : World) :
    Quiet w (performBase o w).2 := by
  cases o with
  | keydirInsert key entry => cases ho
  | keydirRemove key => cases ho
  | keydirCasRepoint key old new => cases ho
  | removeData id => cases ho
  | forget id => cases ho
  | createData id => exact quiet_createData id
  | writeData id bytes =>
    simp only [performBase]
    split
    · exact .of_eq rfl rfl rfl rfl le_rfl
    · exact quiet_modifyData (fun s => s.linked_writeAll bytes) id
  | writeHint id bytes =>
    simp only [performBase]
    split <;> exact .of_eq rfl rfl rfl rfl le_rfl
  | flushData id => exact quiet_modifyData FileState.linked_flushBuf id
  | syncData id => exact quiet_modifyData FileState.linked_syncData id
  | readFile id =>
    simp only [performBase]
    split <;> exact .refl w
  | removeHint id =>
    simp only [performBase]
    split <;> exact .of_eq rfl rfl rfl rfl le_rfl
  | openReader id =>
    simp only [performBase]
    split
    · exact .refl w
    · split
      · exact .refl w
      · exact ⟨rfl, rfl, fun _ h => h, fun _ h => List.mem_cons_of_mem _ h, le_rfl⟩
  | locked s => cases s <;> exact .refl w
  | fetchAddFileId => exact .of_eq rfl rfl rfl rfl (Nat.le_succ _)
  | commit generation =>
    simp only [performBase]
    split
    · exact .refl w
    · have hq := quiet_modifyData (w := w) (f := fun f => f.flushBuf.syncData)
        (fun s => s.linked_flushBuf) w.active.fileId
      exact hq.trans (.of_eq rfl rfl rfl rfl le_rfl)
  | _ => exact .of_eq rfl rfl rfl rfl le_rfl

theorem quiet_faultBase {f : Fault} {o : Op} {r : Op.Res o}
    (hf : faultBase f o w = some (r, w')) : Quiet w w' := by
  cases o with
  | createData id =>
    obtain ⟨-, rfl⟩ := Prod.mk.inj (Option.some.inj hf)
    split
    · exact .refl w
    · exact quiet_createData id
  | createHint id =>
    obtain ⟨-, rfl⟩ := Prod.mk.inj (Option.some.inj hf)
    split <;> exact .of_eq rfl rfl rfl rfl le_rfl
  | writeData id bytes =>
    obtain ⟨file, hl, hf⟩ := Option.bind_eq_some_iff.mp hf
    obtain ⟨file', hs, hf⟩ := Option.map_eq_some_iff.mp hf
    obtain ⟨-, rfl⟩ := Prod.mk.inj hf
    exact quiet_setData hl (file.logical_writeAllFails bytes hs).1
  | writeHint id bytes =>
    obtain ⟨file, hl, hf⟩ := Option.bind_eq_some_iff.mp hf
    obtain ⟨file', hs, hf⟩ := Option.map_eq_some_iff.mp hf
    obtain ⟨-, rfl⟩ := Prod.mk.inj hf
    exact .of_eq rfl rfl rfl rfl le_rfl
  | flushData id =>
    obtain ⟨file, hl, hf⟩ := Option.bind_eq_some_iff.mp hf
    obtain ⟨file', hs, hf⟩ := Option.map_eq_some_iff.mp hf
    obtain ⟨-, rfl⟩ := Prod.mk.inj hf
    exact quiet_setData hl (file.logical_flushFails hs).1
  | flushHint id =>
    obtain ⟨file, hl, hf⟩ := Option.bind_eq_some_iff.mp hf
    obtain ⟨file', hs, hf⟩ := Option.map_eq_some_iff.mp hf
    obtain ⟨-, rfl⟩ := Prod.mk.inj hf
    exact .of_eq rfl rfl rfl rfl le_rfl
  | commit generation =>
    simp only [faultBase] at hf
    split at hf
    · cases hf
    · obtain ⟨file, hl, hf⟩ := Option.map_eq_some_iff.mp hf
      obtain ⟨-, rfl⟩ := Prod.mk.inj hf
      apply quiet_setData hl
      cases hs : file.flushFails f.wrote with
      | none => rfl
      | some s => exact (file.logical_flushFails hs).1
  | discover | syncData | readFile | removeData | removeHint | openReader | pread =>
    obtain ⟨-, rfl⟩ := Prod.mk.inj (Option.some.inj hf)
    exact .refl w
  | _ => cases hf

/-! ## The sections -/

/-- A method that performs quiet operations only. -/
abbrev QuietOnly {σ α : Type} (m : EngineM σ IoError α) (s : σ) : Prop :=
  Method.Only (Op.isQuiet · = true) m s

theorem quietOnly_ioOp {σ α : Type} {o : Op} (ho : o.isQuiet = true)
    {f : Op.Res o → Except IoError α} {s : σ} : QuietOnly (ioOp o f : EngineM σ IoError α) s :=
  only_ioOp ho

theorem quietOnly_rotateActive (a : ActiveFile) : QuietOnly rotateActive a := by
  unfold rotateActive
  apply Method.Only.bind
  · apply Method.Only.bind Method.Only.get
    intro a' s
    apply Method.Only.bind (quietOnly_ioOp rfl)
    exact fun _ _ => quietOnly_ioOp rfl
  intro _ s
  apply Method.Only.bind (only_readOp (by rfl))
  intro _ s
  apply Method.Only.bind (only_readOp (by rfl))
  intro newId s
  apply Method.Only.bind
  · apply Method.Only.bind (quietOnly_ioOp rfl)
    exact fun _ _ => trivial
  exact fun _ _ => trivial

theorem quietOnly_append (encoded : EncodedEntry) (a : ActiveFile) :
    QuietOnly (ActiveFile.append encoded) a := by
  apply Method.Only.bind
  · apply Method.Only.bind Method.Only.get
    intro a' s
    apply Method.Only.bind (quietOnly_ioOp rfl)
    exact fun _ _ => trivial
  intro result s
  apply Method.Only.bind Method.Only.get
  intro a' s
  apply Method.Only.bind (quietOnly_ioOp rfl)
  exact fun _ _ => trivial

theorem quietOnly_withActive {α : Type} {m : EngineM ActiveFile IoError α}
    (hm : ∀ a, QuietOnly m a) :
    (withActive m).Follows (Prog.only (Op.isQuiet · = true)) (fun _ _ => True) () := by
  intro a
  refine ⟨(), rfl, Prog.Follows.bind (hm a) ?_⟩
  intro _ _ _ _
  exact ⟨(), rfl, trivial⟩

theorem quietOnly_code (s : Section) :
    s.code.Follows (Prog.only (Op.isQuiet · = true)) (fun _ _ => True) () := by
  cases s with
  | append maxFileSize encoded =>
    apply quietOnly_withActive
    intro a
    apply Method.Only.bind (quietOnly_append encoded a)
    rintro ⟨fileId, valuePos, _⟩ s
    apply Method.Only.bind (only_readOp (by rfl))
    intro targetGen s
    apply Method.Only.bind Method.Only.get
    intro a' s
    split
    · apply Method.Only.bind (quietOnly_rotateActive _)
      exact fun _ _ => trivial
    · trivial
  | activeFileId => exact fun _ => ⟨(), rfl, trivial⟩
  | restoreActive highestOutputId =>
    apply quietOnly_withActive
    intro a
    apply Method.Only.bind Method.Only.get
    intro a' s
    split
    · exact quietOnly_rotateActive _
    · trivial

/-- A quiet operation leaves all this alone, whatever comes of it. -/
theorem Outcome.quiet {o : Op} {r : Op.Res o} (ho : o.isQuiet = true) (hO : Outcome o w r w') :
    Quiet w w' := by
  by_cases hs : ∃ s, o = .locked s
  · obtain ⟨s, rfl⟩ := hs
    have hperform : ∀ (g : Unit) (o : Op) (w₁ : World) (g' : Unit),
        Prog.only (Op.isQuiet · = true) g o (performBase o w₁).1 g' → Quiet w w₁ →
        Quiet w (performBase o w₁).2 := fun _ _ _ _ hq h => h.trans (quiet_performBase hq _)
    rcases hO with hO | ⟨f, hO⟩
    · obtain ⟨-, -, h⟩ := (quietOnly_code s).exec hperform (.refl w)
      have hw : (s.code.exec performBase w).2 = w' := congrArg Prod.snd hO
      exact hw ▸ h
    · have hfault : ∀ (g : Unit) (o : Op) (w₁ : World) (b : Op.Res o) (w₂ : World) (g' : Unit),
          faultBase f o w₁ = some (b, w₂) → Prog.only (Op.isQuiet · = true) g o b g' →
          Quiet w w₁ → Quiet w w₂ := fun _ _ _ _ _ _ hf _ h => h.trans (quiet_faultBase hf)
      obtain ⟨-, -, h⟩ := (quietOnly_code s).execFault hperform hfault (.refl w) hO
      exact h
  · have hbase : perform o = performBase o ∧ ∀ f, fault f o = faultBase f o := by
      cases o with
      | locked s => exact absurd ⟨s, rfl⟩ hs
      | _ => exact ⟨rfl, fun _ => rfl⟩
    rcases hO with hO | ⟨f, hO⟩
    · rw [hbase.1] at hO
      have h := quiet_performBase ho w
      rw [hO] at h
      exact h
    · exact quiet_faultBase ((hbase.2 f) ▸ hO)

/-- Only the keydir's own operations change it. -/
theorem Outcome.keydir {o : Op} {r : Op.Res o} (hO : Outcome o w r w')
    (ho : (match o with
      | .keydirInsert .. | .keydirRemove _ | .keydirCasRepoint .. => false
      | _ => true) = true) : w'.keydir = w.keydir := by
  by_cases hq : o.isQuiet = true
  · exact (hO.quiet hq).keydir
  · cases o with
    | removeData f =>
      rcases hO with hO | ⟨f, hO⟩
      · simp only [perform, performBase] at hO
        split at hO <;> obtain ⟨-, rfl⟩ := Prod.mk.inj hO <;> rfl
      · obtain ⟨-, rfl⟩ := Prod.mk.inj (Option.some.inj hO)
        rfl
    | forget f =>
      rcases hO with hO | ⟨f, hO⟩
      · obtain ⟨-, rfl⟩ := Prod.mk.inj hO
        rfl
      · cases hO
    | keydirInsert | keydirRemove | keydirCasRepoint => cases ho
    | _ => exact absurd rfl hq

/-- Only its removal takes a file from the directory. -/
theorem Outcome.linked {o : Op} {r : Op.Res o} (hO : Outcome o w r w') (ho : o ≠ .removeData id)
    (h : w.Linked id) : w'.Linked id := by
  by_cases hq : o.isQuiet = true
  · exact (hO.quiet hq).linked id h
  · cases o with
    | removeData f =>
      have hne : id ≠ f := fun heq => ho (heq ▸ rfl)
      rcases hO with hO | ⟨f, hO⟩
      · simp only [perform, performBase] at hO
        split at hO
        · obtain ⟨-, rfl⟩ := Prod.mk.inj hO
          exact h
        · obtain ⟨-, rfl⟩ := Prod.mk.inj hO
          obtain ⟨data, hopen⟩ := h
          exact ⟨data, (open?_congr (FileTable.lookup_modify_of_ne _ _ hne)).trans hopen⟩
      · obtain ⟨-, rfl⟩ := Prod.mk.inj (Option.some.inj hO)
        exact h
    | keydirCasRepoint key old new | keydirInsert key entry | keydirRemove key | forget f =>
      rcases hO with hO | ⟨f, hO⟩
      · obtain ⟨-, rfl⟩ := Prod.mk.inj hO
        exact h
      · cases hO
    | _ => exact absurd rfl hq

/-- No operation changes the options, and ids are only ever added to those
    allotted. -/
theorem Outcome.allotted {o : Op} {r : Op.Res o} (hO : Outcome o w r w') :
    w'.opts = w.opts ∧ w.allotted ≤ w'.allotted := by
  by_cases ho : o.isQuiet = true
  · have hq := hO.quiet ho
    exact ⟨hq.opts, hq.allotted⟩
  · cases o with
    | removeData f =>
      rcases hO with hO | ⟨f, hO⟩
      · simp only [perform, performBase] at hO
        split at hO <;> obtain ⟨-, rfl⟩ := Prod.mk.inj hO <;> exact ⟨rfl, le_rfl⟩
      · obtain ⟨-, rfl⟩ := Prod.mk.inj (Option.some.inj hO)
        exact ⟨rfl, le_rfl⟩
    | keydirCasRepoint key old new | keydirInsert key entry | keydirRemove key | forget f =>
      rcases hO with hO | ⟨f, hO⟩
      · obtain ⟨-, rfl⟩ := Prod.mk.inj hO
        exact ⟨rfl, le_rfl⟩
      · cases hO
    | _ => exact absurd rfl ho

end Yabiir
