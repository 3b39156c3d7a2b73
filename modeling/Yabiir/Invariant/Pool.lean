/-
  Yabiir.Invariant.Pool

  The engine with any number of threads, any number of merges among them, and
  I/O errors.  Each merge knows what it has done, no two have an id in common,
  and whoever takes the next step, files only grow (`PoolOk.act`).  What the
  active file is made of is not asked: an error may hit anything but the write
  and the flush of an entry.
-/

import Yabiir.Beside
import Yabiir.Rules

namespace Yabiir

open Format

/-! ## Errors that leave appended entries whole -/

/-- The error does not hit the write or the flush of an entry: where an append
    fails, it is in the rotation after them. -/
def Fault.Spares (f : Fault) : Op → Prop
  | .locked (.append ..) => 3 ≤ f.step
  | _ => True

instance (f : Fault) : DecidablePred f.Spares
  | .locked (.append ..) => inferInstanceAs (Decidable (3 ≤ f.step))
  | .locked .activeFileId | .locked (.restoreActive _) => inferInstanceAs (Decidable True)
  | .keydirGet _ | .keydirIsLive .. | .keydirInsert .. | .keydirRemove _ | .keydirCasRepoint ..
  | .keydirSnapshot | .discover | .fetchAddFileId | .createData _ | .createHint _ | .writeData ..
  | .writeHint .. | .flushData _ | .flushHint _ | .syncData _ | .readFile _ | .removeData _
  | .removeHint _ | .forget _ | .openReader _ | .pread .. | .recordPending | .markAllDurable
  | .getActive | .setActive _ | .commit _ => inferInstanceAs (Decidable True)

/-- What may come of an operation under such errors. -/
def Steady (o : Op) (w : World) (r : Op.Res o) (w' : World) : Prop :=
  perform o w = (r, w') ∨ ∃ f : Fault, f.Spares o ∧ fault f o w = some (r, w')

section

variable [Crc32Fast] {own own' X : FileId → Prop} {w w' : World} {o : Op} {r : Op.Res o}

omit [Crc32Fast] in
theorem Steady.outcome (h : Steady o w r w') : Outcome o w r w' :=
  h.imp (fun h => h) fun ⟨f, _, hf⟩ => ⟨f, hf⟩

/-- Ids may be given up where nothing is asked of the bytes. -/
theorem FilesOk.release (h : FilesOk False own w) (hown : ∀ id, own' id → own id) :
    FilesOk False own' w :=
  { h with
    own_lt := fun id hid => h.own_lt id (hown id hid)
    own_ne := fun id hid => h.own_ne id (hown id hid)
    sealed_ := fun ht => ht.elim
    hint_lt := fun ht => ht.elim }

/-- An append that fails once its entry is in the file. -/
theorem FilesOk.appendFails (h : FilesOk False own w) {f : Fault} {maxFileSize : Nat}
    {encoded : EncodedEntry} {r : Except IoError (FileId × Nat × Nat)} (hstep : 3 ≤ f.step)
    (hf : fault f (.locked (.append maxFileSize encoded)) w = some (r, w'))
    (hids : w'.allotted < 2 ^ 32) : FilesOk False own w' ∧ Evolves (fun _ => False) w w' := by
  cases hlong : World.tooLong w.disk.data w.active.fileId encoded.bytes with
  | true =>
    rw [fault_append_tooLong hstep hlong] at hf
    cases hf
  | false =>
    obtain ⟨-, hrestore⟩ := fault_append hstep hlong hf
    obtain ⟨hfiles, hE⟩ := h.appended (X := fun _ => False) (fun ht => ht.elim) hlong
    obtain ⟨hfiles', hE', -⟩ := hfiles.restoreActive (Or.inr ⟨_, hrestore⟩) hids
    exact ⟨hfiles', hE.trans hE' rfl⟩

/-- A group commit whose fsync fails: nothing was in the buffer. -/
theorem FilesOk.commitFails (h : FilesOk False own w) {f : Fault} {generation : Nat}
    {r : Except IoError Unit} (hf : fault f (.commit generation) w = some (r, w')) :
    FilesOk False own w' ∧ Evolves X w w' := by
  simp only [fault, faultBase] at hf
  split at hf
  · cases hf
  · obtain ⟨data, hdata, hok⟩ := h.active
    obtain ⟨data', hdata', hf⟩ := Option.map_eq_some_iff.mp hf
    cases hdata.symm.trans hdata'
    obtain ⟨-, rfl⟩ := Prod.mk.inj hf
    have hflush : (data.flushFails f.wrote).getD data.flushBuf = data.flushBuf := by
      simp [FileState.flushFails, hok.drained]
    have hcontent : data.flushBuf.content = data.content := by
      simp [FileState.logical, hok.drained]
    have hactive : ActiveOk False w.active data.flushBuf :=
      ⟨hok.linked, rfl, fun ht => ht.elim, hcontent ▸ hok.offset, hcontent ▸ hok.short⟩
    rw [hflush]
    exact h.activeChanged rfl le_rfl h.allotted h.sound rfl rfl
      (fun id hid => FileTable.lookup_modify_of_ne w.disk.data _ hid) hdata
      (lookup_modifyData hdata) hactive (by rw [hcontent])

/-- An operation of a call other than merge. -/
theorem FilesOk.callSteady (h : FilesOk False own w) (ho : o.isCalls = true)
    (hO : Steady o w r w') (hids : w'.allotted < 2 ^ 32) :
    FilesOk False own w' ∧ Evolves (fun _ => False) w w' := by
  rcases hO with hO | ⟨f, hspares, hf⟩
  · have hcall := h.call (X := fun _ => False) ho (fun _ _ _ ht => ht.elim) (by rw [hO]; exact hids)
    rwa [hO] at hcall
  · have hsame : w' = w → FilesOk False own w' ∧ Evolves (fun _ => False) w w' := by
      rintro rfl
      exact ⟨h, (AgreesOff.refl _ _).evolves⟩
    cases o with
    | locked s =>
      cases s with
      | append maxFileSize encoded => exact h.appendFails hspares hf hids
      | _ => cases ho
    | commit generation => exact h.commitFails hf
    | openReader id => exact hsame (Prod.mk.inj (Option.some.inj hf)).2.symm
    | pread id pos len => exact hsame (Prod.mk.inj (Option.some.inj hf)).2.symm
    | keydirGet | keydirInsert | keydirRemove | keydirSnapshot => cases hf
    | _ => cases ho

end

/-! ## Threads -/

section

variable [Crc32Fast] {w w' : World}

/-- The ghost states of the engine's threads. -/
abbrev EngineGhosts := System.Ghosts Engine.system Engine.Ghost

/-- The ids of the merges at work. -/
def EngineGhosts.Owned (γ : EngineGhosts) (id : FileId) : Prop :=
  ∃ t l, γ t = some l ∧ id ∈ l.ghost.log.ids

/-- The files are in order, each thread's merge knows what it has done, and no id
    is two threads'. -/
structure PoolOk (w : World) (γ : EngineGhosts) : Prop where
  files : FilesOk False γ.Owned w
  merge : ∀ t l, γ t = some l → MergeOk False l.ghost.log w
  sourced : ∀ t l, γ t = some l → l.ghost.log.Sourced
  apart : ∀ t u l l', γ t = some l → γ u = some l' → t ≠ u →
    ∀ id ∈ l.ghost.log.ids, id ∉ l'.ghost.log.ids

variable {γ γ' : EngineGhosts} {t : Nat} {l : System.Local Engine.system Engine.Ghost}

theorem poolOk_idle (h : FilesOk False (fun _ => False) w) : PoolOk w fun _ => none where
  files := h.release fun id ⟨_, _, hl, _⟩ => by cases hl
  merge := fun t l hl => by cases hl
  sourced := fun t l hl => by cases hl
  apart := fun t u l l' hl => by cases hl

/-- A call begins or returns. -/
theorem PoolOk.threads (h : PoolOk w γ)
    (hthreads : ∀ u l, γ' u = some l → γ u = some l ∨ l.ghost.log = .init) : PoolOk w γ' := by
  have hinit : MergeLog.init.ids = [] := rfl
  refine ⟨h.files.release ?_, fun u l hl => ?_, fun u l hl => ?_, fun t u l l' hl hl' htu id hid => ?_⟩
  · rintro id ⟨u, l, hl, hid⟩
    rcases hthreads u l hl with hl | heq
    · exact ⟨u, l, hl, hid⟩
    · rw [heq, hinit] at hid
      cases hid
  · rcases hthreads u l hl with hl | heq
    · exact h.merge u l hl
    · rw [heq]
      exact mergeOk_init w
  · rcases hthreads u l hl with hl | heq
    · exact h.sourced u l hl
    · rw [heq]
      exact MergeLog.sourced_init
  · rcases hthreads t l hl with hl | heq
    · rcases hthreads u l' hl' with hl' | heq
      · exact h.apart t u l l' hl hl' htu id hid
      · rw [heq, hinit]
        exact List.not_mem_nil
    · rw [heq, hinit] at hid
      cases hid

/-- A thread's step, where the ids it owns afterwards are its own or new. -/
theorem PoolOk.update (h : PoolOk w γ) (hl : γ t = some l) {j : Journal} {g : Engine.Ghost}
    (hfiles : FilesOk False (fun id => γ.Owned id ∨ id ∈ g.log.ids) w')
    (hE : Evolves (· ∈ g.log.ids) w w') (hmerge : MergeOk False g.log w') (hsourced : g.log.Sourced)
    (hmono : ∀ id ∈ l.ghost.log.ids, id ∈ g.log.ids)
    (hnew : ∀ id ∈ g.log.ids, id ∈ l.ghost.log.ids ∨ w.nextFileId ≤ id) :
    PoolOk w' (Function.update γ t (some ⟨l.call, j, g⟩)) := by
  have hother : ∀ u lu, γ u = some lu → u ≠ t → ∀ id ∈ lu.ghost.log.ids, id ∉ g.log.ids := by
    intro u lu hlu hu id hid hmem
    rcases hnew id hmem with hold | hge
    · exact h.apart u t lu l hlu hl hu id hid hold
    · have hlt := h.files.own_lt id ⟨u, lu, hlu, hid⟩
      lia
  refine ⟨hfiles.congr fun id => ?_, fun u lu hlu => ?_, fun u lu hlu => ?_,
    fun u v lu lv hlu hlv huv id hid => ?_⟩
  · constructor
    · rintro (⟨u, lu, hlu, hid⟩ | hid)
      · by_cases hu : u = t
        · subst hu
          cases hl.symm.trans hlu
          exact ⟨u, _, Function.update_self .., hmono id hid⟩
        · exact ⟨u, lu, (Function.update_of_ne hu ..).trans hlu, hid⟩
      · exact ⟨t, _, Function.update_self .., hid⟩
    · rintro ⟨u, lu, hlu, hid⟩
      by_cases hu : u = t
      · rw [hu, Function.update_self] at hlu
        cases hlu
        exact Or.inr hid
      · rw [Function.update_of_ne hu] at hlu
        exact Or.inl ⟨u, lu, hlu, hid⟩
  · by_cases hu : u = t
    · rw [hu, Function.update_self] at hlu
      cases hlu
      exact hmerge
    · rw [Function.update_of_ne hu] at hlu
      exact (h.merge u lu hlu).evolves h.files (fun id hid => ⟨u, lu, hlu, hid⟩) hE
        (hother u lu hlu hu)
  · by_cases hu : u = t
    · rw [hu, Function.update_self] at hlu
      cases hlu
      exact hsourced
    · rw [Function.update_of_ne hu] at hlu
      exact h.sourced u lu hlu
  · by_cases hu : u = t
    · have hv : v ≠ t := fun hv => huv (hu.trans hv.symm)
      rw [hu, Function.update_self] at hlu
      rw [Function.update_of_ne hv] at hlv
      cases hlu
      exact fun hid' => hother v lv hlv hv id hid' hid
    · rw [Function.update_of_ne hu] at hlu
      by_cases hv : v = t
      · rw [hv, Function.update_self] at hlv
        cases hlv
        exact hother u lu hlu hu id hid
      · rw [Function.update_of_ne hv] at hlv
        exact h.apart u v lu lv hlu hlv huv id hid

/-- Every operation of every thread: files only grow. -/
theorem PoolOk.act (h : PoolOk w γ) (hl : γ t = some l) {o : Op} {r : Op.Res o}
    {g : Engine.Ghost} (hR : Engine.rules.step l.call l.journal l.ghost o r g)
    (hO : Steady o w r w') (hids : w'.allotted < 2 ^ 32) :
    PoolOk w' (Function.update γ t (some ⟨l.call, l.journal.log o r, g⟩)) ∧ w.Grows w' := by
  obtain ⟨-, -, hcall, -⟩ := hR
  have hown : ∀ id ∈ l.ghost.log.ids, γ.Owned id := fun id hid => ⟨t, l, hl, hid⟩
  by_cases hmerge : l.call = .merge
  · rw [hmerge] at hcall
    have hR : MergeLog.protocol l.ghost.log o r g.log := hcall
    have hm := h.merge t l hl
    have hstep := hm.step h.files hown hR hO.outcome hids
    -- an id just claimed is above all files
    have hnew : ∀ id ∈ g.log.ids, id ∈ l.ghost.log.ids ∨ w.nextFileId ≤ id := by
      intro id hid
      rcases MergeLog.ids_step hR hid with hold | heq
      · exact Or.inl hold
      · obtain ⟨rfl, hr⟩ := Sigma.mk.inj heq
        cases hr
        rcases hO.outcome with hO | ⟨f, hO⟩
        · obtain ⟨rfl, -⟩ := Prod.mk.inj hO
          exact Or.inr le_rfl
        · cases hO
    have hsourced : g.log.Sourced := by
      apply (h.sourced t l hl).step hm.sound hR
      intro id hid hold hin
      obtain ⟨data, hdata⟩ := hm.inputs id hin
      have hlt := h.files.lt_of_lookup hdata
      rcases hnew id hid with hid | hge
      · exact hold hid
      · lia
    exact ⟨h.update hl hstep.files hstep.evolves hstep.merge hsourced
      (fun id hid => MergeLog.ids_mono hR hid) hnew, hstep.evolves.onlyGrows h.files⟩
  · obtain ⟨hrule, hlog⟩ := (Engine.callProtocol_of_ne hmerge).mp hcall
    obtain ⟨hfiles, hE⟩ := h.files.callSteady (rule_isCalls hrule) hO hids
    have hm := (h.merge t l hl).evolves h.files hown hE fun _ _ hx => hx
    refine ⟨h.update hl ?_ (hE.mono fun _ hx => hx.elim) (hlog ▸ hm) (hlog ▸ h.sourced t l hl) ?_ ?_,
      hE.onlyGrows h.files⟩
    · rw [hlog]
      exact hfiles.congr fun id => ⟨Or.inl, fun hid => hid.elim (fun h => h) (hown id)⟩
    · rw [hlog]
      exact fun id hid => hid
    · rw [hlog]
      exact fun id hid => Or.inl hid

end

end Yabiir
