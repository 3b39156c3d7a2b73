/-
  Yabiir.Invariant.Ids

  The file ids of a pool of threads: the counter, the active file's id, the
  names in the directory and the ids merges have drawn.  What a move does to
  them does not depend on any file's bytes.  Until 2^32 ids were handed out,
  each is handed out once, in ascending order (`IdsOk`).
-/

import Yabiir.Directory
import Yabiir.Rules
import Yabiir.Invariant.Reopen

namespace Yabiir

open Format

/-! ## The ids of a world -/

/-- The counter, the active file's id, and which data files exist: `some false`
    for a file that is open somewhere but has lost its name. -/
structure Ids where
  readWrite : Bool
  next : FileId
  active : FileId
  names : FileId → Option Bool

namespace Ids

variable (v : Ids)

/-- An id is drawn from the counter. -/
def draw : Ids := { v with next := wrapU32 (v.next + 1) }

/-- The data file `id` is created, or opened if the directory names it. -/
def create (id : FileId) : Ids := { v with names := Function.update v.names id (some true) }

/-- The data file `f` is removed. -/
def remove (f : FileId) : Ids :=
  { v with
    names := if v.names f = some true then Function.update v.names f (some false) else v.names }

/-- The active file is replaced by a new one. -/
def rotate : Ids := { v.draw.create v.next with active := v.next }

end Ids

/-- The names in a table of files. -/
def FileTable.names (t : FileTable) (id : FileId) : Option Bool := (t.lookup id).map FileState.linked

def World.ids (w : World) : Ids := ⟨w.opts.isReadWrite, w.nextFileId, w.active.fileId, w.disk.data.names⟩

namespace FileTable

variable {t : FileTable} {id : FileId}

theorem open?_eq_none : t.open? id = none ↔ t.names id ≠ some true := by
  unfold open? names
  cases h : t.lookup id with
  | none => simp
  | some f => simp

theorem mem_discover_iff : id ∈ t.discover ↔ t.names id = some true := by
  rw [mem_discover]
  unfold names
  cases t.lookup id <;> simp

theorem names_create : (t.create id).names = Function.update t.names id (some true) := by
  funext id'
  by_cases h : id' = id
  · subst h
    obtain ⟨f, hf, hlinked, -⟩ := t.lookup_create_self id'
    rw [Function.update_self, names, hf, Option.map_some, hlinked]
  · rw [Function.update_of_ne h, names, lookup_create_of_ne t h, names]

theorem names_modify {g : FileState → FileState} (hg : ∀ f, (g f).linked = f.linked) :
    (t.modify id g).names = t.names := by
  funext id'
  unfold names
  rw [lookup_modify]
  split
  · rename_i h
    subst h
    cases t.lookup id' <;> simp [hg]
  · rfl

theorem names_unlink {f : FileState} (h : t.open? id = some f) :
    (t.modify id .unlink).names = Function.update t.names id (some false) := by
  obtain ⟨hlookup, -⟩ := Option.filter_eq_some_iff.mp h
  funext id'
  by_cases hid : id' = id
  · subst hid
    rw [Function.update_self, names, lookup_modify_self, hlookup]
    rfl
  · rw [Function.update_of_ne hid, names, lookup_modify_of_ne t _ hid, names]

/-- What a crash leaves of the names: those in the directory. -/
theorem names_cut (t : FileTable) (keep : FileId → Nat) (id : FileId) :
    (t.cut keep).names id = if t.names id = some true then some true else none := by
  unfold names
  rw [lookup_cut]
  unfold open?
  cases t.lookup id with
  | none => rfl
  | some f => cases hl : f.linked <;> simp [FileState.cut, hl, Option.filter]

end FileTable

/-! ## Operations -/

section

variable (w : World) {id : FileId}

theorem World.ids_modifyData {f : FileState → FileState} (hf : ∀ s, (f s).linked = s.linked) :
    (w.modifyData id f).ids = w.ids :=
  congrArg (Ids.mk _ _ _) (FileTable.names_modify hf)

theorem World.ids_createData : (w.createData id).2.ids = w.ids.create id :=
  congrArg (Ids.mk _ _ _) FileTable.names_create

theorem World.ids_rotating : w.rotating.ids = w.ids.draw :=
  congrArg (Ids.mk _ _ _) (FileTable.names_modify fun s => by simp)

theorem World.ids_rotated : w.rotated.ids = w.ids.rotate := by
  have h : w.rotated.ids = { (w.rotating.createData w.nextFileId).2.ids with
      active := w.nextFileId } := rfl
  rw [h, World.ids_createData, World.ids_rotating]
  rfl

theorem World.ids_appended (bytes : Bytes) : (w.appended bytes).ids = w.ids :=
  congrArg (Ids.mk _ _ _) (FileTable.names_modify fun s => by simp)

/-- What an operation does to the ids. -/
def Ids.After (o : Op) (v v' : Ids) : Prop :=
  match o with
  | .fetchAddFileId => v' = v.draw
  | .createData id => v' = v.create id
  | .removeData f => v' = v.remove f
  | .locked (.append ..) => v' = v ∨ v' = v.rotate
  | .locked (.restoreActive h) => v' = if v.active ≤ h then v.rotate else v
  | .setActive a => v' = { v with active := a.fileId }
  | _ => v' = v

theorem ids_perform (o : Op) : Ids.After o w.ids (perform o w).2.ids := by
  cases o with
  | fetchAddFileId => rfl
  | setActive a => rfl
  | createData id => exact World.ids_createData w
  | removeData f =>
    show (perform (.removeData f) w).2.ids = w.ids.remove f
    simp only [perform, performBase]
    unfold Ids.remove
    split
    · rename_i h
      have hname : w.ids.names f ≠ some true := FileTable.open?_eq_none.mp h
      rw [if_neg hname]
    · rename_i file h
      have hname : w.ids.names f = some true := by
        by_contra hne
        cases (FileTable.open?_eq_none.mpr hne).symm.trans h
      rw [if_pos hname]
      exact congrArg (Ids.mk _ _ _) (FileTable.names_unlink h)
  | writeData id bytes =>
    show (perform (.writeData id bytes) w).2.ids = w.ids
    simp only [perform, performBase]
    split
    · rfl
    · exact w.ids_modifyData fun s => by simp
  | writeHint id bytes =>
    show (perform (.writeHint id bytes) w).2.ids = w.ids
    simp only [perform, performBase]
    split <;> rfl
  | flushData id => exact w.ids_modifyData fun s => by simp
  | syncData id => exact w.ids_modifyData fun s => by simp
  | readFile id =>
    show (perform (.readFile id) w).2.ids = w.ids
    simp only [perform, performBase]
    split <;> rfl
  | removeHint id =>
    show (perform (.removeHint id) w).2.ids = w.ids
    simp only [perform, performBase]
    split <;> rfl
  | openReader id =>
    show (perform (.openReader id) w).2.ids = w.ids
    simp only [perform, performBase]
    split
    · rfl
    · split <;> rfl
  | commit generation =>
    show (perform (.commit generation) w).2.ids = w.ids
    simp only [perform, performBase]
    split
    · rfl
    · exact w.ids_modifyData fun s => by simp
  | locked s =>
    cases s with
    | append maxFileSize encoded =>
      cases h : World.tooLong w.disk.data w.active.fileId encoded.bytes with
      | true =>
        rw [perform_append_tooLong _ _ _ h]
        exact Or.inl rfl
      | false =>
        rw [perform_append _ _ _ h]
        unfold World.appendRotate
        split
        · right
          rw [World.ids_rotated, World.ids_appended]
        · left
          exact w.ids_appended encoded.bytes
    | activeFileId => rfl
    | restoreActive h =>
      rw [perform_restoreActive]
      show World.ids _ = if w.active.fileId ≤ h then w.ids.rotate else w.ids
      rw [← World.ids_rotated]
      exact apply_ite World.ids _ _ _
  | _ => rfl

end

/-! ## Handing out ids, creating files -/

/-- What is done with file ids: one is handed out (`AtomicU32::fetch_add`, or the
    id `Engine::open` chooses); a data file is opened for appending
    (`ActiveFile::create`) in a directory of the data files `files`. -/
inductive FileEvent where
  | handOut (id : FileId)
  | create (files : FileTable) (id : FileId)

/-- The file events of one operation, performed outside a section or in one. -/
def FileEvent.of : World × Op → Option FileEvent
  | (w, .fetchAddFileId) => some (.handOut w.nextFileId)
  | (w, .createData id) => some (.create w.disk.data id)
  | _ => none

/-- The file events of an operation; a section's are those of its operations. -/
def Op.fileEvents (o : Op) (w : World) : List FileEvent :=
  match o with
  | .locked s => (s.code.visits performBase w).filterMap FileEvent.of
  | o => (FileEvent.of (w, o)).toList

/-- The file events of `Engine::open`. -/
def openEvents [Crc32Fast] (disk : Disk) (opts : Options) : List FileEvent :=
  let id := (World.open disk opts 0 false).active.fileId
  if opts.isReadWrite then [.handOut id, .create disk.data id] else []

/-- The ids handed out, in order. -/
def handedOut (es : List FileEvent) : List FileId :=
  es.filterMap fun
    | .handOut id => some id
    | .create .. => none

theorem handedOut_append (es es' : List FileEvent) :
    handedOut (es ++ es') = handedOut es ++ handedOut es' :=
  List.filterMap_append

/-- A rotation's file events, in a directory of these names. -/
def Rotates (v : Ids) (es : List FileEvent) : Prop :=
  ∃ files : FileTable, files.names = v.names ∧ es = [.handOut v.next, .create files v.next]

/-- The file events of a method of the locked active file. -/
def activeEvents {α : Type} (m : EngineM ActiveFile IoError α) (a : ActiveFile) (w : World) :
    List FileEvent :=
  ((m a).visits performBase w).filterMap FileEvent.of

theorem activeEvents_bind {α β : Type} (m : EngineM ActiveFile IoError α)
    (f : α → EngineM ActiveFile IoError β) (a : ActiveFile) (w : World) :
    activeEvents (m >>= f) a w = activeEvents m a w ++
      match m.run performBase a w with
      | ((.ok x, a'), w') => activeEvents (f x) a' w'
      | ((.error _, _), _) => [] := by
  unfold activeEvents
  rw [Method.visits_bind, List.filterMap_append]
  rcases m.run performBase a w with ⟨⟨_ | _, _⟩, _⟩ <;> rfl

theorem activeEvents_bind_pure {α β : Type} (m : EngineM ActiveFile IoError α) (b : β)
    (a : ActiveFile) (w : World) : activeEvents (m >>= fun _ => pure b) a w = activeEvents m a w := by
  rw [activeEvents_bind]
  rcases m.run performBase a w with ⟨⟨_ | _, _⟩, _⟩ <;> exact List.append_nil _

/-- A method that draws no id and creates no file has no file events. -/
theorem activeEvents_of_leavesIds {α : Type} {m : EngineM ActiveFile IoError α} {a : ActiveFile}
    (h : Method.Only (Op.leavesIds · = true) m a) (w : World) : activeEvents m a w = [] := by
  apply List.filterMap_eq_nil_iff.mpr
  rintro ⟨w', o⟩ hx
  have ho : o.leavesIds = true := Prog.Follows.visits h _ hx
  cases o with
  | fetchAddFileId => cases ho
  | createData id => cases ho
  | _ => rfl

theorem fileEvents_withActive {α : Type} (m : EngineM ActiveFile IoError α) (w : World) :
    ((withActive m).visits performBase w).filterMap FileEvent.of = activeEvents m w.active w := by
  show ((m w.active >>= fun x => Prog.act (.setActive x.2) fun _ => .ret x.1).visits performBase
    w).filterMap FileEvent.of = _
  rw [Prog.visits_bind, List.filterMap_append]
  exact List.append_nil _

/-- The file events of a rotation. -/
theorem activeEvents_rotateActive (a : ActiveFile) (w : World) :
    Rotates w.ids (activeEvents rotateActive a w) := by
  refine ⟨(w.disk.data.modify a.fileId .flushBuf).modify a.fileId .syncData, ?_, rfl⟩
  rw [FileTable.names_modify fun f => by simp, FileTable.names_modify fun f => by simp]
  rfl

theorem activeEvents_append (encoded : EncodedEntry) (a : ActiveFile) (w : World) :
    activeEvents (ActiveFile.append encoded) a w = [] := by
  have hio : ∀ {o : Op} {f : Op.Res o → Except IoError Unit} {a : ActiveFile},
      o.leavesIds = true → Method.Only (Op.leavesIds · = true) (ioOp o f) a := fun h => only_ioOp h
  apply activeEvents_of_leavesIds
  exact .bind (.bind .get fun _ _ => .bind (hio rfl) fun _ _ => .bind .modify fun _ _ => trivial)
    fun _ _ => .bind .get fun _ _ => .bind (hio rfl) fun _ _ => trivial

/-- The file events of an append: none, or those of a rotation. -/
theorem fileEvents_append (maxFileSize : Nat) (encoded : EncodedEntry) (w : World) :
    let o : Op := .locked (.append maxFileSize encoded)
    (o.fileEvents w = [] ∧ (perform o w).2.ids = w.ids) ∨
      Rotates w.ids (o.fileEvents w) ∧ (perform o w).2.ids = w.ids.rotate := by
  have hevents : (Op.locked (.append maxFileSize encoded)).fileEvents w
      = activeEvents (appendSection maxFileSize encoded) w.active w := fileEvents_withActive _ w
  dsimp only
  rw [hevents]
  unfold appendSection
  cases h : World.tooLong w.disk.data w.active.fileId encoded.bytes with
  | true =>
    rw [activeEvents_bind, activeEvents_append, run_appendActive_tooLong _ _ h,
      perform_append_tooLong _ _ _ h]
    exact Or.inl ⟨rfl, rfl⟩
  | false =>
    rw [activeEvents_bind, activeEvents_append, run_appendActive _ _ h, perform_append _ _ _ h,
      World.appendRotate]
    by_cases hfull : (w.appended encoded.bytes).active.len ≥ maxFileSize
    · right
      rw [if_pos hfull, World.ids_rotated, World.ids_appended]
      obtain ⟨files, hfiles, hes⟩ := activeEvents_rotateActive (w.appended encoded.bytes).active
        { w.appended encoded.bytes with active := w.active }
      refine ⟨⟨files, hfiles.trans (congrArg Ids.names (w.ids_appended encoded.bytes)), ?_⟩, rfl⟩
      change activeEvents (if _ then rotateActive >>= fun _ => pure _ else pure _)
        (w.appended encoded.bytes).active { w.appended encoded.bytes with active := w.active } = _
      rw [if_pos hfull, activeEvents_bind_pure]
      exact hes
    · left
      rw [if_neg hfull, World.ids_appended]
      refine ⟨?_, rfl⟩
      change activeEvents (if _ then rotateActive >>= fun _ => pure _ else pure _)
        (w.appended encoded.bytes).active { w.appended encoded.bytes with active := w.active } = []
      rw [if_neg hfull]
      rfl

/-- The file events of `restore_active_file`: none, if the active file is newer than
    the outputs, or those of a rotation. -/
theorem fileEvents_restoreActive (h : FileId) (w : World) :
    let o : Op := .locked (.restoreActive h)
    (h < w.active.fileId ∧ o.fileEvents w = [] ∧ (perform o w).2.ids = w.ids) ∨
      Rotates w.ids (o.fileEvents w) ∧ (perform o w).2.ids = w.ids.rotate := by
  have hevents : (Op.locked (.restoreActive h)).fileEvents w
      = activeEvents (restoreSection h) w.active w := fileEvents_withActive _ w
  have hcode : activeEvents (restoreSection h) w.active w
      = if w.active.fileId ≤ h then activeEvents rotateActive w.active w else [] :=
    apply_ite (activeEvents · w.active w) _ _ _
  dsimp only
  rw [hevents, hcode, perform_restoreActive]
  by_cases hle : w.active.fileId ≤ h
  · right
    rw [if_pos hle, if_pos hle]
    exact ⟨activeEvents_rotateActive w.active w, w.ids_rotated⟩
  · left
    rw [if_neg hle, if_neg hle]
    exact ⟨Nat.lt_of_not_le hle, rfl, rfl⟩

/-! ## The invariant -/

section

variable [Crc32Fast]

/-- What a merge is to remove is older than the file that was active when it
    began, and that one is no newer than the active file. -/
structure MergeLog.RemovesOld (active : FileId) (g : MergeLog) : Prop where
  start : g.activeAtStart ≤ active
  old : ∀ f ∈ g.toRemove, f < g.activeAtStart

theorem MergeLog.start_step {g g' : MergeLog} {o : Op} {r : Op.Res o} (hR : protocol g o r g') :
    (g'.activeAtStart = g.activeAtStart ∧
        ∀ f ∈ g'.toRemove, f ∈ g.toRemove ∨ f < g.activeAtStart) ∨
      g'.toRemove = [] ∧
        (⟨o, r⟩ : Σ o, Op.Res o) = ⟨.locked .activeFileId, g'.activeAtStart⟩ := by
  unfold protocol at hR
  split at hR
  all_goals grind [init, fail, list, read, copied, flushedData, flushedHint, failFlush]

theorem MergeLog.RemovesOld.step {g g' : MergeLog} {o : Op} {w : World}
    (h : g.RemovesOld w.active.fileId) (hR : protocol g o (perform o w).1 g') :
    g'.RemovesOld w.active.fileId := by
  rcases start_step hR with ⟨hstart, hold⟩ | ⟨hnone, hread⟩
  · refine ⟨hstart ▸ h.start, fun f hf => ?_⟩
    rw [hstart]
    exact (hold f hf).elim (h.old f) id
  · obtain rfl : o = .locked .activeFileId := congrArg Sigma.fst hread
    have hactive : w.active.fileId = g'.activeAtStart := eq_of_heq (Sigma.mk.inj hread).2
    exact ⟨hactive.ge, by simp [hnone]⟩

end

/-- The ids of an engine whose threads have drawn `claims`: all below `n` are
    handed out, from `first` on by the run, and no other one names a file; the last
    of them has a file, or a thread is about to create it; the counter is at `n`;
    what a thread has drawn is its own. -/
structure IdsOk (first n : Nat) (v : Ids) (claims : Nat → Option FileId) : Prop where
  le : first ≤ n
  bound : n ≤ 2 ^ 32
  below : ∀ id, v.names id ≠ none → id < n
  last : ∀ k, n = k + 1 → v.names k = some true ∨ ∃ t, claims t = some k
  next : v.readWrite = true → v.next = wrapU32 n
  active : v.readWrite = true → v.active < n
  drawn : ∀ t id, claims t = some id → first ≤ id ∧ id < n ∧ v.names id = none
  own : ∀ t u id, claims t = some id → claims u = some id → t = u

namespace IdsOk

variable {first n : Nat} {v : Ids} {claims : Nat → Option FileId} {t : Nat} {id f : FileId}

/-- Below the bound the counter is what was handed out. -/
theorem next_eq (h : IdsOk first n v claims) (hrw : v.readWrite = true) (hn : n < 2 ^ 32) :
    v.next = n := by
  rw [h.next hrw]
  exact Nat.mod_eq_of_lt hn

theorem wrapU32_succ (hn : n < 2 ^ 32) : wrapU32 (n + 1) = wrapU32 (wrapU32 n + 1) := by
  unfold wrapU32
  rw [Nat.mod_eq_of_lt hn]

/-- A thread draws the next id. -/
theorem draw (h : IdsOk first n v claims) (hrw : v.readWrite = true) (hn : n < 2 ^ 32)
    (ht : claims t = none) : IdsOk first (n + 1) v.draw (Function.update claims t (some n)) where
  le := Nat.le_succ_of_le h.le
  bound := hn
  below id hid := Nat.lt_succ_of_lt (h.below id hid)
  last k hk := by
    right
    refine ⟨t, ?_⟩
    rw [Function.update_self]
    exact congrArg some (Nat.succ.inj hk)
  next _ := by
    show wrapU32 (v.next + 1) = _
    rw [h.next hrw, ← wrapU32_succ hn]
  active _ := Nat.lt_succ_of_lt (h.active hrw)
  drawn u id hid := by
    by_cases hu : u = t
    · subst hu
      rw [Function.update_self] at hid
      cases hid
      refine ⟨h.le, Nat.lt_succ_self n, ?_⟩
      by_contra hname
      exact lt_irrefl n (h.below n hname)
    · rw [Function.update_of_ne hu] at hid
      obtain ⟨hfirst, hlt, hname⟩ := h.drawn u id hid
      exact ⟨hfirst, Nat.lt_succ_of_lt hlt, hname⟩
  own u u' id hid hid' := by
    -- what the others have drawn is below `n`
    by_cases hu : u = t <;> by_cases hu' : u' = t
    · exact hu.trans hu'.symm
    · subst hu
      rw [Function.update_self] at hid
      rw [Function.update_of_ne hu'] at hid'
      cases hid
      exact absurd (h.drawn u' n hid').2.1 (lt_irrefl n)
    · subst hu'
      rw [Function.update_self] at hid'
      rw [Function.update_of_ne hu] at hid
      cases hid'
      exact absurd (h.drawn u n hid).2.1 (lt_irrefl n)
    · rw [Function.update_of_ne hu] at hid
      rw [Function.update_of_ne hu'] at hid'
      exact h.own u u' id hid hid'

/-- A thread creates the data file for the id it has drawn. -/
theorem create (h : IdsOk first n v claims) (ht : claims t = some id) :
    IdsOk first n (v.create id) (Function.update claims t none) where
  le := h.le
  bound := h.bound
  below id' hid' := by
    by_cases hne : id' = id
    · rw [hne]
      exact (h.drawn t id ht).2.1
    · exact h.below id' ((Function.update_of_ne hne ..).symm.trans_ne hid')
  last k hk := by
    by_cases hne : k = id
    · left
      rw [hne]
      exact Function.update_self ..
    · rcases h.last k hk with hname | ⟨u, hu⟩
      · exact Or.inl ((Function.update_of_ne hne ..).trans hname)
      · refine Or.inr ⟨u, ?_⟩
        rwa [Function.update_of_ne]
        rintro rfl
        exact hne (Option.some.inj (hu.symm.trans ht))
  next := h.next
  active := h.active
  drawn u id' hid' := by
    by_cases hu : u = t
    · subst hu
      rw [Function.update_self] at hid'
      cases hid'
    · rw [Function.update_of_ne hu] at hid'
      obtain ⟨hfirst, hlt, hname⟩ := h.drawn u id' hid'
      refine ⟨hfirst, hlt, (Function.update_of_ne ?_ ..).trans hname⟩
      rintro rfl
      exact hu (h.own u t id' hid' ht)
  own u u' id' hid hid' := by
    have hold : ∀ {u}, Function.update claims t none u = some id' → claims u = some id' := by
      intro u hu
      by_cases hut : u = t
      · rw [hut, Function.update_self] at hu
        cases hu
      · rwa [Function.update_of_ne hut] at hu
    exact h.own u u' id' (hold hid) (hold hid')

/-- A file older than the active one is removed. -/
theorem remove (h : IdsOk first n v claims) (hrw : v.readWrite = true) (hf : f < v.active) :
    IdsOk first n (v.remove f) claims := by
  by_cases hname : v.names f = some true
  · have hremove : v.remove f = { v with names := Function.update v.names f (some false) } := by
      rw [Ids.remove, if_pos hname]
    rw [hremove]
    refine ⟨h.le, h.bound, fun id hid => ?_, fun k hk => ?_, h.next, h.active, fun u id hu => ?_,
      h.own⟩
    · by_cases hne : id = f
      · rw [hne]
        exact h.below f (by rw [hname]; exact Option.some_ne_none _)
      · exact h.below id ((Function.update_of_ne hne ..).symm.trans_ne hid)
    · refine (h.last k hk).imp_left fun hk' => (Function.update_of_ne ?_ ..).trans hk'
      have := h.active hrw
      lia
    · obtain ⟨hfirst, hlt, hnone⟩ := h.drawn u id hu
      refine ⟨hfirst, hlt, (Function.update_of_ne ?_ ..).trans hnone⟩
      rintro rfl
      cases hnone.symm.trans hname
  · have hremove : v.remove f = v := by rw [Ids.remove, if_neg hname]
    rwa [hremove]

/-- The active file is replaced by one with the next id. -/
theorem rotate (h : IdsOk first n v claims) (hrw : v.readWrite = true) (hn : n < 2 ^ 32) :
    IdsOk first (n + 1) v.rotate claims := by
  have hrotate : v.rotate
      = ⟨v.readWrite, wrapU32 (n + 1), n, Function.update v.names n (some true)⟩ := by
    simp only [Ids.rotate, Ids.draw, Ids.create, h.next_eq hrw hn]
  rw [hrotate]
  refine ⟨Nat.le_succ_of_le h.le, hn, fun id hid => ?_, fun k hk => ?_, fun _ => rfl,
    fun _ => Nat.lt_succ_self n, fun u id hu => ?_, h.own⟩
  · by_cases hne : id = n
    · exact hne ▸ Nat.lt_succ_self n
    · exact Nat.lt_succ_of_lt (h.below id ((Function.update_of_ne hne ..).symm.trans_ne hid))
  · left
    rw [← Nat.succ.inj hk]
    exact Function.update_self ..
  · obtain ⟨hfirst, hlt, hnone⟩ := h.drawn u id hu
    exact ⟨hfirst, Nat.lt_succ_of_lt hlt, (Function.update_of_ne hlt.ne ..).trans hnone⟩

end IdsOk

/-! ## Pools of threads -/

/-- What the file events of a move may be, where `n` ids are handed out. -/
inductive Fresh (first n : Nat) : List FileEvent → Prop where
  | none : Fresh first n []
  | draw : Fresh first n [.handOut n]
  | create {files : FileTable} {id : FileId} (hfirst : first ≤ id) (hid : id < n)
      (hfree : files.open? id = Option.none) : Fresh first n [.create files id]
  | rotate {files : FileTable} (hfree : files.open? n = Option.none) :
      Fresh first n [.handOut n, .create files n]

variable [Crc32Fast]

/-- The ids the threads have drawn. -/
def claimsOf (γ : System.Ghosts Engine.system Engine.Ghost) (t : Nat) : Option FileId :=
  (γ t).bind (·.ghost.claim)

structure PoolIds (first n : Nat) (w : World) (γ : System.Ghosts Engine.system Engine.Ghost) :
    Prop where
  ids : IdsOk first n w.ids (claimsOf γ)
  mode : ∀ t l, γ t = some l → l.ghost.readWrite = w.opts.isReadWrite
  old : ∀ t l, γ t = some l → l.ghost.log.RemovesOld w.active.fileId

section Act

variable {first n n' : Nat} {w w' : World} {γ : System.Ghosts Engine.system Engine.Ghost} {t : Nat}
  {l : System.Local Engine.system Engine.Ghost} {c : Call} {j : Journal} {g : Engine.Ghost}

theorem claimsOf_update (l? : Option (System.Local Engine.system Engine.Ghost)) :
    claimsOf (Function.update γ t l?) = Function.update (claimsOf γ) t (l?.bind (·.ghost.claim)) :=
  Function.comp_update (fun l? : Option (System.Local Engine.system Engine.Ghost) =>
    l?.bind (·.ghost.claim)) γ t l?

theorem claimsOf_update_same (hl : γ t = some l) (hclaim : g.claim = l.ghost.claim) :
    claimsOf (Function.update γ t (some ⟨c, j, g⟩)) = claimsOf γ := by
  rw [claimsOf_update]
  apply Function.update_eq_self_iff.mpr
  show g.claim = claimsOf γ t
  rw [hclaim, claimsOf, hl]
  rfl

/-- One thread moves on. -/
theorem PoolIds.moved (h : PoolIds first n w γ) (hl : γ t = some l)
    (hids : IdsOk first n' w'.ids (claimsOf (Function.update γ t (some ⟨c, j, g⟩))))
    (hopts : w'.opts.isReadWrite = w.opts.isReadWrite)
    (hactive : w.active.fileId ≤ w'.active.fileId) (hmode : g.readWrite = l.ghost.readWrite)
    (hlog : g.log.RemovesOld w.active.fileId) :
    PoolIds first n' w' (Function.update γ t (some ⟨c, j, g⟩)) where
  ids := hids
  mode u l' hl' := by
    by_cases hu : u = t
    · subst hu
      rw [Function.update_self] at hl'
      cases hl'
      rw [hopts, ← h.mode u l hl]
      exact hmode
    · rw [Function.update_of_ne hu] at hl'
      rw [hopts]
      exact h.mode u l' hl'
  old u l' hl' := by
    by_cases hu : u = t
    · subst hu
      rw [Function.update_self] at hl'
      cases hl'
      exact ⟨hlog.start.trans hactive, hlog.old⟩
    · rw [Function.update_of_ne hu] at hl'
      have hold := h.old u l' hl'
      exact ⟨hold.start.trans hactive, hold.old⟩

theorem callProtocol_removeData {g g' : MergeLog} {f : FileId} {r : Except IoError Unit}
    (h : Engine.callProtocol c j g (.removeData f) r g') : f ∈ g.toRemove := by
  cases c with
  | merge =>
    obtain ⟨-, rest, hrest, -⟩ := h
    rw [hrest]
    exact List.mem_cons_self
  | get key =>
    obtain ⟨⟨entry, -, hreads⟩, -⟩ := h
    exact hreads.elim
  | fold =>
    obtain ⟨⟨pairs, -, p, -, hreads⟩, -⟩ := h
    exact hreads.elim
  | _ => exact h.1.elim

theorem callProtocol_removesOld {g g' : MergeLog} {o : Op} (h : g.RemovesOld w.active.fileId)
    (hR : Engine.callProtocol c j g o (perform o w).1 g') : g'.RemovesOld w.active.fileId := by
  by_cases hc : c = .merge
  · subst hc
    exact h.step hR
  · rw [((Engine.callProtocol_of_ne hc).mp hR).2]
    exact h

theorem not_callProtocol_setActive {g g' : MergeLog} {a : ActiveFile} {r : Unit} :
    ¬ Engine.callProtocol c j g (.setActive a) r g' := by
  intro h
  cases c with
  | merge => exact h
  | get key =>
    obtain ⟨⟨entry, -, hreads⟩, -⟩ := h
    exact hreads
  | fold =>
    obtain ⟨⟨pairs, -, p, -, hreads⟩, -⟩ := h
    exact hreads
  | _ => exact h.1

omit [Crc32Fast] in
/-- An operation that draws an id or creates a file is the one its thread is to
    perform next. -/
theorem claimProtocol_leavesIds {o : Op} {r : Op.Res o} {claim claim' : Option FileId}
    (h : claimProtocol claim o r claim') (ho : o.leavesIds = true) : claim = none ∧ claim' = none := by
  cases claim with
  | none =>
    cases o with
    | fetchAddFileId | createData id => cases ho
    | _ => exact ⟨rfl, h.2⟩
  | some id =>
    cases o with
    | createData id => cases ho
    | _ => exact h.elim

/-- A section that may rotate the active file. -/
theorem PoolIds.rotates (h : PoolIds first n w γ) (hrw : w.opts.isReadWrite = true)
    (hclaims : claimsOf (Function.update γ t (some ⟨c, j, g⟩)) = claimsOf γ) {es : List FileEvent}
    (hes : (es = [] ∧ w'.ids = w.ids) ∨ Rotates w.ids es ∧ w'.ids = w.ids.rotate)
    (hn : n + (handedOut es).length ≤ 2 ^ 32) :
    Fresh first n es ∧
      IdsOk first (n + (handedOut es).length) w'.ids
        (claimsOf (Function.update γ t (some ⟨c, j, g⟩))) ∧
      w.active.fileId ≤ w'.active.fileId := by
  rw [hclaims]
  rcases hes with ⟨rfl, hids⟩ | ⟨⟨files, hfiles, rfl⟩, hids⟩
  · refine ⟨.none, ?_, (congrArg Ids.active hids).ge⟩
    rw [hids]
    exact h.ids
  · have hlt : n < 2 ^ 32 := hn
    have hnext := h.ids.next_eq hrw hlt
    have hactive : w'.active.fileId = n := (congrArg Ids.active hids).trans hnext
    rw [hnext, hids]
    refine ⟨.rotate (FileTable.open?_eq_none.mpr fun hname => ?_), h.ids.rotate hrw hlt, ?_⟩
    · rw [hfiles] at hname
      exact absurd (h.ids.below n (by rw [hname]; exact Option.some_ne_none _)) (lt_irrefl n)
    · rw [hactive]
      exact (h.ids.active hrw).le

/-- A thread performs an operation. -/
theorem PoolIds.act (h : PoolIds first n w γ) (hl : γ t = some l) {o : Op}
    (hR : Engine.rules.step l.call l.journal l.ghost o (perform o w).1 g)
    (hn : n + (handedOut (o.fileEvents w)).length ≤ 2 ^ 32) :
    Fresh first n (o.fileEvents w) ∧ w.active.fileId ≤ (perform o w).2.active.fileId ∧
      PoolIds first (n + (handedOut (o.fileEvents w)).length) (perform o w).2
        (Function.update γ t (some ⟨l.call, j, g⟩)) := by
  obtain ⟨hmode, hreads, hcall, hclaim⟩ := hR
  have hlog := callProtocol_removesOld (h.old t l hl) hcall
  have hafter := ids_perform w o
  have hrw : o.isReads = false → w.opts.isReadWrite = true := by
    intro ho
    rw [← h.mode t l hl]
    by_contra hro
    rw [hreads (Bool.not_eq_true _ ▸ hro)] at ho
    cases ho
  -- an operation that does nothing to ids and files
  have hquiet : o.leavesIds = true → o.fileEvents w = [] → (perform o w).2.ids = w.ids →
      Fresh first n (o.fileEvents w) ∧ w.active.fileId ≤ (perform o w).2.active.fileId ∧
        PoolIds first (n + (handedOut (o.fileEvents w)).length) (perform o w).2
          (Function.update γ t (some ⟨l.call, j, g⟩)) := by
    intro ho hes hids
    obtain ⟨hnone, hnone'⟩ := claimProtocol_leavesIds hclaim ho
    have hactive : w.active.fileId ≤ (perform o w).2.active.fileId := (congrArg Ids.active hids).ge
    rw [hes]
    refine ⟨.none, hactive, h.moved hl ?_ (congrArg Ids.readWrite hids) hactive hmode hlog⟩
    rw [claimsOf_update_same hl (hnone'.trans hnone.symm), hids]
    exact h.ids
  -- a section that may rotate
  have hsection : o.leavesIds = true → o.isReads = false →
      ((o.fileEvents w = [] ∧ (perform o w).2.ids = w.ids) ∨
        Rotates w.ids (o.fileEvents w) ∧ (perform o w).2.ids = w.ids.rotate) →
      Fresh first n (o.fileEvents w) ∧ w.active.fileId ≤ (perform o w).2.active.fileId ∧
        PoolIds first (n + (handedOut (o.fileEvents w)).length) (perform o w).2
          (Function.update γ t (some ⟨l.call, j, g⟩)) := by
    intro ho hwrites hes
    obtain ⟨hnone, hnone'⟩ := claimProtocol_leavesIds hclaim ho
    have hclaims := claimsOf_update_same (c := l.call) (j := j) hl (hnone'.trans hnone.symm)
    obtain ⟨hfresh, hids, hactive⟩ := h.rotates (hrw hwrites) hclaims hes hn
    have hopts : (perform o w).2.opts.isReadWrite = w.opts.isReadWrite := by
      rcases hes with ⟨-, hids⟩ | ⟨-, hids⟩ <;> exact congrArg Ids.readWrite hids
    exact ⟨hfresh, hactive, h.moved hl hids hopts hactive hmode hlog⟩
  cases o with
  | fetchAddFileId =>
    have hwrite := hrw rfl
    have hlt : n < 2 ^ 32 := hn
    have hnext : w.nextFileId = n := h.ids.next_eq hwrite hlt
    have hes : Op.fetchAddFileId.fileEvents w = [.handOut n] := by
      rw [← hnext]
      rfl
    cases hc : l.ghost.claim with
    | some id =>
      rw [hc] at hclaim
      exact hclaim.elim
    | none =>
      rw [hc] at hclaim
      have hg : g.claim = some n := hclaim.trans (congrArg some hnext)
      rw [hes]
      refine ⟨.draw, le_refl _, h.moved hl ?_ rfl (le_refl _) hmode hlog⟩
      rw [claimsOf_update, Option.bind_some, hg]
      apply h.ids.draw hwrite hlt
      rw [claimsOf, hl]
      exact hc
  | createData id =>
    cases hc : l.ghost.claim with
    | none =>
      rw [hc] at hclaim
      cases hclaim.1
    | some id' =>
      rw [hc] at hclaim
      obtain ⟨rfl, hg⟩ := hclaim
      have ht : claimsOf γ t = some id := by
        rw [claimsOf, hl]
        exact hc
      obtain ⟨hfirst, hlt, hname⟩ := h.ids.drawn t id ht
      have hfree : w.disk.data.open? id = none := by
        rw [FileTable.open?_eq_none]
        show w.ids.names id ≠ some true
        rw [hname]
        exact (Option.some_ne_none _).symm
      have hids : (perform (.createData id) w).2.ids = w.ids.create id := hafter
      refine ⟨.create hfirst hlt hfree, le_refl _, h.moved hl ?_ rfl (le_refl _) hmode hlog⟩
      rw [claimsOf_update, Option.bind_some, hg, hids]
      exact h.ids.create ht
  | removeData f =>
    obtain ⟨hnone, hnone'⟩ := claimProtocol_leavesIds hclaim rfl
    have hold := (h.old t l hl).old f (callProtocol_removeData hcall)
    have hf : f < w.active.fileId := lt_of_lt_of_le hold (h.old t l hl).start
    have hids : (perform (.removeData f) w).2.ids = w.ids.remove f := hafter
    have hactive : w.active.fileId ≤ (perform (.removeData f) w).2.active.fileId :=
      (congrArg Ids.active hids).ge
    refine ⟨.none, hactive, h.moved hl ?_ (congrArg Ids.readWrite hids) hactive hmode hlog⟩
    rw [claimsOf_update_same hl (hnone'.trans hnone.symm), hids]
    exact h.ids.remove (hrw rfl) hf
  | setActive a => exact (not_callProtocol_setActive hcall).elim
  | locked s =>
    cases s with
    | activeFileId => exact hquiet rfl rfl hafter
    | append maxFileSize encoded => exact hsection rfl rfl (fileEvents_append maxFileSize encoded w)
    | restoreActive highest => 
      exact hsection rfl rfl ((fileEvents_restoreActive highest w).imp_left And.right)
  | _ => exact hquiet rfl rfl hafter

end Act

/-! ### Opening -/

section Opening

variable {first n : Nat} {disk : Disk} {opts : Options} {allotted : Nat} {refused : Bool}

omit [Crc32Fast] in
/-- The next id follows the greatest one listed. -/
theorem nextId_of_names (hbelow : ∀ id, disk.data.names id ≠ none → id < n)
    (hlast : ∀ k, n = k + 1 → disk.data.names k = some true) : disk.nextId = wrapU32 n := by
  unfold Disk.nextId
  cases hl : disk.data.discover.getLast? with
  | none =>
    cases n with
    | zero => rfl
    | succ k =>
      have hmem := FileTable.mem_discover_iff.mpr (hlast k rfl)
      rw [List.getLast?_eq_none_iff.mp hl] at hmem
      cases hmem
  | some last =>
    have hname := FileTable.mem_discover_iff.mp (List.mem_of_getLast? hl)
    have hlt := hbelow last (by rw [hname]; exact Option.some_ne_none _)
    cases n with
    | zero => cases hlt
    | succ k =>
      have hle := FileTable.le_getLast hl (FileTable.mem_discover_iff.mpr (hlast k rfl))
      show wrapU32 (last + 1) = wrapU32 (k + 1)
      rw [Nat.le_antisymm (Nat.le_of_lt_succ hlt) hle]

theorem active_open : (World.open disk opts allotted refused).active.fileId = disk.nextId := by
  unfold World.open
  split <;> rfl

theorem openEvents_eq : openEvents disk opts
    = if opts.isReadWrite then [.handOut disk.nextId, .create disk.data disk.nextId] else [] := by
  unfold openEvents
  rw [active_open]

theorem PoolIds.idle {w : World} (h : IdsOk first n w.ids fun _ => none) :
    PoolIds first n w fun _ => none :=
  ⟨h, fun _ _ hl => (by cases hl), fun _ _ hl => (by cases hl)⟩

/-- An engine just opened, for writing or for reading only. -/
theorem PoolIds.opened (hfirst : first ≤ n) (hbelow : ∀ id, disk.data.names id ≠ none → id < n)
    (hlast : ∀ k, n = k + 1 → disk.data.names k = some true)
    (hn : n + (handedOut (openEvents disk opts)).length ≤ 2 ^ 32) :
    Fresh first n (openEvents disk opts) ∧
      PoolIds first (n + (handedOut (openEvents disk opts)).length)
        (World.open disk opts allotted refused) fun _ => none := by
  have hnext := nextId_of_names hbelow hlast
  rw [openEvents_eq] at hn ⊢
  cases hrw : opts.isReadWrite with
  | false =>
    have hopen : (World.open disk opts allotted refused).ids
        = ⟨false, wrapU32 (disk.nextId + 1), disk.nextId, disk.data.names⟩ := by
      unfold World.open
      simp only [hrw]
      exact congrArg (Ids.mk · _ _ _) hrw
    rw [hrw] at hn
    refine ⟨.none, .idle ?_⟩
    rw [hopen]
    exact ⟨hfirst, hn, hbelow, fun k hk => Or.inl (hlast k hk), fun h => (by cases h),
      fun h => (by cases h), fun _ _ h => (by cases h), fun _ _ _ h => (by cases h)⟩
  | true =>
    rw [hrw] at hn
    have hlt : n < 2 ^ 32 := hn
    have hn' : disk.nextId = n := hnext.trans (Nat.mod_eq_of_lt hlt)
    have hopen : (World.open disk opts allotted refused).ids
        = ⟨true, wrapU32 (n + 1), n, Function.update disk.data.names n (some true)⟩ := by
      rw [open_eq hrw]
      show Ids.mk _ _ _ (disk.data.create disk.nextId).names = _
      rw [FileTable.names_create, hn']
      exact congrArg (Ids.mk · _ _ _) hrw
    have hnone : disk.data.names n = none := by
      by_contra hname
      exact lt_irrefl n (hbelow n hname)
    rw [hn']
    have hfree : disk.data.open? n = none := by
      rw [FileTable.open?_eq_none, hnone]
      exact (Option.some_ne_none _).symm
    refine ⟨.rotate hfree, .idle ?_⟩
    rw [hopen]
    refine ⟨Nat.le_succ_of_le hfirst, hlt, fun id hid => ?_, fun k hk => Or.inl ?_, fun _ => rfl,
      fun _ => Nat.lt_succ_self n, fun _ _ h => (by cases h), fun _ _ _ h => (by cases h)⟩
    · by_cases hne : id = n
      · exact hne ▸ Nat.lt_succ_self n
      · exact Nat.lt_succ_of_lt (hbelow id ((Function.update_of_ne hne ..).symm.trans_ne hid))
    · rw [← Nat.succ.inj hk]
      exact Function.update_self ..

end Opening

/-! ### Moves -/

/-- Moves without I/O faults; a directory is opened again only while no call is
    in progress. -/
def Calm (cfg : Engine.system.Config) : Engine.system.Move → Prop
  | .fault .. => False
  | .restart _ => cfg.inFlight = []
  | _ => True

instance (cfg : Engine.system.Config) (m : Engine.system.Move) : Decidable (Calm cfg m) :=
  match m with
  | .fault .. => inferInstanceAs (Decidable False)
  | .restart _ => inferInstanceAs (Decidable (cfg.inFlight = []))
  | .call .. => inferInstanceAs (Decidable True)
  | .step _ => inferInstanceAs (Decidable True)

/-- The file events of a move. -/
def moveEvents (cfg : Engine.system.Config) : Engine.system.Move → List FileEvent
  | .step t =>
    match (cfg.threads.lookup t).bind (·.next?) with
    | some o => o.fileEvents cfg.world
    | none => []
  | .restart r => openEvents (cfg.world.crash r) r.opts
  | _ => []

section Moves

variable {first n : Nat} {w : World} {γ γ' : System.Ghosts Engine.system Engine.Ghost}
  {cfg : Engine.system.Config} {m : Engine.system.Move}

/-- A call begins or returns. -/
theorem PoolIds.threads (h : PoolIds first n w γ) (hclaims : claimsOf γ' = claimsOf γ)
    (hthreads : ∀ u l, γ' u = some l → γ u = some l ∨
      l.ghost.readWrite = w.opts.isReadWrite ∧ l.ghost.log = .init) : PoolIds first n w γ' where
  ids := hclaims ▸ h.ids
  mode u l hl := (hthreads u l hl).elim (h.mode u l) And.left
  old u l hl := by
    rcases hthreads u l hl with hl | ⟨-, hinit⟩
    · exact h.old u l hl
    · rw [hinit]
      exact ⟨Nat.zero_le _, fun f hf => by cases hf⟩

/-- Every move hands out the next id, if any, and creates files that are not there. -/
theorem PoolIds.move (h : PoolIds first n cfg.world γ) (hkeeps : cfg.Keeps Engine.rules γ)
    (hcalm : Calm cfg m) (hm : cfg.Ghosted Engine.rules γ m w γ')
    (hn : n + (handedOut (moveEvents cfg m)).length ≤ 2 ^ 32) :
    Fresh first n (moveEvents cfg m) ∧
      PoolIds first (n + (handedOut (moveEvents cfg m)).length) w γ' := by
  cases hm with
  | @call t c ht =>
    refine ⟨.none, h.threads ?_ fun u l hl => ?_⟩
    · rw [claimsOf_update]
      apply Function.update_eq_self_iff.mpr
      rw [claimsOf, ht]
      rfl
    · by_cases hu : u = t
      · rw [hu, Function.update_self] at hl
        cases hl
        exact Or.inr ⟨rfl, rfl⟩
      · rw [Function.update_of_ne hu] at hl
        exact Or.inl hl
  | @ret t th l r ht hp hl hend =>
    have hes : moveEvents cfg (.step t) = [] := by
      simp [moveEvents, ht, System.Thread.next?, hp]
    rw [hes]
    refine ⟨.none, h.threads ?_ fun u l hl => ?_⟩
    · rw [claimsOf_update]
      apply Function.update_eq_self_iff.mpr
      rw [claimsOf, hl]
      exact hend.2.symm
    · by_cases hu : u = t
      · rw [hu, Function.update_self] at hl
        cases hl
      · rw [Function.update_of_ne hu] at hl
        exact Or.inl hl
  | @act t th l o k g ht hp hl hR =>
    have hes : moveEvents cfg (.step t) = o.fileEvents cfg.world := by
      simp [moveEvents, ht, System.Thread.next?, hp]
    rw [hes] at hn ⊢
    obtain ⟨hfresh, -, hids⟩ := h.act hl hR hn
    exact ⟨hfresh, hids⟩
  | fault => exact hcalm.elim
  | @restart r w hr =>
    have hcalm : cfg.inFlight = [] := hcalm
    rw [hcalm] at hr
    obtain rfl : World.open (cfg.world.crash r) r.opts cfg.world.allotted cfg.world.refused = w :=
      Option.some.inj hr
    have hnames := FileTable.names_cut cfg.world.disk.data r.keepData
    refine PoolIds.opened h.ids.le (fun id hid => h.ids.below id ?_) (fun k hk => ?_) hn
    · rintro hnone
      apply hid
      rw [show (cfg.world.crash r).data.names id = _ from hnames id]
      rw [show cfg.world.disk.data.names id = none from hnone]
      rfl
    · rw [show (cfg.world.crash r).data.names k = _ from hnames k]
      rcases h.ids.last k hk with hname | ⟨t, ht⟩
      · exact if_pos hname
      · -- no call is in progress, so nothing is drawn and unused
        obtain ⟨l, hl, hclaim⟩ := Option.bind_eq_some_iff.mp ht
        obtain ⟨r, -, hnone⟩ := hkeeps.ended hcalm hl
        cases hclaim.symm.trans hnone

end Moves

end Yabiir
