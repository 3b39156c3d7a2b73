/-
  Yabiir.Beside

  A read-only engine beside a writer on one directory.  The reader recovers a
  keydir of its own when it is opened, and opens files when it first reads from
  them; the writer's files only grow, so a get answers what it would have
  answered at the start, unless a merge removed the file first (`reads_beside`).
-/

import Yabiir.Alone
import Yabiir.Compaction
import Yabiir.Invariant.Calls

namespace Yabiir

open Format

/-! ## Files that are not too long -/

/-- No file of the directory is longer than a file can be. -/
def Directory.Short (d : Directory) : Prop :=
  ∀ id bytes, d.data.lookup id = some bytes → bytes.length ≤ maxFileLen

/-- No data file is, or is about to be, longer than a file can be. -/
def World.Short (w : World) : Prop :=
  ∀ id data, w.disk.data.lookup id = some data → data.logical.length ≤ maxFileLen

section

variable {w w' : World} {id : FileId}

theorem World.Short.of_eq (h : w.Short) (hdata : w'.disk.data = w.disk.data) : w'.Short := by
  unfold World.Short
  rw [hdata]
  exact h

theorem World.Short.modifyData (h : w.Short) {f : FileState → FileState}
    (hf : ∀ data, w.disk.data.lookup id = some data → (f data).logical.length ≤ maxFileLen) :
    (w.modifyData id f).Short := by
  intro id' data hl
  have hlookup := FileTable.lookup_modify w.disk.data id id' f
  rw [World.modifyData, hlookup] at hl
  split at hl
  · obtain ⟨data', hl', rfl⟩ := Option.map_eq_some_iff.mp hl
    exact hf data' hl'
  · exact h id' data hl

theorem World.Short.createData (h : w.Short) : (w.createData id).2.Short := by
  intro id' data hl
  have hl' : (w.disk.data.create id).lookup id' = some data := hl
  by_cases hid : id' = id
  · rw [hid] at hl'
    unfold FileTable.create at hl'
    split at hl'
    · rename_i f hf
      split at hl' <;> rw [AList.lookup_insert] at hl' <;> cases hl'
      · have hle := h id f hf
        simp only [FileState.logical, List.length_append, List.length_nil] at hle ⊢
        omega
      · simp
    · rw [AList.lookup_insert] at hl'
      cases hl'
      simp
  · rw [FileTable.lookup_create_of_ne _ hid] at hl'
    exact h id' data hl'

theorem World.Short.performBase (h : w.Short) (o : Op) : (performBase o w).2.Short := by
  cases o with
  | createData id => exact h.createData
  | writeData id bytes =>
    simp only [Yabiir.performBase]
    split
    · exact h.of_eq rfl
    · rename_i hlong
      apply h.modifyData
      intro data hl
      rw [FileState.logical_writeAll, List.length_append]
      simpa [World.tooLong, hl] using hlong
  | flushData id | syncData id =>
    apply h.modifyData
    intro data hl
    simpa using h id data hl
  | removeData id =>
    simp only [Yabiir.performBase]
    split
    · exact h
    · apply h.modifyData
      intro data hl
      simpa using h id data hl
  | commit generation =>
    simp only [Yabiir.performBase]
    split
    · exact h
    · have hsynced : w.activeSynced.Short := by
        apply h.modifyData
        intro data hl
        simpa using h w.active.fileId data hl
      exact hsynced.of_eq rfl
  | writeHint | readFile | removeHint =>
    simp only [Yabiir.performBase]
    split <;> exact h.of_eq rfl
  | openReader id =>
    simp only [Yabiir.performBase]
    split
    · exact h
    · split <;> exact h.of_eq rfl
  | locked s => cases s <;> exact h.of_eq rfl
  | _ => exact h.of_eq rfl

theorem World.Short.perform (h : w.Short) (o : Op) : (perform o w).2.Short := by
  cases o with
  | locked s =>
    exact Prog.exec_keeps (P := World.Short) (fun o w h => h.performBase o) s.code h
  | _ => exact h.performBase _

end

/-! ## The writer -/

/-- Calls made one after the other. -/
def World.calls [Crc32Fast] (w : World) (cs : List Call) : World :=
  cs.foldl (fun w c => (w.call c).2) w

/-- Data files stay, and only grow, and stay removed once removed. -/
def World.Grows (w w' : World) : Prop :=
  ∀ id data, w.disk.data.lookup id = some data → ∃ data', w'.disk.data.lookup id = some data' ∧
    data.content <+: data'.content ∧ (data.linked = false → data'.linked = false)

section

variable {w w' w'' : World} {id : FileId}

theorem World.Grows.refl (w : World) : w.Grows w :=
  fun _ data hl => ⟨data, hl, List.prefix_rfl, fun h => h⟩

theorem World.Grows.trans (h : w.Grows w') (h' : w'.Grows w'') : w.Grows w'' := by
  intro id data hl
  obtain ⟨data', hl', hfront, hlinked⟩ := h id data hl
  obtain ⟨data'', hl'', hfront', hlinked'⟩ := h' id data' hl'
  exact ⟨data'', hl'', hfront.trans hfront', fun h => hlinked' (hlinked h)⟩

theorem World.Grows.holds (h : w.Grows w') {entry : KeydirEntry} {value : Bytes}
    (hlinked : w.Linked entry.fileId) (hholds : w.Holds entry value) : w'.Holds entry value := by
  obtain ⟨data, hopen⟩ := hlinked
  obtain ⟨hl, -⟩ := open?_eq_some.mp hopen
  obtain ⟨data', hl', hfront, -⟩ := h _ data hl
  apply hholds.grows
  rw [contentOf_of_lookup hl, contentOf_of_lookup hl']
  exact hfront

/-- A file that is removed stays removed. -/
theorem World.Grows.not_linked (h : w.Grows w') {data : FileState}
    (hl : w.disk.data.lookup id = some data) (hn : ¬ w.Linked id) : ¬ w'.Linked id := by
  obtain ⟨data', hl', -, hlinked⟩ := h id data hl
  rintro ⟨data'', hopen⟩
  obtain ⟨hl'', hlinked''⟩ := open?_eq_some.mp hopen
  cases hl'.symm.trans hl''
  have hunlinked : data.linked = false := by
    cases hd : data.linked with
    | false => rfl
    | true => exact absurd ⟨data, open?_eq_some.mpr ⟨hl, hd⟩⟩ hn
  exact Bool.false_ne_true ((hlinked hunlinked).symm.trans hlinked'')

end

section

variable [Crc32Fast] {w w' : World} {own X : FileId → Prop}

theorem Evolves.onlyGrows (h : Evolves X w w') (hfiles : FilesOk False own w) : w.Grows w' := by
  intro id data hl
  have hgrows := h.grows id (hfiles.lt_of_lookup hl)
  obtain ⟨data', hl', hlinked⟩ := h.stays id data hl
  rw [contentOf_of_lookup hl, contentOf_of_lookup hl'] at hgrows
  refine ⟨data', hl', hgrows, fun hd => ?_⟩
  rcases hlinked with heq | ⟨hd', -⟩
  · exact heq.trans hd
  · exact hd'

/-- Where nothing is asked of the bytes, nobody need own a file. -/
theorem FilesOk.disown (h : FilesOk False own w) : FilesOk False (fun _ => False) w :=
  { h with
    own_lt := fun _ hid => hid.elim
    own_ne := fun _ hid => hid.elim
    sealed_ := fun ht => ht.elim
    hint_lt := fun ht => ht.elim }

/-- What is left of a call, in the world it goes on in. -/
inductive Busy (w : World) (p : Prog Op Op.Res Resp) : Prop where
  | call {c : Call} {j : Journal}
      (hfollows : p.Follows (Prog.Journal.protocol c.rule) (fun _ _ => True) j)
      (hfiles : FilesOk False (fun _ => False) w) : Busy w p
  | merge {g : MergeLog} {own : FileId → Prop}
      (hfollows : p.Follows MergeLog.protocol (fun _ _ => True) g) (hwork : AtWork False own g w) :
      Busy w p

theorem Busy.files {p : Prog Op Op.Res Resp} (h : Busy w p) : FilesOk False (fun _ => False) w := by
  cases h with
  | call _ hfiles => exact hfiles
  | merge _ hwork => exact hwork.files.disown

theorem Busy.start (h : FilesOk False (fun _ => False) w) (opts : Options) (c : Call) :
    Busy w (Engine.code opts c) := by
  by_cases hc : c = .merge
  · subst hc
    exact .merge ((Engine.merge_follows opts).mono fun _ _ _ => trivial) (atWork_init h)
  · exact .call ((Engine.code_follows opts hc).mono fun _ _ _ => trivial) h

theorem Busy.idle (h : FilesOk False (fun _ => False) w) (r : Resp) : Busy w (.ret r) :=
  .call (c := .listKeys) (j := []) trivial h

theorem Busy.step {o : Op} {k : Op.Res o → Prog Op Op.Res Resp} (h : Busy w (.act o k))
    (hids : (perform o w).2.allotted < 2 ^ 32) :
    Busy (perform o w).2 (k (perform o w).1) ∧ w.Grows (perform o w).2 := by
  cases h with
  | call hfollows hfiles =>
    obtain ⟨j', ⟨hrule, -⟩, hk⟩ := hfollows (perform o w).1
    obtain ⟨hfiles', hE⟩ := hfiles.call (X := fun _ => False) (rule_isCalls hrule)
      (fun _ _ _ ht => ht.elim) hids
    exact ⟨.call hk hfiles', hE.onlyGrows hfiles⟩
  | merge hfollows hwork =>
    obtain ⟨g', hR, hk⟩ := hfollows (perform o w).1
    obtain ⟨hwork', hE⟩ := hwork.step hR (Or.inl rfl) hids
    exact ⟨.merge hk hwork', hE.onlyGrows hwork.files⟩

/-- A call made alone. -/
theorem Busy.exec {p : Prog Op Op.Res Resp} (h : Busy w p)
    (hids : (p.exec perform w).2.allotted < 2 ^ 32) :
    FilesOk False (fun _ => False) (p.exec perform w).2 := by
  induction p generalizing w with
  | ret r => exact h.files
  | act o k ih => exact ih _ (h.step ((allotted_le_exec _ _).trans_lt hids)).1 hids

theorem allotted_calls (w : World) (cs : List Call) : w.allotted ≤ (w.calls cs).allotted := by
  unfold World.calls
  refine List.foldlRecOn (motive := fun w' : World => w.allotted ≤ w'.allotted) cs _ le_rfl
    fun w' h c _ => ?_
  exact h.trans (allotted_le_exec _ _)

theorem filesOk_calls {cs : List Call} (h : FilesOk False (fun _ => False) w)
    (hids : (w.calls cs).allotted < 2 ^ 32) : FilesOk False (fun _ => False) (w.calls cs) := by
  induction cs generalizing w with
  | nil => exact h
  | cons c cs ih =>
    exact ih ((Busy.start h w.opts c).exec ((allotted_calls _ cs).trans_lt hids)) hids

theorem short_calls (cs : List Call) (h : w.Short) : (w.calls cs).Short := by
  unfold World.calls
  refine List.foldlRecOn (motive := World.Short) cs _ h fun w' h c _ => ?_
  exact Prog.exec_keeps (P := World.Short) (fun o w h => h.perform o) _ h

end

/-! ## Both -/

/-- A writer with what is left of its call, and a read-only engine on the same
    directory. -/
structure Beside where
  writer : World
  prog : Prog Op Op.Res Resp
  reader : World

namespace Beside

variable [Crc32Fast]

/-- What the reader acts on: its own keydir and handles, the writer's directory. -/
def seen (s : Beside) : World := { s.reader with disk := s.writer.disk }

/-- A reader just opened, the writer between two calls. -/
def opened (w : World) (opts : Options) : Beside :=
  ⟨w, .ret (.unit (.ok ())), .open w.disk opts w.allotted w.refused⟩

/-- The writer starts a call, or performs the next operation of its call. -/
inductive Moves (s : Beside) : Beside → Prop where
  | call {r : Resp} (hidle : s.prog = .ret r) (c : Call) :
      Moves s { s with prog := Engine.code s.writer.opts c }
  | act {o : Op} {k : Op.Res o → Prog Op Op.Res Resp} (hprog : s.prog = .act o k) :
      Moves s { s with writer := (perform o s.writer).2, prog := k (perform o s.writer).1 }

/-- The writer moves any number of times, then the reader performs an operation. -/
def Reads (o : Op) (s : Beside) (r : Op.Res o) (s' : Beside) : Prop :=
  ∃ s₁, Relation.ReflTransGen Moves s s₁ ∧ r = (perform o s₁.seen).1 ∧
    s' = { s₁ with reader := (perform o s₁.seen).2 }

/-- A get on the reader from `s` that answers `r` in `s'`, the writer going on
    meanwhile. -/
def Gets (s : Beside) (key : Bytes) (r : Resp) (s' : Beside) : Prop :=
  (Engine.code s.reader.opts (.get key)).Runs Reads s r s'

/-- Where moves of the writer and gets on the reader lead. -/
inductive Reaches (s₀ : Beside) : Beside → Prop where
  | refl : Reaches s₀ s₀
  | move {s s' : Beside} (h : Reaches s₀ s) (hm : Moves s s') : Reaches s₀ s'
  | get {s s' : Beside} {key : Bytes} {r : Resp} (h : Reaches s₀ s) (hget : s.Gets key r s') :
      Reaches s₀ s'

end Beside

namespace Beside

section

variable [Crc32Fast] {s₀ s s' : Beside} {key : Bytes} {r : Resp}

/-- What holds of both once the reader is open: the writer's files are those of
    then, perhaps longer or removed, and the reader has its keydir. -/
structure Ok (s₀ s : Beside) : Prop where
  busy : Busy s.writer s.prog
  grows : s₀.writer.Grows s.writer
  keydir : s.reader.keydir = s₀.reader.keydir

theorem Ok.moves (h : Ok s₀ s) (hm : Moves s s') (hids : s'.writer.allotted < 2 ^ 32) :
    Ok s₀ s' := by
  cases hm with
  | call hidle c => exact ⟨.start h.busy.files _ c, h.grows, h.keydir⟩
  | act hprog =>
    obtain ⟨hbusy, hgrows⟩ := (hprog ▸ h.busy).step hids
    exact ⟨hbusy, h.grows.trans hgrows, h.keydir⟩

omit [Crc32Fast] in
theorem allotted_perform (o : Op) (w : World) : w.allotted ≤ (perform o w).2.allotted :=
  (Outcome.allotted (Or.inl rfl : Outcome o w (perform o w).1 (perform o w).2)).2

theorem Moves.allotted (hm : Moves s s') : s.writer.allotted ≤ s'.writer.allotted := by
  cases hm with
  | call => exact le_rfl
  | act => exact allotted_perform _ _

theorem Ok.rtc (h : Ok s₀ s) (hm : Relation.ReflTransGen Moves s s')
    (hids : s'.writer.allotted < 2 ^ 32) : Ok s₀ s' ∧ s.writer.Grows s'.writer := by
  induction hm with
  | refl => exact ⟨h, .refl _⟩
  | tail _ hm ih =>
    obtain ⟨hok, hgrows⟩ := ih (hm.allotted.trans_lt hids)
    refine ⟨hok.moves hm hids, hgrows.trans ?_⟩
    cases hm with
    | call => exact .refl _
    | act hprog => exact ((hprog ▸ hok.busy).step hids).2

theorem Ok.read (h : Ok s₀ s) (reader : World) (hkeydir : reader.keydir = s.reader.keydir) :
    Ok s₀ { s with reader } :=
  ⟨h.busy, h.grows, hkeydir.trans h.keydir⟩

theorem reader_eq (hm : Relation.ReflTransGen Moves s s') : s'.reader = s.reader := by
  induction hm with
  | refl => rfl
  | tail _ hm ih =>
    rw [← ih]
    cases hm <;> rfl

theorem allotted_le (hm : Relation.ReflTransGen Moves s s') :
    s.writer.allotted ≤ s'.writer.allotted := by
  induction hm with
  | refl => exact le_rfl
  | tail _ hm ih => exact ih.trans hm.allotted

/-- A get of a key the reader has no entry for. -/
theorem Ok.gets_none (h : Ok s₀ s) (hkd : s₀.reader.keydir.get key = none) (hget : s.Gets key r s')
    (hids : s'.writer.allotted < 2 ^ 32) : Ok s₀ s' ∧ r = .value (.ok none) := by
  unfold Gets at hget
  rw [get_prog] at hget
  cases hget with
  | act hentry hrest =>
    obtain ⟨s₁, hm, rfl, rfl⟩ := hentry
    have hnone : (perform (.keydirGet key) s₁.seen).1 = none := by
      show s₁.reader.keydir.get key = none
      rw [reader_eq hm, h.keydir, hkd]
    rw [hnone] at hrest
    cases hrest with
    | ret => exact ⟨(h.rtc hm hids).1.read _ rfl, rfl⟩

/-- A get of a key the reader has an entry for: the value is there, or the file
    is not. -/
theorem Ok.gets_some (h : Ok s₀ s) {entry : KeydirEntry} {value : Bytes}
    (hkd : s₀.reader.keydir.get key = some entry) (hlinked : s₀.writer.Linked entry.fileId)
    (hholds : s₀.writer.Holds entry value) (hget : s.Gets key r s')
    (hids : s'.writer.allotted < 2 ^ 32) :
    Ok s₀ s' ∧ (r = .value (.ok (some value)) ∨
      r = .value (.error (.io .notFound)) ∧ entry.fileId ∉ s.reader.readers ∧
        ¬ s'.writer.Linked entry.fileId) := by
  unfold Gets at hget
  rw [get_prog] at hget
  cases hget with
  | act hentry hrest =>
    obtain ⟨s₁, hm₁, rfl, rfl⟩ := hentry
    have hsome : (perform (.keydirGet key) s₁.seen).1 = some entry := by
      show s₁.reader.keydir.get key = some entry
      rw [reader_eq hm₁, h.keydir, hkd]
    rw [hsome] at hrest
    cases hrest with
    | act hopen hrest =>
      obtain ⟨s₂, hm₂, rfl, rfl⟩ := hopen
      obtain ⟨readers, -, hw, hr⟩ := perform_openReader s₂.seen entry.fileId
      rw [hw] at hrest
      rcases hr with ⟨hr, -⟩ | ⟨hr, hopens⟩
      · rw [hr] at hrest
        cases hrest with
        | act hpread hrest =>
          obtain ⟨s₃, hm₃, rfl, rfl⟩ := hpread
          have hids₃ : s₃.writer.allotted < 2 ^ 32 := by
            cases hv : (perform (.pread entry.fileId entry.valuePos entry.valueSize) s₃.seen).1 <;>
              rw [hv] at hrest <;> cases hrest <;> exact hids
          have hids₂ := (allotted_le hm₃).trans_lt hids₃
          have h₁ := (h.rtc hm₁ ((allotted_le hm₂).trans_lt hids₂)).1.read s₁.seen rfl
          have h₂ := (h₁.rtc hm₂ hids₂).1.read { s₂.seen with readers } rfl
          have h₃ := (h₂.rtc hm₃ hids₃).1
          have hv : (perform (.pread entry.fileId entry.valuePos entry.valueSize) s₃.seen).1
              = .ok value := h₃.grows.holds hlinked hholds
          rw [hv] at hrest
          cases hrest with
          | ret => exact ⟨h₃.read _ rfl, Or.inl rfl⟩
      · rw [hr] at hrest
        cases hrest with
        | ret =>
          have h₁ := (h.rtc hm₁ ((allotted_le hm₂).trans_lt hids)).1.read s₁.seen rfl
          have h₂ := (h₁.rtc hm₂ hids).1.read { s₂.seen with readers } rfl
          refine ⟨h₂, Or.inr ⟨rfl, fun hcached => hopens (Or.inl ?_), fun hl => hopens (Or.inr hl)⟩⟩
          show entry.fileId ∈ s₂.reader.readers
          rw [reader_eq hm₂]
          show entry.fileId ∈ s₁.reader.readers
          rwa [reader_eq hm₁]

theorem runs_allotted {α : Type} {p : Prog Op Op.Res α} {a : α} (h : p.Runs Reads s a s') :
    s.writer.allotted ≤ s'.writer.allotted := by
  induction h with
  | ret => exact le_rfl
  | act ho _ ih =>
    obtain ⟨s₁, hm, -, rfl⟩ := ho
    exact (allotted_le hm).trans ih

theorem Reaches.allotted (h : Reaches s₀ s) : s₀.writer.allotted ≤ s.writer.allotted := by
  induction h with
  | refl => exact le_rfl
  | move _ hm ih => exact ih.trans hm.allotted
  | get _ hget ih => exact ih.trans (runs_allotted hget)

/-- Every entry of the reader's points at a value. -/
def Readable (s : Beside) : Prop :=
  ∀ key entry, s.reader.keydir.get key = some entry →
    s.writer.Linked entry.fileId ∧ ∃ value, s.writer.Holds entry value

theorem Ok.reaches (h₀ : Ok s₀ s₀) (hread : Readable s₀) (h : Reaches s₀ s)
    (hids : s.writer.allotted < 2 ^ 32) : Ok s₀ s := by
  induction h with
  | refl => exact h₀
  | move _ hm ih => exact (ih (hm.allotted.trans_lt hids)).moves hm hids
  | @get s s' key r _ hget ih =>
    have hok := ih ((runs_allotted hget).trans_lt hids)
    cases hkd : s₀.reader.keydir.get key with
    | none => exact (hok.gets_none hkd hget hids).1
    | some entry =>
      obtain ⟨hlinked, value, hholds⟩ := hread key entry hkd
      exact (hok.gets_some hkd hlinked hholds hget hids).1

omit [Crc32Fast] in
theorem contentOf_of_open {w : World} {id : FileId} {data : FileState}
    (h : w.disk.data.open? id = some data) :
    ((w.disk.data.open? id).map FileState.content).getD [] = w.contentOf id := by
  obtain ⟨hl, -⟩ := open?_eq_some.mp h
  rw [h, contentOf_of_lookup hl]
  rfl

/-- A reader just opened finds a value for each of its keys. -/
theorem readable_opened {w : World} (hshort : w.Short) {opts : Options}
    (hro : opts.isReadWrite = false) : Readable (opened w opts) := by
  intro key entry hkd
  have hopen : (opened w opts).reader.keydir = recover w.disk w.disk.data.discover ∅ := by
    show (World.open w.disk opts w.allotted w.refused).keydir = _
    unfold World.open
    simp [hro]
  rw [hopen] at hkd
  obtain ⟨id, hid, hop⟩ := mem_of_recover hkd
  obtain ⟨f, hl, hlinked⟩ := (FileTable.mem_discover _ _).mp hid
  have hfile : w.disk.data.open? id = some f := open?_eq_some.mpr ⟨hl, hlinked⟩
  obtain ⟨rfl, hle⟩ := fileOps_some hop
  refine ⟨⟨f, hfile⟩, ?_⟩
  rw [contentOf_of_open hfile] at hle
  have hlen : (w.contentOf entry.fileId).length ≤ maxFileLen := by
    rw [contentOf_of_lookup hl]
    have := hshort _ f hl
    rw [FileState.logical, List.length_append] at this
    omega
  have hin : entry.valuePos + entry.valueSize ≤ (w.contentOf entry.fileId).length := by
    simp only [maxFileLen] at hlen
    omega
  exact ⟨_, if_pos (Or.inr hin)⟩

end

end Beside

section

variable [Crc32Fast] {key : Bytes}

theorem Directory.Short.open {d : Directory} (h : d.Short) {opts : Options}
    (hrw : opts.isReadWrite = true) : (d.open opts).Short := by
  have hdisk : ({ d.open opts with disk := d.disk } : World).Short := by
    intro id data hl
    have hl' : (d.data.lookup id).map FileState.ofBytes = some data :=
      (FileTable.lookup_ofBytes d.data id).symm.trans hl
    obtain ⟨bytes, hb, rfl⟩ := Option.map_eq_some_iff.mp hl'
    simpa [FileState.ofBytes, FileState.logical] using h id bytes hb
  have hopen : d.open opts = _ := open_eq hrw
  have hcreated : World.Short (World.createData _ d.disk.nextId).2 := hdisk.createData
  exact hcreated.of_eq (by rw [hopen]; rfl)

end

/-! ## A merge before the first get -/

namespace Beside

variable [Crc32Fast] {s₀ s : Beside}

/-- The reader undisturbed, the writer's call run to its end. -/
def afterCall (s : Beside) (c : Call) : Beside :=
  { s with writer := (s.writer.call c).2, prog := .ret (s.writer.call c).1 }

theorem Reaches.exec {p : Prog Op Op.Res Resp} (h : Reaches s₀ { s with prog := p }) :
    Reaches s₀
      { s with writer := (p.exec perform s.writer).2, prog := .ret (p.exec perform s.writer).1 } := by
  induction p generalizing s with
  | ret r => exact h
  | act o k ih =>
    have hact : Reaches s₀ { s with
        writer := (perform o s.writer).2, prog := k (perform o s.writer).1 } := h.move (.act rfl)
    exact ih _ (s := { s with writer := (perform o s.writer).2 }) hact

theorem Reaches.afterCall (h : Reaches s₀ s) {r : Resp} (hidle : s.prog = .ret r) (c : Call) :
    Reaches s₀ (s.afterCall c) :=
  Reaches.exec (h.move (.call hidle c))

/-- A get that finds no file. -/
theorem gets_notFound {key : Bytes} (entry : KeydirEntry)
    (hkd : s.reader.keydir.get key = some entry) (hcached : entry.fileId ∉ s.reader.readers)
    (hnone : s.writer.disk.data.open? entry.fileId = none) :
    s.Gets key (.value (.error (.io .notFound))) { s with reader := s.seen } := by
  have hopen : perform (.openReader entry.fileId) s.seen = (.error .notFound, s.seen) := by
    simp [perform, performBase, seen, hcached, hnone]
  have hget : perform (.keydirGet key) s.seen = (some entry, s.seen) := congrArg (·, s.seen) hkd
  unfold Gets
  rw [get_prog]
  have hlook : Reads (.keydirGet key) s (some entry) { s with reader := s.seen } :=
    ⟨s, .refl, by rw [hget], by rw [hget]⟩
  have hmiss : Reads (.openReader entry.fileId) { s with reader := s.seen } (.error .notFound)
      { s with reader := s.seen } := by
    refine ⟨{ s with reader := s.seen }, .refl, ?_, ?_⟩
    · exact (congrArg Prod.fst hopen).symm
    · exact congrArg (fun x => { s with reader := x.2 }) hopen.symm
  exact .act hlook (.act hmiss (.ret _ _))

end Beside

/-- A reader just opened beside a writer, on a directory with one record. -/
def openedBeside [Crc32Fast] : Beside :=
  .opened (((hintedDirectory intactRecord).open readWrite).calls []) ⟨false, false, 1000⟩

/-- The same once the writer has merged. -/
def mergedBeside [Crc32Fast] : Beside := openedBeside.afterCall .merge

theorem reaches_mergedBeside [Crc32Fast] : openedBeside.Reaches mergedBeside :=
  Beside.Reaches.refl.afterCall rfl .merge

theorem mergedBeside_gets : letI := ieee
    mergedBeside.Gets [1] (.value (.error (.io .notFound)))
      { mergedBeside with reader := mergedBeside.seen } :=
  letI := ieee
  Beside.gets_notFound ⟨0, 1, 17, 7⟩ (by decide +kernel) (by decide +kernel)
    (by decide +kernel)

theorem short_hintedDirectory [Crc32Fast] {data : Bytes} (h : data.length ≤ maxFileLen) :
    (hintedDirectory data).Short := by
  intro id bytes hl
  have hl' : (AList.singleton (β := fun _ => Bytes) 0 data).lookup id = some bytes := hl
  rw [← AList.insert_empty] at hl'
  by_cases hid : id = 0
  · rw [hid, AList.lookup_insert] at hl'
    cases hl'
    exact h
  · rw [AList.lookup_insert_ne hid] at hl'
    simp at hl'

end Yabiir
