/-
  Yabiir.Invariant.Values

  What becomes of a key's value during a merge.  The keydir points at the value
  in some file; if that file is an input, the entry is still to be copied
  (`MergeLog.Awaits`), and by the time inputs are removed the keydir points at a
  copy.
-/

import Yabiir.Invariant.Quiet

namespace Yabiir

open Format

variable [Crc32Fast]

/-! ## Values in files -/

namespace World

variable (w : World)

/-- A scan of its file finds `entry`, under the key `key`. -/
def Scans (key : Bytes) (entry : KeydirEntry) : Prop :=
  (key, some entry) ∈ (readAllEntries (w.contentOf entry.fileId)).map (entryOp entry.fileId)

instance (key : Bytes) (entry : KeydirEntry) : Decidable (w.Scans key entry) :=
  inferInstanceAs (Decidable (_ ∈ _))

end World

section

variable {w w' : World} {key value : Bytes} {entry : KeydirEntry}

omit [Crc32Fast] in
theorem preadExact_front {content content' : Bytes} (h : content <+: content') {pos len : Nat}
    (hread : preadExact content pos len = .ok value) : preadExact content' pos len = .ok value := by
  obtain ⟨tail, rfl⟩ := h
  unfold preadExact at hread ⊢
  split at hread
  · rename_i hle
    rw [if_pos (by simp; omega), ← hread]
    congr 1
    rcases hle with rfl | hle
    · simp
    · rw [List.drop_append_of_le_length (by omega), List.take_append_of_le_length (by simp; omega)]
  · cases hread

omit [Crc32Fast] in
/-- Files that grow keep their values. -/
theorem World.Holds.grows (h : w.Holds entry value)
    (hgrows : w.contentOf entry.fileId <+: w'.contentOf entry.fileId) : w'.Holds entry value :=
  preadExact_front hgrows h

omit [Crc32Fast] in
theorem World.Holds.unique {value' : Bytes} (h : w.Holds entry value) (h' : w.Holds entry value') :
    value = value' :=
  Except.ok.inj (h.symm.trans h')

theorem World.Scans.grows (h : w.Scans key entry)
    (hgrows : w.contentOf entry.fileId <+: w'.contentOf entry.fileId) : w'.Scans key entry :=
  ((readAllEntries_front hgrows).map _).subset h

omit [Crc32Fast] in
/-- What a scan finds in a part of a file is there to be read. -/
theorem Found.holds {bytes : Bytes} {p : Nat × Entry} (h : Found bytes p) {f : FileId}
    (hfront : bytes <+: w.contentOf f) : w.Holds (keydirEntryOf f p.1 p.2) p.2.value := by
  have hread : preadExact bytes (valuePosOf p.1 p.2) p.2.header.valueSize = .ok p.2.value := by
    rw [preadExact, if_pos (Or.inr h.le), h.value]
  exact preadExact_front hfront hread

/-- An entry that a scan finds, at its place in the file. -/
theorem World.scans_iff : w.Scans key entry ↔
    ∃ p ∈ readAllEntries (w.contentOf entry.fileId), p.2.isTombstone = false ∧ p.2.key = key ∧
      keydirEntryOf entry.fileId p.1 p.2 = entry := by
  simp [World.Scans, List.mem_map, entryOp_eq_some]

end

/-! ## What operations read -/

omit [Crc32Fast] in
theorem Outcome.readFile {w w' : World} {f : FileId} {bytes : Bytes}
    (hO : Outcome (.readFile f) w (.ok bytes) w') : bytes = w.contentOf f := by
  rcases hO with hO | ⟨f, hO⟩
  · simp only [perform, performBase] at hO
    split at hO
    · cases hO
    · rename_i data hopen
      cases hO
      exact (contentOf_of_lookup (open?_eq_some.mp hopen).1).symm
  · cases hO

omit [Crc32Fast] in
theorem Outcome.keydirIsLive {w w' : World} {key : Bytes} {f : FileId} {pos : Nat} {live : Bool}
    (hO : Outcome (.keydirIsLive key f pos) w live w') :
    live = (w.keydir.get key).any fun kd => kd.fileId == f && kd.valuePos == pos := by
  rcases hO with hO | ⟨f, hO⟩
  · exact (congrArg Prod.fst hO).symm
  · cases hO

/-! ## Where the copies come from -/

namespace MergeLog

variable {g g' : MergeLog} {x : FileId × Nat × Entry}

theorem FromInput.mono (h : g.FromInput x) (hreads : g.reads <+: g'.reads) : g'.FromInput x := by
  obtain ⟨bytes, hread, hmem⟩ := h
  exact ⟨bytes, hreads.subset hread, hmem⟩

theorem sourced_init : init.Sourced := by
  constructor <;> simp [init]

/-- A step that changes the outputs at most, and no copies. -/
theorem Sourced.outsChanged (h : g.Sourced) {outs : List Output}
    (hids : ({ g with outs := outs } : MergeLog).ids = g.ids)
    (hcopies : ∀ o ∈ outs, ∀ c ∈ o.copies, ∃ o ∈ g.outs, c ∈ o.copies) :
    ({ g with outs := outs } : MergeLog).Sourced := by
  refine { h with copies := fun o ho c hc => ?_, apart := fun f hf => ?_ }
  · obtain ⟨o', ho', hc'⟩ := hcopies o ho c hc
    exact h.copies o' ho' c hc'
  · rw [hids]
    exact h.apart f hf

theorem Sourced.fail (h : g.Sourced) : g.fail.Sourced := { h with }

theorem Sourced.list (h : g.Sourced) (hs : g.Sound) (hinputs : g.inputs = []) (hids : g.ids = [])
    (ids : List FileId) : (g.list ids).Sourced := by
  refine ⟨h.todo, h.checked, h.copies, fun f _ => ?_, fun f hf => ?_, fun _ hf => Or.inl hf⟩
  · have hids' : (g.list ids).ids = [] := hids
    rw [hids']
    exact List.not_mem_nil
  · have hf' := hs.removed f hf
    rw [hinputs] at hf'
    cases hf'

theorem Sourced.read (h : g.Sourced) {f : FileId} {rest : List FileId}
    (hunread : g.unread = f :: rest) (hchecked : g.checked = none) (bytes : Bytes) :
    (g.read f rest bytes).Sourced := by
  refine ⟨fun x hx => ?_, fun x hx => ?_, fun o ho c hc => ?_, h.apart, fun f' hf' => ?_, h.due⟩
  · obtain ⟨p, hp, rfl⟩ := List.mem_map.mp hx
    obtain ⟨hp, hlive⟩ := List.mem_filter.mp hp
    exact ⟨bytes, List.mem_append_right _ List.mem_cons_self, hp, by simpa using hlive⟩
  · cases hchecked.symm.trans hx
  · exact (h.copies o ho c hc).mono (List.prefix_append ..)
  · cases hunread.symm.trans (h.done f' hf').1

theorem Sourced.copied (h : g.Sourced) {o : Output} {outs : List Output}
    (houts : g.outs = o :: outs) (hx : g.checked = some x) : (g.copied o outs x).Sourced := by
  have hids : (g.copied o outs x).ids = g.ids := by
    simp [ids, MergeLog.copied, houts, Output.push]
  refine ⟨h.todo, fun y hy => (by cases hy), fun o' ho' c hc => ?_, fun f hf => ?_, fun f hf => ?_,
    h.due⟩
  · rcases List.mem_cons.mp ho' with rfl | ho'
    · rcases List.mem_append.mp hc with hc | hc
      · exact h.copies o (houts ▸ List.mem_cons_self) c hc
      · cases List.mem_singleton.mp hc
        exact h.checked x hx
    · exact h.copies o' (houts ▸ List.mem_cons_of_mem _ ho') c hc
  · rw [hids]
    exact h.apart f hf
  · cases hx.symm.trans (h.done f hf).2.2.1

/-- Claiming an id that is no input. -/
theorem Sourced.claim (h : g.Sourced) (hclaimed : g.claimed = none) {id : FileId}
    (hid : id ∉ g.inputs) : ({ g with claimed := some id } : MergeLog).Sourced := by
  refine ⟨h.todo, h.checked, h.copies, fun f hf hmem => ?_, h.done, h.due⟩
  have hids : ({ g with claimed := some id } : MergeLog).ids = id :: g.ids := by
    simp [ids, hclaimed]
  rw [hids] at hmem
  rcases List.mem_cons.mp hmem with rfl | hmem
  · exact hid hf
  · exact h.apart f hf hmem

/-- Opening an output under the id claimed. -/
theorem Sourced.opened (h : g.Sourced) {id : FileId} (hclaimed : g.claimed = some id) (base : Nat) :
    ({ g with claimed := none, outs := .opened id base :: g.outs } : MergeLog).Sourced := by
  refine ⟨h.todo, h.checked, fun o ho c hc => ?_, fun f hf => ?_, h.done, h.due⟩
  · rcases List.mem_cons.mp ho with rfl | ho
    · cases hc
    · exact h.copies o ho c hc
  · have hids : ({ g with claimed := none, outs := .opened id base :: g.outs } : MergeLog).ids
        = g.ids := by simp [ids, hclaimed, Output.opened]
    rw [hids]
    exact h.apart f hf

/-- Changing the current output, its copies apart. -/
theorem Sourced.setCurrent (h : g.Sourced) {o o' : Output} {outs : List Output}
    (houts : g.outs = o :: outs) (hid : o'.id = o.id) (hcopies : o'.copies = o.copies) :
    ({ g with outs := o' :: outs } : MergeLog).Sourced := by
  apply h.outsChanged
  · simp [ids, houts, hid]
  · intro x hx c hc
    rcases List.mem_cons.mp hx with rfl | hx
    · exact ⟨o, houts ▸ List.mem_cons_self, hcopies ▸ hc⟩
    · exact ⟨x, houts ▸ List.mem_cons_of_mem _ hx, hc⟩

/-- Marking outputs as flushed. -/
theorem Sourced.mapOuts (h : g.Sourced) {f : Output → Output} (hid : ∀ o, (f o).id = o.id)
    (hcopies : ∀ o, (f o).copies = o.copies) :
    ({ g with outs := g.outs.map f } : MergeLog).Sourced := by
  apply h.outsChanged
  · simp only [ids, List.map_map]
    congr 1
    exact List.map_congr_left fun o _ => hid o
  · intro x hx c hc
    obtain ⟨o, ho, rfl⟩ := List.mem_map.mp hx
    exact ⟨o, ho, hcopies o ▸ hc⟩

/-- Every step keeps it, an id claimed being no input. -/
theorem Sourced.step (h : g.Sourced) (hs : g.Sound) {op : Op} {r : Op.Res op}
    (hR : protocol g op r g') (hnew : ∀ id ∈ g'.ids, id ∉ g.ids → id ∉ g.inputs) :
    g'.Sourced := by
  cases op with
  | locked s =>
    cases s with
    | append => exact hR.elim
    | activeFileId =>
      obtain ⟨rfl, rfl⟩ := hR
      exact { h with }
    | restoreActive highest =>
      obtain ⟨-, -, -, rfl⟩ := hR
      cases r with
      | ok _ => exact { h with }
      | error e => exact h.fail
  | discover =>
    obtain ⟨hinputs, hids, rfl⟩ := hR
    cases r with
    | ok ids => exact h.list hs hinputs hids ids
    | error e => exact h.fail
  | fetchAddFileId =>
    obtain ⟨hclaimed, -, -, rfl⟩ := hR
    by_cases hmem : r ∈ g.ids
    · exact h.claim hclaimed fun hin => h.apart r hin hmem
    · exact h.claim hclaimed (hnew r (by simp [ids]) hmem)
  | createData id =>
    obtain ⟨hclaimed, -, rfl⟩ := hR
    cases r with
    | error e => exact h.fail
    | ok base => exact h.opened hclaimed base
  | createHint id =>
    obtain ⟨o, outs, houts, -, -, rfl⟩ := hR
    cases r with
    | error e => exact h.fail
    | ok _ => exact h.setCurrent houts rfl rfl
  | writeData id bytes =>
    obtain ⟨o, outs, x, houts, -, hx, -, -, -, rfl⟩ := hR
    cases r with
    | error e =>
      apply Sourced.fail
      exact h.setCurrent houts rfl rfl
    | ok _ => exact h.copied houts hx
  | writeHint id bytes =>
    obtain ⟨o, outs, houts, -, -, o', ho', rfl⟩ := hR
    cases r with
    | error e =>
      apply Sourced.fail
      exact h.setCurrent houts rfl rfl
    | ok _ =>
      rcases ho' with ⟨-, -, -, rfl⟩ | ⟨-, -, -, rfl⟩
      · exact h.setCurrent houts rfl rfl
      · exact h.setCurrent houts rfl rfl
  | flushData id =>
    obtain ⟨-, rfl⟩ := hR
    cases r with
    | error e => exact { h with }
    | ok _ => apply h.mapOuts <;> intro o <;> split <;> rfl
  | flushHint id =>
    obtain ⟨-, rfl⟩ := hR
    cases r with
    | error e => exact { h with }
    | ok _ => apply h.mapOuts <;> intro o <;> split <;> rfl
  | syncData id =>
    obtain ⟨-, rfl⟩ := hR
    cases r with
    | error e => exact h.fail
    | ok _ => exact h
  | readFile f =>
    obtain ⟨rest, hunread, -, hchecked, rfl⟩ := hR
    cases r with
    | error e => exact h.fail
    | ok bytes => exact h.read hunread hchecked bytes
  | keydirIsLive key f valuePos =>
    obtain ⟨pos, entry, rest, htodo, -, -, -, rfl⟩ := hR
    refine { h with todo := fun x hx => ?_, checked := fun x hx => ?_, done := fun f' hf' => ?_ }
    · exact h.todo x (htodo ▸ List.mem_cons_of_mem _ hx)
    · dsimp only at hx
      split at hx
      · cases hx
        exact h.todo _ (htodo ▸ List.mem_cons_self)
      · cases hx
    · cases htodo.symm.trans (h.done f' hf').2.1
  | keydirCasRepoint key old new =>
    obtain ⟨c, rest, hpending, -, -, -, -, rfl⟩ := hR
    refine { h with done := fun f hf => ?_ }
    cases hpending.symm.trans (h.done f hf).2.2.2
  | removeData f =>
    obtain ⟨hsettled, rest, hremove, rfl⟩ := hR
    refine { h with
      done := fun _ _ => ⟨hsettled.unread, hsettled.todo, hsettled.checked, hsettled.pending⟩
      due := fun f' hf' => ?_ }
    rcases h.due f' hf' with hmem | hmem
    · rw [hremove] at hmem
      rcases List.mem_cons.mp hmem with rfl | hmem
      · exact Or.inr List.mem_cons_self
      · exact Or.inl hmem
    · exact Or.inr (List.mem_cons_of_mem _ hmem)
  | removeHint f =>
    obtain ⟨-, rfl⟩ := hR
    exact h
  | forget f =>
    obtain ⟨-, rfl⟩ := hR
    exact h
  | _ => exact hR.elim

/-! ## Entries still to be copied -/

/-- If `entry` points into an input, that input is still to be read, or the
    entry is still to be checked, copied or repointed. -/
def Awaits (g : MergeLog) (key : Bytes) (entry : KeydirEntry) : Prop :=
  entry.fileId ∈ g.inputs →
    entry.fileId ∈ g.unread ∨
    (∃ x, (x ∈ g.todo ∨ g.checked = some x) ∧ x.2.2.key = key ∧
      keydirEntryOf x.1 x.2.1 x.2.2 = entry) ∨
    ∃ c ∈ g.pending, c.entry.key = key ∧ c.old = entry

variable {key : Bytes} {entry : KeydirEntry} {w w' : World}

omit [Crc32Fast] in
theorem awaits_init : init.Awaits key entry := fun hf => by cases hf

omit [Crc32Fast] in
/-- A step that leaves the inputs and the lists of work alone. -/
theorem Awaits.congr (h : g.Awaits key entry) (hinputs : g'.inputs = g.inputs)
    (hunread : g'.unread = g.unread) (htodo : g'.todo = g.todo) (hchecked : g'.checked = g.checked)
    (hpending : g'.pending = g.pending) : g'.Awaits key entry := by
  unfold Awaits
  rw [hinputs, hunread, htodo, hchecked, hpending]
  exact h

omit [Crc32Fast] in
/-- Once inputs are being removed, no entry that was awaited points into one. -/
theorem Awaits.settled (h : g.Awaits key entry) (hs : g.Settled) : entry.fileId ∉ g.inputs := by
  intro hf
  rcases h hf with hmem | ⟨x, hx, -⟩ | ⟨c, hc, -⟩
  · rw [hs.unread] at hmem
    cases hmem
  · rcases hx with hx | hx
    · rw [hs.todo] at hx
      cases hx
    · cases hs.checked.symm.trans hx
  · rw [hs.pending] at hc
    cases hc

/-- Reading an input finds the entries that point into it. -/
theorem Awaits.read (h : g.Awaits key entry) {f : FileId} {rest : List FileId}
    (hunread : g.unread = f :: rest) (htodo : g.todo = []) (hchecked : g.checked = none)
    (hscan : w.Scans key entry) : (g.read f rest (w.contentOf f)).Awaits key entry := by
  intro hf
  rcases h hf with hmem | ⟨x, hx, -⟩ | hpending
  · rw [hunread] at hmem
    rcases List.mem_cons.mp hmem with heq | hmem
    · obtain ⟨p, hp, hlive, hkey, hentry⟩ := World.scans_iff.mp hscan
      right; left
      refine ⟨(f, p.1, p.2), Or.inl (List.mem_map.mpr ⟨p, ?_, rfl⟩), hkey, heq ▸ hentry⟩
      rw [heq] at hp
      exact List.mem_filter.mpr ⟨hp, by simpa using hlive⟩
    · exact Or.inl hmem
  · rcases hx with hx | hx
    · rw [htodo] at hx
      cases hx
    · cases hchecked.symm.trans hx
  · exact Or.inr (Or.inr hpending)

omit [Crc32Fast] in
/-- The liveness check of an entry: it is found live if the keydir has it. -/
theorem Awaits.check (h : g.Awaits key entry) {x : FileId × Nat × Entry}
    {rest : List (FileId × Nat × Entry)} (htodo : g.todo = x :: rest) (hchecked : g.checked = none)
    {live : Bool} (hlive : x.2.2.key = key → keydirEntryOf x.1 x.2.1 x.2.2 = entry → live = true) :
    ({ g with todo := rest, checked := if live then some x else none } : MergeLog).Awaits key
      entry := by
  intro hf
  rcases h hf with hmem | ⟨y, hy, hkey, hentry⟩ | hpending
  · exact Or.inl hmem
  · rcases hy with hy | hy
    · rw [htodo] at hy
      rcases List.mem_cons.mp hy with rfl | hy
      · exact Or.inr (Or.inl ⟨y, Or.inr (if_pos (hlive hkey hentry)), hkey, hentry⟩)
      · exact Or.inr (Or.inl ⟨y, Or.inl hy, hkey, hentry⟩)
    · cases hchecked.symm.trans hy
  · exact Or.inr (Or.inr hpending)

/-- The copying of the entry checked. -/
theorem Awaits.copied (h : g.Awaits key entry) {o : Output} {outs : List Output}
    (hx : g.checked = some x) : (g.copied o outs x).Awaits key entry := by
  intro hf
  rcases h hf with hmem | ⟨y, hy, hkey, hentry⟩ | ⟨c, hc, hkey, hentry⟩
  · exact Or.inl hmem
  · rcases hy with hy | hy
    · exact Or.inr (Or.inl ⟨y, Or.inl hy, hkey, hentry⟩)
    · cases hx.symm.trans hy
      exact Or.inr (Or.inr ⟨copyTo o x, List.mem_append_right _ List.mem_cons_self, hkey, hentry⟩)
  · exact Or.inr (Or.inr ⟨c, List.mem_append_left _ hc, hkey, hentry⟩)

omit [Crc32Fast] in
/-- A repoint of some other entry. -/
theorem Awaits.repointed (h : g.Awaits key entry) {c : Copy} {rest : List Copy}
    (hpending : g.pending = c :: rest) (hne : c.entry.key = key → c.old ≠ entry) :
    ({ g with pending := rest } : MergeLog).Awaits key entry := by
  intro hf
  rcases h hf with hmem | htodo | ⟨y, hy, hkey, hentry⟩
  · exact Or.inl hmem
  · exact Or.inr (Or.inl htodo)
  · rw [hpending] at hy
    rcases List.mem_cons.mp hy with rfl | hy
    · exact absurd hentry (hne hkey)
    · exact Or.inr (Or.inr ⟨y, hy, hkey, hentry⟩)

/-- An entry in the keydir or about to be: every step of the merge still awaits
    it, but its own repoint and a check that comes before it is in the keydir. -/
theorem Awaits.step (h : g.Awaits key entry) {op : Op} {r : Op.Res op} (hR : protocol g op r g')
    (hO : Outcome op w r w') (hscan : w.Scans key entry)
    (hlive : op = .keydirIsLive key entry.fileId entry.valuePos → w.keydir.get key = some entry)
    (hcas : ∀ new, op ≠ .keydirCasRepoint key entry new) : g'.Awaits key entry := by
  cases op with
  | locked s =>
    cases s with
    | append => exact hR.elim
    | activeFileId =>
      obtain ⟨rfl, rfl⟩ := hR
      exact fun hf => by cases hf
    | restoreActive highest =>
      obtain ⟨-, -, -, rfl⟩ := hR
      cases r <;> exact h.congr rfl rfl rfl rfl rfl
  | discover =>
    obtain ⟨-, -, rfl⟩ := hR
    cases r with
    | ok ids => exact fun hf => Or.inl hf
    | error e => exact h.congr rfl rfl rfl rfl rfl
  | fetchAddFileId =>
    obtain ⟨-, -, -, rfl⟩ := hR
    exact h.congr rfl rfl rfl rfl rfl
  | createData id =>
    obtain ⟨-, -, rfl⟩ := hR
    cases r <;> exact h.congr rfl rfl rfl rfl rfl
  | createHint id =>
    obtain ⟨o, outs, -, -, -, rfl⟩ := hR
    cases r <;> exact h.congr rfl rfl rfl rfl rfl
  | writeData id bytes =>
    obtain ⟨o, outs, x, -, -, hx, -, -, -, rfl⟩ := hR
    cases r with
    | ok _ => exact h.copied hx
    | error e => exact h.congr rfl rfl rfl rfl rfl
  | writeHint id bytes =>
    obtain ⟨o, outs, -, -, -, o', -, rfl⟩ := hR
    cases r <;> exact h.congr rfl rfl rfl rfl rfl
  | flushData id =>
    obtain ⟨-, rfl⟩ := hR
    cases r <;> exact h.congr rfl rfl rfl rfl rfl
  | flushHint id =>
    obtain ⟨-, rfl⟩ := hR
    cases r <;> exact h.congr rfl rfl rfl rfl rfl
  | syncData id =>
    obtain ⟨-, rfl⟩ := hR
    cases r <;> exact h.congr rfl rfl rfl rfl rfl
  | readFile f =>
    obtain ⟨rest, hunread, htodo, hchecked, rfl⟩ := hR
    cases r with
    | error e => exact h.congr rfl rfl rfl rfl rfl
    | ok bytes =>
      obtain rfl := hO.readFile
      exact h.read hunread htodo hchecked hscan
  | keydirIsLive key' f valuePos =>
    obtain ⟨pos, e, rest, htodo, rfl, rfl, hchecked, rfl⟩ := hR
    apply h.check htodo hchecked
    rintro rfl rfl
    rw [hO.keydirIsLive, hlive rfl]
    simp [keydirEntryOf]
  | keydirCasRepoint key' old new =>
    obtain ⟨c, rest, hpending, rfl, rfl, rfl, -, rfl⟩ := hR
    apply h.repointed hpending
    rintro rfl rfl
    exact hcas c.new rfl
  | removeData f =>
    obtain ⟨-, rest, -, rfl⟩ := hR
    exact h.congr rfl rfl rfl rfl rfl
  | removeHint f =>
    obtain ⟨-, rfl⟩ := hR
    exact h
  | forget f =>
    obtain ⟨-, rfl⟩ := hR
    exact h
  | _ => exact hR.elim

end MergeLog

/-! ## A value through a merge -/

section

variable {tidy : Prop} {own : FileId → Prop} {g g' : MergeLog} {w w' : World} {key value : Bytes}
  {entry : KeydirEntry}

/-- A flushed copy is where its keydir entry says. -/
theorem OutputOk.copied {o : Output} (h : OutputOk tidy o w) (hflushed : o.dataFlushed = true)
    {c : Copy} (hc : c ∈ o.copies) :
    c.dst = o.id ∧ w.Scans c.entry.key c.new ∧ w.Holds c.new c.entry.value := by
  obtain ⟨data, hl, hok⟩ := h.data
  obtain ⟨junk, hlogical, -, -⟩ := hok.wrote
  obtain ⟨hsound, hdst⟩ := h.sound.copies c hc
  have hfront : o.data <+: w.contentOf c.dst := by
    rw [hdst, contentOf_of_lookup hl, FileState.content_eq_logical (hok.flushed hflushed), hlogical]
    exact List.prefix_append ..
  have hread : readAllEntries o.data = o.copies.map Copy.placed := by
    simpa using h.sound.readAllEntries torn_nil
  have hmem : c.placed ∈ readAllEntries o.data := hread ▸ List.mem_map_of_mem hc
  refine ⟨hdst, World.scans_iff.mpr ⟨c.placed, ?_, hsound.live, rfl, rfl⟩,
    (mem_readAllEntries hmem).holds hfront⟩
  exact (readAllEntries_front hfront).subset hmem

/-- What was copied is where it was read. -/
theorem MergeLog.FromInput.holds {x : FileId × Nat × Entry} (h : g.FromInput x)
    (hm : MergeOk tidy g w) : w.Holds (keydirEntryOf x.1 x.2.1 x.2.2) x.2.2.value := by
  obtain ⟨bytes, hread, hmem, -⟩ := h
  exact (mem_readAllEntries hmem).holds (hm.reads (x.1, bytes) hread)

/-- A file a scan finds something in is there. -/
theorem World.Scans.lookup (h : w.Scans key entry) :
    ∃ data, w.disk.data.lookup entry.fileId = some data := by
  cases hl : w.disk.data.lookup entry.fileId with
  | some data => exact ⟨data, rfl⟩
  | none =>
    obtain ⟨p, hp, -⟩ := World.scans_iff.mp h
    have hfound := (mem_readAllEntries hp).le
    rw [World.contentOf, hl] at hfound
    simp [valuePosOf, headerSize] at hfound

/-- The outputs are in the directory. -/
def MergeLog.Present (g : MergeLog) (w : World) : Prop := ∀ o ∈ g.outs, w.Linked o.id

/-- The keydir points `key` at `value`, in a file of the directory; if it is an
    input of the merge, the value is still to be copied. -/
def Kept (g : MergeLog) (w : World) (key value : Bytes) : Prop :=
  ∃ entry, w.keydir.get key = some entry ∧ w.Scans key entry ∧ w.Holds entry value ∧
    w.Linked entry.fileId ∧ g.Awaits key entry

omit [Crc32Fast] in
/-- A repoint changes the entry it expects and no other. -/
theorem get_repointed {c : Copy} (hkd : w.keydir.get key = some entry) :
    (c.entry.key = key ∧ c.old = entry ∧
        (w.keydir.casRepoint c.entry.key c.old c.new).2.get key = some c.new) ∨
      ¬ (c.entry.key = key ∧ c.old = entry) ∧
        (w.keydir.casRepoint c.entry.key c.old c.new).2.get key = some entry := by
  by_cases hkey : c.entry.key = key
  · rw [hkey, Keydir.get_casRepoint_self, hkd]
    by_cases hold : c.old = entry
    · exact Or.inl ⟨rfl, hold, by rw [if_pos (by rw [hold])]⟩
    · refine Or.inr ⟨fun h => hold h.2, ?_⟩
      rw [if_neg fun h => hold (Option.some.inj h).symm]
  · refine Or.inr ⟨fun h => hkey h.1, ?_⟩
    rw [Keydir.get_casRepoint_of_ne _ _ _ fun h => hkey h.symm, hkd]

/-- A step of the merge keeps the value, wherever it is by then. -/
theorem Kept.step (h : Kept g w key value) (hfiles : FilesOk tidy own w) (hm : MergeOk tidy g w)
    (hs : g.Sourced) (hp : g.Present w) {op : Op} {r : Op.Res op}
    (hR : MergeLog.protocol g op r g') (hO : Outcome op w r w') (hE : Evolves (· ∈ g'.ids) w w') :
    Kept g' w' key value := by
  obtain ⟨entry, hkd, hscan, hholds, hlinked, hawaits⟩ := h
  obtain ⟨data, hl⟩ := hscan.lookup
  have hgrows := hE.grows _ (hfiles.lt_of_lookup hl)
  have hlinked' : w'.Linked entry.fileId := by
    apply hO.linked _ hlinked
    rintro rfl
    obtain ⟨hsettled, rest, hremove, -⟩ := hR
    exact hawaits.settled hsettled (hm.sound.toRemove _ (hremove ▸ List.mem_cons_self))
  have hstay : w'.keydir.get key = some entry → (∀ new, op ≠ .keydirCasRepoint key entry new) →
      Kept g' w' key value := fun hkd' hcas =>
    ⟨entry, hkd', hscan.grows hgrows, hholds.grows hgrows, hlinked',
      hawaits.step hR hO hscan (fun _ => hkd) hcas⟩
  cases op with
  | keydirCasRepoint key' old new =>
    obtain ⟨c, rest, hpending, rfl, rfl, rfl, hflushed, hg'⟩ := id hR
    obtain rfl : w' = { w with keydir := (w.keydir.casRepoint c.entry.key c.old c.new).2 } := by
      rcases hO with hO | ⟨f, hO⟩
      · exact (Prod.mk.inj hO).2.symm
      · cases hO
    rcases get_repointed (c := c) hkd with ⟨rfl, rfl, hkd'⟩ | ⟨hne, hkd'⟩
    · obtain ⟨o, ho, hc⟩ := hm.sound.pending c (hpending ▸ List.mem_cons_self)
      obtain ⟨hdst, hscan', hholds'⟩ := (hm.outs o ho).copied (hflushed o ho).1 hc
      have hvalue : c.entry.value = value := ((hs.copies o ho c hc).holds hm).unique hholds
      refine ⟨c.new, hkd', hscan', hvalue ▸ hholds', ?_, fun hf => ?_⟩
      · show World.Linked _ c.dst
        rw [hdst]
        exact hp o ho
      · -- an output is no input
        have hid : c.dst ∈ g.ids := hdst ▸ MergeLog.id_mem_ids ho
        rw [hg'] at hf
        exact absurd hid (hs.apart _ hf)
    · apply hstay hkd'
      intro new heq
      injection heq with hkey hold
      exact hne ⟨hkey, hold⟩
  | keydirInsert key' entry' => exact hR.elim
  | keydirRemove key' => exact hR.elim
  | _ =>
    apply hstay
    · rw [hO.keydir rfl]
      exact hkd
    · exact fun new heq => by cases heq

/-- An output is new only where its data file was just created. -/
theorem MergeLog.outs_step {op : Op} {r : Op.Res op} (hR : protocol g op r g') {o : Output}
    (ho : o ∈ g'.outs) :
    (∃ o' ∈ g.outs, o'.id = o.id) ∨ ∃ base, (⟨op, r⟩ : Σ op, Op.Res op) = ⟨.createData o.id, .ok base⟩ := by
  have hcurrent : ∀ {o₁ o₂ : Output} {outs : List Output}, o ∈ o₂ :: outs → g.outs = o₁ :: outs →
      o₂.id = o₁.id → ∃ o' ∈ g.outs, o'.id = o.id := by
    intro o₁ o₂ outs hmem houts hid
    rcases List.mem_cons.mp hmem with rfl | hmem
    · exact ⟨o₁, houts ▸ List.mem_cons_self, hid.symm⟩
    · exact ⟨o, houts ▸ List.mem_cons_of_mem _ hmem, rfl⟩
  have hmap : ∀ {f : Output → Output}, (∀ o, (f o).id = o.id) → o ∈ g.outs.map f →
      ∃ o' ∈ g.outs, o'.id = o.id := by
    intro f hid hmem
    obtain ⟨o', ho', rfl⟩ := List.mem_map.mp hmem
    exact ⟨o', ho', (hid o').symm⟩
  cases op with
  | locked s =>
    cases s with
    | append => exact hR.elim
    | activeFileId =>
      obtain ⟨rfl, rfl⟩ := hR
      exact Or.inl ⟨o, ho, rfl⟩
    | restoreActive highest =>
      obtain ⟨-, -, -, rfl⟩ := hR
      cases r <;> exact Or.inl ⟨o, ho, rfl⟩
  | discover =>
    obtain ⟨-, -, rfl⟩ := hR
    cases r <;> exact Or.inl ⟨o, ho, rfl⟩
  | createData id =>
    obtain ⟨-, -, rfl⟩ := hR
    cases r with
    | error e => exact Or.inl ⟨o, ho, rfl⟩
    | ok base =>
      rcases List.mem_cons.mp ho with rfl | ho
      · exact Or.inr ⟨base, rfl⟩
      · exact Or.inl ⟨o, ho, rfl⟩
  | createHint id =>
    obtain ⟨o₁, outs, houts, -, -, rfl⟩ := hR
    cases r with
    | error e => exact Or.inl ⟨o, ho, rfl⟩
    | ok _ => exact Or.inl (hcurrent ho houts rfl)
  | writeData id bytes =>
    obtain ⟨o₁, outs, x, houts, -, -, -, -, -, rfl⟩ := hR
    cases r <;> exact Or.inl (hcurrent ho houts rfl)
  | writeHint id bytes =>
    obtain ⟨o₁, outs, houts, -, -, o₂, ho₂, rfl⟩ := hR
    cases r with
    | error e => exact Or.inl (hcurrent ho houts rfl)
    | ok _ =>
      rcases ho₂ with ⟨-, -, -, rfl⟩ | ⟨-, -, -, rfl⟩ <;> exact Or.inl (hcurrent ho houts rfl)
  | flushData id =>
    obtain ⟨-, rfl⟩ := hR
    cases r with
    | error e => exact Or.inl ⟨o, ho, rfl⟩
    | ok _ => exact Or.inl (hmap (fun _ => by split <;> rfl) ho)
  | flushHint id =>
    obtain ⟨-, rfl⟩ := hR
    cases r with
    | error e => exact Or.inl ⟨o, ho, rfl⟩
    | ok _ => exact Or.inl (hmap (fun _ => by split <;> rfl) ho)
  | syncData id =>
    obtain ⟨-, rfl⟩ := hR
    cases r <;> exact Or.inl ⟨o, ho, rfl⟩
  | readFile f =>
    obtain ⟨rest, -, -, -, rfl⟩ := hR
    cases r <;> exact Or.inl ⟨o, ho, rfl⟩
  | fetchAddFileId =>
    obtain ⟨-, -, -, rfl⟩ := hR
    exact Or.inl ⟨o, ho, rfl⟩
  | keydirIsLive key f pos =>
    obtain ⟨_, _, _, -, -, -, -, rfl⟩ := hR
    exact Or.inl ⟨o, ho, rfl⟩
  | keydirCasRepoint key old new =>
    obtain ⟨_, _, -, -, -, -, -, rfl⟩ := hR
    exact Or.inl ⟨o, ho, rfl⟩
  | removeData f =>
    obtain ⟨-, _, -, rfl⟩ := hR
    exact Or.inl ⟨o, ho, rfl⟩
  | removeHint f =>
    obtain ⟨-, rfl⟩ := hR
    exact Or.inl ⟨o, ho, rfl⟩
  | forget f =>
    obtain ⟨-, rfl⟩ := hR
    exact Or.inl ⟨o, ho, rfl⟩
  | _ => exact hR.elim

omit [Crc32Fast] in
/-- A file once created is in the directory. -/
theorem linked_createData {id : FileId} {base : Nat}
    (hO : Outcome (.createData id) w (.ok base) w') : w'.Linked id := by
  rcases hO with hO | ⟨f, hO⟩
  · cases hO
    show ∃ data, (w.disk.data.create id).open? id = some data
    unfold FileTable.open? FileTable.create
    split
    · rename_i data _
      split
      · rename_i hlinked
        exact ⟨{ data with buffer := [] }, by simp [hlinked]⟩
      · exact ⟨.fresh, by simp⟩
    · exact ⟨.fresh, by simp⟩
  · cases hO

/-- The outputs stay in the directory. -/
theorem MergeLog.Present.step (h : g.Present w) (hs : g.Sourced) (hsound : g.Sound) {op : Op}
    {r : Op.Res op} (hR : MergeLog.protocol g op r g') (hO : Outcome op w r w') :
    g'.Present w' := by
  intro o ho
  rcases outs_step hR ho with ⟨o', ho', hid⟩ | ⟨base, heq⟩
  · apply hO.linked _ (hid ▸ h o' ho')
    rintro rfl
    obtain ⟨-, rest, hremove, -⟩ := hR
    exact hs.apart _ (hsound.toRemove _ (hremove ▸ List.mem_cons_self)) (hid ▸ id_mem_ids ho')
  · obtain ⟨rfl, hr⟩ := Sigma.mk.inj heq
    cases hr
    exact linked_createData hO

/-! ## A merge at work -/

/-- An id is new to the merge only where it was just claimed. -/
theorem MergeLog.ids_step {op : Op} {r : Op.Res op} (hR : protocol g op r g') {id : FileId}
    (hid : id ∈ g'.ids) : id ∈ g.ids ∨ (⟨op, r⟩ : Σ op, Op.Res op) = ⟨.fetchAddFileId, id⟩ := by
  rcases mem_ids.mp hid with hc | ⟨o, ho, rfl⟩
  · cases op with
    | fetchAddFileId =>
      obtain ⟨-, -, -, rfl⟩ := hR
      cases hc
      exact Or.inr rfl
    | createData id' =>
      obtain ⟨hclaimed, -, rfl⟩ := hR
      cases r with
      | ok base => cases hc
      | error e => exact Or.inl (mem_ids.mpr (Or.inl hc))
    | locked s =>
      cases s with
      | append => exact hR.elim
      | activeFileId =>
        obtain ⟨rfl, rfl⟩ := hR
        cases hc
      | restoreActive highest =>
        obtain ⟨-, -, -, rfl⟩ := hR
        cases r <;> exact Or.inl (mem_ids.mpr (Or.inl hc))
    | discover =>
      obtain ⟨-, -, rfl⟩ := hR
      cases r <;> exact Or.inl (mem_ids.mpr (Or.inl hc))
    | createHint id' =>
      obtain ⟨_, _, -, -, -, rfl⟩ := hR
      cases r <;> exact Or.inl (mem_ids.mpr (Or.inl hc))
    | writeData id' bytes =>
      obtain ⟨_, _, _, -, -, -, -, -, -, rfl⟩ := hR
      cases r <;> exact Or.inl (mem_ids.mpr (Or.inl hc))
    | writeHint id' bytes =>
      obtain ⟨_, _, -, -, -, _, -, rfl⟩ := hR
      cases r <;> exact Or.inl (mem_ids.mpr (Or.inl hc))
    | flushData id' | flushHint id' | syncData id' =>
      obtain ⟨-, rfl⟩ := hR
      cases r <;> exact Or.inl (mem_ids.mpr (Or.inl hc))
    | readFile f =>
      obtain ⟨_, -, -, -, rfl⟩ := hR
      cases r <;> exact Or.inl (mem_ids.mpr (Or.inl hc))
    | keydirIsLive key f pos =>
      obtain ⟨_, _, _, -, -, -, -, rfl⟩ := hR
      exact Or.inl (mem_ids.mpr (Or.inl hc))
    | keydirCasRepoint key old new =>
      obtain ⟨_, _, -, -, -, -, -, rfl⟩ := hR
      exact Or.inl (mem_ids.mpr (Or.inl hc))
    | removeData f =>
      obtain ⟨-, _, -, rfl⟩ := hR
      exact Or.inl (mem_ids.mpr (Or.inl hc))
    | removeHint f | forget f =>
      obtain ⟨-, rfl⟩ := hR
      exact Or.inl (mem_ids.mpr (Or.inl hc))
    | _ => exact hR.elim
  · rcases outs_step hR ho with ⟨o', ho', hid⟩ | ⟨base, heq⟩
    · exact Or.inl (hid ▸ id_mem_ids ho')
    · obtain ⟨rfl, -⟩ := Sigma.mk.inj heq
      obtain ⟨hclaimed, -, -⟩ := hR
      exact Or.inl (mem_ids.mpr (Or.inl hclaimed))

/-- The inputs are listed once. -/
theorem MergeLog.inputs_step {op : Op} {r : Op.Res op} (hR : protocol g op r g') :
    g'.inputs = g.inputs ∨ op = .discover ∧ g.inputs = [] := by
  by_cases hop : op = .discover
  · subst hop
    exact Or.inr ⟨rfl, hR.1⟩
  · left
    unfold protocol at hR
    split at hR
    all_goals first
      | exact absurd rfl hop
      | grind [fail, read, copied, flushedData, flushedHint, failFlush]

/-- An input is kept only where its removal fails. -/
theorem MergeLog.kept_step {op : Op} {r : Op.Res op} (hR : protocol g op r g') :
    g'.kept = g.kept ∨
      ∃ f, (⟨op, r⟩ : Σ op, Op.Res op) = ⟨.removeData f, .error .injected⟩ := by
  by_cases hop : ∃ f, op = .removeData f
  · obtain ⟨f, rfl⟩ := hop
    obtain ⟨-, rest, -, rfl⟩ := hR
    dsimp only
    split
    · exact Or.inr ⟨f, rfl⟩
    · exact Or.inl rfl
  · left
    unfold protocol at hR
    split at hR
    all_goals first
      | exact absurd ⟨_, rfl⟩ hop
      | grind [fail, list, read, copied, flushedData, flushedHint, failFlush]

/-- The merge keeps the ids it claimed. -/
theorem MergeLog.ids_mono {op : Op} {r : Op.Res op} (hR : protocol g op r g') {id : FileId}
    (hid : id ∈ g.ids) : id ∈ g'.ids := by
  unfold protocol at hR
  split at hR
  all_goals grind [mem_ids, ids, init, fail, list, read, copied, flushedData, flushedHint, failFlush,
    Output.push, Output.pushHint, Output.opened]

/-- Once the inputs are listed, only the removal of one changes what is left to
    be done with them. -/
theorem MergeLog.plan_step {op : Op} {r : Op.Res op} (hR : protocol g op r g')
    (hinputs : g.inputs ≠ []) :
    g'.activeAtStart = g.activeAtStart ∧ g'.inputs = g.inputs ∧
      ((∀ f, op ≠ .removeData f) →
        g'.toRemove = g.toRemove ∧ g'.removed = g.removed ∧ g'.kept = g.kept) := by
  unfold protocol at hR
  split at hR
  all_goals grind [ids, init, fail, list, read, copied, flushedData, flushedHint, failFlush]

omit [Crc32Fast] in
/-- A file that is at most unlinked keeps its content. -/
theorem contentOf_of_sameFile {id : FileId}
    (h : SameFile (w.disk.data.lookup id) (w'.disk.data.lookup id)) :
    w'.contentOf id = w.contentOf id := by
  unfold World.contentOf
  rcases h with h | h <;> rw [h]
  cases w.disk.data.lookup id <;> rfl

/-- A merge at work; `own` are its ids and those of others. -/
structure AtWork (tidy : Prop) (own : FileId → Prop) (g : MergeLog) (w : World) : Prop where
  files : FilesOk tidy own w
  own : ∀ id ∈ g.ids, own id
  merge : MergeOk tidy g w
  sourced : g.Sourced
  present : g.Present w

/-- Before its first operation. -/
theorem atWork_init (h : FilesOk tidy own w) : AtWork tidy own .init w where
  files := h
  own := fun id hid => by cases hid
  merge := mergeOk_init w
  sourced := MergeLog.sourced_init
  present := fun o ho => by cases ho

/-- Every step of a merge at work. -/
theorem AtWork.step (h : AtWork tidy own g w) {op : Op} {r : Op.Res op}
    (hR : MergeLog.protocol g op r g') (hO : Outcome op w r w') (hsound : w'.allotted < 2 ^ 32) :
    AtWork tidy (fun id => own id ∨ id ∈ g'.ids) g' w' ∧ Evolves (· ∈ g'.ids) w w' := by
  have hstep := h.merge.step h.files h.own hR hO hsound
  refine ⟨⟨hstep.files, fun id hid => Or.inr hid, hstep.merge, ?_,
    h.present.step h.sourced h.merge.sound hR hO⟩, hstep.evolves⟩
  apply h.sourced.step h.merge.sound hR
  -- an id just claimed is above all files
  intro id hid hnew hin
  rcases MergeLog.ids_step hR hid with hold | heq
  · exact hnew hold
  · obtain ⟨rfl, hr⟩ := Sigma.mk.inj heq
    cases hr
    obtain ⟨data, hl⟩ := h.merge.inputs _ hin
    have hlt := h.files.lt_of_lookup hl
    rcases hO with hO | ⟨f, hO⟩
    · obtain ⟨rfl, -⟩ := Prod.mk.inj hO
      exact absurd hlt (lt_irrefl _)
    · cases hO

/-- The rule for a merge that nobody disturbs: what its steps keep holds at its
    end, and the ids that are in use are those from before and its own.  The
    merge may follow more rules than those of its record `log`. -/
theorem AtWork.runs_along {G : Type} {R : Prog.Protocol Op Op.Res G} (log : G → MergeLog)
    (hlog : ∀ x op r x', R x op r x' → MergeLog.protocol (log x) op r (log x'))
    {Out : (o : Op) → World → Op.Res o → World → Prop}
    (hOut : ∀ o w r w', Out o w r w' → Outcome o w r w') (Inv : G → World → Prop)
    (hstep : ∀ own x op w r w' x', AtWork tidy own (log x) w → R x op r x' →
      Out op w r w' → w'.allotted < 2 ^ 32 → Inv x w → Inv x' w')
    {α : Type} {p : Prog Op Op.Res α} {Q : α → G → Prop} {a : α} {x : G}
    (h : AtWork tidy own (log x) w) (hfollows : p.Follows R Q x) (hrun : p.Runs Out w a w')
    (hids : w'.allotted < 2 ^ 32) (hinv : Inv x w) :
    ∃ x' own', Q a x' ∧ AtWork tidy own' (log x') w' ∧ Inv x' w' ∧
      ∀ id, own' id → own id ∨ id ∈ (log x').ids := by
  -- the ids allotted only grow, so there are few enough at every step
  have hall : ∀ x op w r w' x', Out op w r w' → R x op r x' →
      (w.allotted < 2 ^ 32 → ∃ own', AtWork tidy own' (log x) w ∧ Inv x w ∧
        ∀ id, own' id → own id ∨ id ∈ (log x).ids) →
      w'.allotted < 2 ^ 32 → ∃ own', AtWork tidy own' (log x') w' ∧ Inv x' w' ∧
        ∀ id, own' id → own id ∨ id ∈ (log x').ids := by
    intro x op w r w' x' ho hR hwork hlt
    have hO := hOut op w r w' ho
    have hlogR := hlog x op r x' hR
    obtain ⟨own', hwork, hinv, hown⟩ := hwork (hO.allotted.2.trans_lt hlt)
    refine ⟨_, (hwork.step hlogR hO hlt).1, hstep own' x op w r w' x' hwork hR ho hlt hinv, ?_⟩
    rintro id (hid | hid)
    · exact (hown id hid).imp_right (MergeLog.ids_mono hlogR)
    · exact Or.inr hid
  obtain ⟨x', hQ, hwork⟩ := hfollows.runs hall (fun _ => ⟨own, h, hinv, fun _ => Or.inl⟩) hrun
  obtain ⟨own', hwork, hinv, hown⟩ := hwork hids
  exact ⟨x', own', hQ, hwork, hinv, hown⟩

/-- The same for its record alone. -/
theorem AtWork.runs {Out : (o : Op) → World → Op.Res o → World → Prop}
    (hOut : ∀ o w r w', Out o w r w' → Outcome o w r w') (Inv : MergeLog → World → Prop)
    (hstep : ∀ own g op w r w' g', AtWork tidy own g w → MergeLog.protocol g op r g' →
      Out op w r w' → w'.allotted < 2 ^ 32 → Inv g w → Inv g' w')
    {α : Type} {p : Prog Op Op.Res α} {Q : α → MergeLog → Prop} {a : α} (h : AtWork tidy own g w)
    (hfollows : p.Follows MergeLog.protocol Q g) (hrun : p.Runs Out w a w')
    (hids : w'.allotted < 2 ^ 32) (hinv : Inv g w) :
    ∃ g' own', Q a g' ∧ AtWork tidy own' g' w' ∧ Inv g' w' ∧
      ∀ id, own' id → own id ∨ id ∈ g'.ids :=
  AtWork.runs_along (fun g => g) (fun _ _ _ _ hR => hR) hOut Inv hstep h hfollows hrun hids hinv

end

end Yabiir
