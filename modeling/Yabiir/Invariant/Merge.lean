/-
  Yabiir.Invariant.Merge

  What a merge at work knows of its record (`MergeLog.Sound`) and of the files
  (`MergeOk`): its outputs hold the copies the record says, what it read is still
  there.  Steps of others keep it (`MergeOk.evolves`).
-/

import Yabiir.Invariant.Output
import Yabiir.Merge.Follows

namespace Yabiir

open Format

variable [Crc32Fast]

/-! ## The record -/

/-- A live entry of an input the merge has read. -/
def MergeLog.FromInput (g : MergeLog) (x : FileId × Nat × Entry) : Prop :=
  ∃ bytes, (x.1, bytes) ∈ g.reads ∧ x.2 ∈ readAllEntries bytes ∧ x.2.2.isTombstone = false

/-- A live entry within the format's limits. -/
def Live (x : FileId × Nat × Entry) : Prop := x.2.2.Fits ∧ x.2.2.isTombstone = false

/-- The record is in order, the outputs' own records apart. -/
structure MergeLog.Sound (g : MergeLog) : Prop where
  closed : ∀ o rest, g.outs = o :: rest → ∀ x ∈ rest, x.Closed
  behind : g.claimed.isSome → ∀ o ∈ g.outs, o.Closed
  unrestored : g.claimed.isSome → g.restored = false
  nodup : g.ids.Nodup
  inputs : ∀ f ∈ g.inputs, f < g.activeAtStart
  unread : ∀ f ∈ g.unread, f ∈ g.inputs
  toRemove : ∀ f ∈ g.toRemove, f ∈ g.inputs
  removed : ∀ f ∈ g.removed, f ∈ g.inputs
  reads : ∀ x ∈ g.reads, x.1 ∈ g.inputs
  todo : ∀ x ∈ g.todo, Live x
  checked : ∀ x, g.checked = some x → Live x
  pending : ∀ c ∈ g.pending, ∃ o ∈ g.outs, c ∈ o.copies

/-- What is copied comes from the inputs, no input is an output, nothing is left
    to do once an input is removed, and each is removed or due to be. -/
structure MergeLog.Sourced (g : MergeLog) : Prop where
  todo : ∀ x ∈ g.todo, g.FromInput x
  checked : ∀ x, g.checked = some x → g.FromInput x
  copies : ∀ o ∈ g.outs, ∀ c ∈ o.copies, g.FromInput (c.src, c.pos, c.entry)
  apart : ∀ f ∈ g.inputs, f ∉ g.ids
  done : ∀ f ∈ g.removed, g.unread = [] ∧ g.todo = [] ∧ g.checked = none ∧ g.pending = []
  due : ∀ f ∈ g.inputs, f ∈ g.toRemove ∨ f ∈ g.removed

namespace MergeLog

variable {g g' : MergeLog} {x : FileId × Nat × Entry}

omit [Crc32Fast] in
theorem sound_init : init.Sound := by
  constructor <;> simp [init, ids]

theorem FromInput.fits (h : g.FromInput x) : x.2.2.Fits := by
  obtain ⟨bytes, -, hmem, -⟩ := h
  exact (mem_readAllEntries hmem).fits

theorem FromInput.live (h : g.FromInput x) : Live x := by
  obtain ⟨-, -, -, hlive⟩ := id h
  exact ⟨h.fits, hlive⟩

omit [Crc32Fast] in
theorem closed_flush {o : Output} (h : o.Closed) :
    ({ o with dataFlushed := true } : Output).Closed ∧
      ({ o with hintFlushed := true } : Output).Closed :=
  ⟨⟨h.hinted, h.hintMade, h.trailer, ⟨rfl, h.drained.2⟩, h.torn, h.hintTorn⟩,
    ⟨h.hinted, h.hintMade, h.trailer, ⟨h.drained.1, rfl⟩, h.torn, h.hintTorn⟩⟩

omit [Crc32Fast] in
/-- Changing the outputs without touching their copies, and closing none that
    was not. -/
theorem Sound.mapOuts (h : g.Sound) {f : Output → Output} (hid : ∀ o, (f o).id = o.id)
    (hcopies : ∀ o, (f o).copies = o.copies) (hclosed : ∀ o, o.Closed → (f o).Closed) :
    ({ g with outs := g.outs.map f } : MergeLog).Sound := by
  have hids := ids_mapOuts (g := g) hid
  refine { h with
    closed := ?_, behind := ?_, nodup := hids ▸ h.nodup, pending := ?_ }
  · intro o rest houts x hx
    obtain ⟨o', rest', hout', -, rfl⟩ := List.map_eq_cons_iff.mp houts
    obtain ⟨y, hy, rfl⟩ := List.mem_map.mp hx
    exact hclosed y (h.closed o' rest' hout' y hy)
  · intro hc o ho
    obtain ⟨y, hy, rfl⟩ := List.mem_map.mp ho
    exact hclosed y (h.behind hc y hy)
  · intro c hc
    obtain ⟨o, ho, hco⟩ := h.pending c hc
    exact ⟨f o, List.mem_map_of_mem ho, (hcopies o).symm ▸ hco⟩

omit [Crc32Fast] in
/-- Changing the current output without touching its copies, where it was not
    closed. -/
theorem Sound.setCurrent (h : g.Sound) {o o' : Output} {outs : List Output}
    (houts : g.outs = o :: outs) (hopen : ¬ o.Closed) (hid : o'.id = o.id)
    (hcopies : o'.copies = o.copies) : ({ g with outs := o' :: outs } : MergeLog).Sound := by
  have hids : ({ g with outs := o' :: outs } : MergeLog).ids = g.ids :=
    ids_setCurrent houts rfl hid rfl
  have hclaimed : ¬ g.claimed.isSome := fun hc =>
    hopen (h.behind hc o (houts ▸ List.mem_cons_self))
  refine { h with
    closed := ?_, behind := fun hc => absurd hc hclaimed, nodup := hids ▸ h.nodup, pending := ?_ }
  · rintro _ _ ⟨⟩ x hx
    exact h.closed o outs houts x hx
  · intro c hc
    obtain ⟨y, hy, hcy⟩ := h.pending c hc
    rw [houts] at hy
    rcases List.mem_cons.mp hy with rfl | hy
    · exact ⟨o', List.mem_cons_self, hcopies.symm ▸ hcy⟩
    · exact ⟨y, List.mem_cons_of_mem _ hy, hcy⟩

omit [Crc32Fast] in
theorem Output.Open.not_closed {o : Output} (h : o.Open) : ¬ o.Closed := fun hc => by
  have := h.trailer.symm.trans hc.trailer
  cases this

omit [Crc32Fast] in
theorem Sound.fail (h : g.Sound) : g.fail.Sound := { h with }

omit [Crc32Fast] in
/-- Claiming an id the merge does not have yet. -/
theorem Sound.claim (h : g.Sound) (hclaimed : g.claimed = none) (hrestored : g.restored = false)
    (hclosed : ∀ o ∈ g.outs, o.Closed) {id : FileId} (hid : id ∉ g.ids) :
    ({ g with claimed := some id } : MergeLog).Sound := by
  have hids : g.ids = g.outs.map Output.id := by simp [ids, hclaimed]
  refine { h with behind := fun _ => hclosed, unrestored := fun _ => hrestored, nodup := ?_ }
  show (id :: g.outs.map Output.id).Nodup
  rw [← hids]
  exact List.nodup_cons.mpr ⟨hid, h.nodup⟩

omit [Crc32Fast] in
/-- Opening an output under the id claimed. -/
theorem Sound.opened (h : g.Sound) {id : FileId} (hc : g.claimed = some id) (base : Nat) :
    ({ g with claimed := none, outs := .opened id base :: g.outs } : MergeLog).Sound := by
  have hsome : g.claimed.isSome := by simp [hc]
  have hids : ({ g with claimed := none, outs := .opened id base :: g.outs } : MergeLog).ids
      = g.ids := by simp [ids, hc, Output.opened]
  refine { h with
    closed := ?_, behind := fun hn => by cases hn
    unrestored := fun hn => by cases hn
    nodup := hids ▸ h.nodup, pending := ?_ }
  · rintro _ _ ⟨⟩ x hx
    exact h.behind hsome x hx
  · intro c hc
    obtain ⟨o, ho, hco⟩ := h.pending c hc
    exact ⟨o, List.mem_cons_of_mem _ ho, hco⟩

/-- Copying the entry just checked to the current output. -/
theorem Sound.copied (h : g.Sound) {o : Output} {outs : List Output} (houts : g.outs = o :: outs)
    (hopen : o.Open) : (g.copied o outs x).Sound := by
  have hids : (g.copied o outs x).ids = g.ids := by simp [ids, MergeLog.copied, houts, Output.push]
  have hclaimed : ¬ g.claimed.isSome := fun hc =>
    Output.Open.not_closed hopen (h.behind hc o (houts ▸ List.mem_cons_self))
  refine { h with
    closed := ?_, behind := fun hc => absurd hc hclaimed, nodup := hids ▸ h.nodup
    checked := fun _ hc => by cases hc
    pending := ?_ }
  · rintro _ _ ⟨⟩ y hy
    exact h.closed o outs houts y hy
  · intro c hc
    rcases List.mem_append.mp hc with hc | hc
    · obtain ⟨y, hy, hcy⟩ := h.pending c hc
      rw [houts] at hy
      rcases List.mem_cons.mp hy with rfl | hy
      · exact ⟨_, List.mem_cons_self, List.mem_append_left _ hcy⟩
      · exact ⟨y, List.mem_cons_of_mem _ hy, hcy⟩
    · cases List.mem_singleton.mp hc
      exact ⟨_, List.mem_cons_self, List.mem_append_right _ List.mem_cons_self⟩

/-- Reading an input. -/
theorem Sound.read (h : g.Sound) {f : FileId} {rest : List FileId} (hf : g.unread = f :: rest)
    (bytes : Bytes) : (g.read f rest bytes).Sound := by
  refine { h with
    unread := fun f' hf' => h.unread f' (hf ▸ List.mem_cons_of_mem _ hf')
    reads := ?_, todo := ?_ }
  · intro x hx
    rcases List.mem_append.mp hx with hx | hx
    · exact h.reads x hx
    · cases List.mem_singleton.mp hx
      exact h.unread f (hf ▸ List.mem_cons_self)
  · intro x hx
    obtain ⟨p, hp, rfl⟩ := List.mem_map.mp hx
    obtain ⟨hp, hlive⟩ := List.mem_filter.mp hp
    exact ⟨(mem_readAllEntries hp).fits, by simpa using hlive⟩

end MergeLog

/-! ## The files -/

/-- The record changed in its outputs and its lists of work at most; a failure is
    never forgotten. -/
structure MergeLog.Keeps (g g' : MergeLog) : Prop where
  claimed : g'.claimed = g.claimed
  failed : g.failed = true → g'.failed = true
  activeAtStart : g'.activeAtStart = g.activeAtStart
  inputs : g'.inputs = g.inputs
  removed : g'.removed = g.removed
  kept : g'.kept = g.kept
  reads : g'.reads = g.reads
  restored : g'.restored = g.restored

/-- What the record says of the files is so. -/
structure MergeOk (tidy : Prop) (g : MergeLog) (w : World) : Prop where
  sound : g.Sound
  outs : ∀ o ∈ g.outs, OutputOk tidy o w
  claimed : ∀ id, g.claimed = some id → (tidy → w.disk.hint.lookup id = none) ∧
    ∀ data, w.disk.data.lookup id = some data → data.logical = [] ∧ g.failed = true
  activeAtStart : g.activeAtStart ≤ w.active.fileId
  inputs : ∀ f ∈ g.inputs, ∃ data, w.disk.data.lookup f = some data
  removed : ∀ f ∈ g.removed, f ∉ g.kept →
    ∃ data, w.disk.data.lookup f = some data ∧ data.linked = false
  reads : ∀ x ∈ g.reads, x.2 <+: w.contentOf x.1
  restored : g.restored = true → ∀ o ∈ g.outs, o.id < w.active.fileId

section

variable {tidy : Prop} {own X : FileId → Prop} {g g' : MergeLog} {w w' : World} {o o' : Output}
  {outs : List Output}

omit [Crc32Fast] in
theorem MergeLog.keeps_fail : g.Keeps g.fail := ⟨rfl, fun _ => rfl, rfl, rfl, rfl, rfl, rfl, rfl⟩

theorem mergeOk_init (w : World) : MergeOk tidy .init w := by
  constructor
  · exact MergeLog.sound_init
  all_goals simp [MergeLog.init]

omit [Crc32Fast] in
theorem MergeLog.mem_ids {id : FileId} :
    id ∈ g.ids ↔ g.claimed = some id ∨ ∃ o ∈ g.outs, o.id = id := by
  simp [MergeLog.ids, Option.mem_toList, List.mem_map]

omit [Crc32Fast] in
theorem MergeLog.id_mem_ids (ho : o ∈ g.outs) : o.id ∈ g.ids := mem_ids.mpr (Or.inr ⟨o, ho, rfl⟩)

/-- What a merge knows survives the steps of others. -/
theorem MergeOk.evolves (h : MergeOk tidy g w) (hfiles : FilesOk tidy own w)
    (hown : ∀ id ∈ g.ids, own id) (hE : Evolves X w w') (hX : ∀ id ∈ g.ids, ¬ X id) :
    MergeOk tidy g w' where
  sound := h.sound
  outs := fun o ho =>
    have hid := MergeLog.id_mem_ids ho
    (h.outs o ho).evolves hE (hfiles.own_lt _ (hown _ hid)) (hX _ hid) (hfiles.own_ne _ (hown _ hid))
  claimed := fun id hc => by
    have hid : id ∈ g.ids := MergeLog.mem_ids.mpr (Or.inl hc)
    have hlt := hfiles.own_lt _ (hown _ hid)
    have hne := hfiles.own_ne _ (hown _ hid)
    obtain ⟨hhint, hdata⟩ := h.claimed id hc
    constructor
    · intro ht
      rcases hE.hint id hlt (hX _ hid) hne with hsame | hsame <;> rw [hsame, hhint ht]
      rfl
    · intro data hl
      rcases hE.data id hlt (hX _ hid) hne with hsame | hsame
      · exact hdata data (hsame.symm.trans hl)
      · rw [hsame] at hl
        obtain ⟨data', hl', rfl⟩ := Option.map_eq_some_iff.mp hl
        exact hdata data' hl'
  activeAtStart := h.activeAtStart.trans hE.active
  inputs := fun f hf => by
    obtain ⟨data, hl⟩ := h.inputs f hf
    obtain ⟨data', hl', -⟩ := hE.stays f data hl
    exact ⟨data', hl'⟩
  removed := fun f hf hkept => by
    obtain ⟨data, hl, hlinked⟩ := h.removed f hf hkept
    obtain ⟨data', hl', hlinked'⟩ := hE.stays f data hl
    exact ⟨data', hl', hlinked'.elim (fun h => h.trans hlinked) And.left⟩
  reads := fun x hx => by
    obtain ⟨data, hl⟩ := h.inputs _ (h.sound.reads x hx)
    exact (h.reads x hx).trans (hE.grows _ (hfiles.lt_of_lookup hl))
  restored := fun hr o ho => (h.restored hr o ho).trans_le hE.active

/-- A step that leaves the counter and the active file alone, and of the files
    touches those of the merge only. -/
theorem MergeOk.ofAgrees (h : MergeOk tidy g w) (hA : AgreesOff X w w') (hs : g'.Sound)
    (houts : ∀ o ∈ g'.outs, OutputOk tidy o w')
    (hclaimed : ∀ id, g'.claimed = some id → (tidy → w'.disk.hint.lookup id = none) ∧
      ∀ data, w'.disk.data.lookup id = some data → data.logical = [] ∧ g'.failed = true)
    (hstart : g'.activeAtStart = g.activeAtStart) (hinputs : g'.inputs = g.inputs)
    (hremoved : g'.removed = g.removed) (hkept : g'.kept = g.kept) (hreads : g'.reads = g.reads)
    (hrestored : g'.restored = true → ∀ o ∈ g'.outs, o.id < w.active.fileId) :
    MergeOk tidy g' w' where
  sound := hs
  outs := houts
  claimed := hclaimed
  activeAtStart := by
    rw [hA.active, hstart]
    exact h.activeAtStart
  inputs := fun f hf => by
    obtain ⟨data, hl⟩ := h.inputs f (hinputs ▸ hf)
    obtain ⟨data', hl', -⟩ := hA.stays f data hl
    exact ⟨data', hl'⟩
  removed := fun f hf hk => by
    obtain ⟨data, hl, hlinked⟩ := h.removed f (hremoved ▸ hf) (hkept ▸ hk)
    obtain ⟨data', hl', hlinked'⟩ := hA.stays f data hl
    exact ⟨data', hl', hlinked'.trans hlinked⟩
  reads := fun x hx => (h.reads x (hreads ▸ hx)).trans (hA.grows _)
  restored := fun hr o ho => by
    rw [hA.active]
    exact hrestored hr o ho

/-- What is known of a claimed id holds while its files are left alone. -/
theorem MergeOk.claimed_congr (h : MergeOk tidy g w) (hA : AgreesOff X w w')
    (hX : ∀ id, g.claimed = some id → ¬ X id) (hfailed : g.failed = true → g'.failed = true)
    (hclaimed : g'.claimed = g.claimed) {id : FileId} (hc : g'.claimed = some id) :
    (tidy → w'.disk.hint.lookup id = none) ∧
      ∀ data, w'.disk.data.lookup id = some data → data.logical = [] ∧ g'.failed = true := by
  rw [hclaimed] at hc
  rw [hA.hint id (hX id hc), hA.data id (hX id hc)]
  obtain ⟨hhint, hdata⟩ := h.claimed id hc
  exact ⟨hhint, fun data hl => ⟨(hdata data hl).1, hfailed (hdata data hl).2⟩⟩

/-- A step that touches no file. -/
theorem MergeOk.quiet (h : MergeOk tidy g w) (hA : AgreesOff (fun _ => False) w w') (hs : g'.Sound)
    (houts : g'.outs = g.outs) (hk : g.Keeps g') : MergeOk tidy g' w' := by
  apply h.ofAgrees hA hs _ _ hk.activeAtStart hk.inputs hk.removed hk.kept hk.reads
  · intro hr o ho
    exact h.restored (hk.restored ▸ hr) o (houts ▸ ho)
  · intro o ho
    exact (h.outs o (houts ▸ ho)).agreesOff hA fun hx => hx
  · intro id hc
    exact h.claimed_congr hA (fun _ _ hx => hx) hk.failed hk.claimed hc

omit [Crc32Fast] in
/-- No other id of the merge is the current output's. -/
theorem MergeLog.Sound.current_ne (h : g.Sound) (houts : g.outs = o :: outs) :
    g.claimed ≠ some o.id ∧ ∀ x ∈ outs, x.id ≠ o.id := by
  have hn := h.nodup
  rw [MergeLog.ids, houts, List.map_cons, List.nodup_append] at hn
  obtain ⟨-, hn, hdisjoint⟩ := hn
  constructor
  · intro hc
    exact hdisjoint o.id (by simp [hc]) o.id List.mem_cons_self rfl
  · intro x hx heq
    exact (List.nodup_cons.mp hn).1 (heq ▸ List.mem_map_of_mem hx)

/-- A step that changes the current output. -/
theorem MergeOk.current (h : MergeOk tidy g w) (houts : g.outs = o :: outs)
    (hA : AgreesOff (· = o.id) w w') (hs : g'.Sound) (houts' : g'.outs = o' :: outs)
    (hid : o'.id = o.id) (hk : g.Keeps g') (ho' : OutputOk tidy o' w') : MergeOk tidy g' w' := by
  obtain ⟨hne, hother⟩ := h.sound.current_ne houts
  have ho : o ∈ g.outs := houts ▸ List.mem_cons_self
  apply h.ofAgrees hA hs _ _ hk.activeAtStart hk.inputs hk.removed hk.kept hk.reads
  · intro hr x hx
    have hr' := h.restored (hk.restored ▸ hr)
    rw [houts'] at hx
    rcases List.mem_cons.mp hx with rfl | hx
    · exact hid ▸ hr' o ho
    · exact hr' x (houts ▸ List.mem_cons_of_mem _ hx)
  · intro x hx
    rw [houts'] at hx
    rcases List.mem_cons.mp hx with rfl | hx
    · exact ho'
    · exact (h.outs x (houts ▸ List.mem_cons_of_mem _ hx)).agreesOff hA (hother x hx)
  · intro id hc
    exact h.claimed_congr hA (fun id hc heq => hne (heq ▸ hc)) hk.failed hk.claimed hc

end

end Yabiir
