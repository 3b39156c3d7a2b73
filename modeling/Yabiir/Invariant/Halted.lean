/-
  Yabiir.Invariant.Halted

  A merge that nobody disturbs, killed anywhere (`Lasting.stores`).  Whatever it got
  done, what the files say is the map: the files that are none of its outputs say so
  as long as the inputs are there (`Lasting`), and the outputs, cut anywhere, hold
  nothing but values of the map.
-/

import Yabiir.Invariant.Cut
import Yabiir.Invariant.Moving

namespace Yabiir

open Format

variable [Crc32Fast]

section

variable {m : KeyMap} {w w' : World} {g g' : MergeLog} {own : FileId → Prop} {op : Op}
  {r : Op.Res op} {id : FileId} {key value : Bytes}

/-! ## The other files -/

/-- An output once closed stays as it is. -/
theorem MergeLog.closed_step (hR : protocol g op r g') {o : Output} (ho : o ∈ g.outs)
    (hclosed : o.Closed) : ∃ o' ∈ g'.outs, o'.Closed ∧ o'.copies = o.copies := by
  have hopen : ¬ o.Open := fun h => MergeLog.Output.Open.not_closed h hclosed
  have hopened : ∀ id base, o ≠ .opened id base := by
    rintro id base rfl
    cases hclosed.hintMade
  have hflush := MergeLog.closed_flush hclosed
  unfold protocol at hR
  split at hR
  all_goals grind [fail, list, read, copied, failFlush, flushedData, flushedHint]

/-- Of the files that are no outputs of the merge, the newest record of a key is what the
    map `m` says; a key of the map is named in one of them or in an output that is
    complete. -/
structure Lasting (m : KeyMap) (g : MergeLog) (w : World) : Prop where
  current : ∀ key id op, (w.disk.log.off (· ∈ g.ids)).Newest key id op → w.Says (m key) op
  found : ∀ key value, m key = some value →
    (∃ id op, id ∉ g.ids ∧ w.disk.log.LastIn key id op) ∨
      ∃ o ∈ g.outs, o.Closed ∧ ∃ c ∈ o.copies, c.entry.key = key

/-- A step that leaves the other files alone; the merge may claim an id no file has. -/
theorem Lasting.alike (h : Lasting m g w) (hR : MergeLog.protocol g op r g')
    (hnew : ∀ id ∈ g'.ids, id ∈ g.ids ∨ ¬ w.Linked id)
    (hlog : ∀ id, id ∉ g'.ids → w'.disk.log id = w.disk.log id)
    (hcontent : ∀ id, id ∉ g'.ids → w'.contentOf id = w.contentOf id) : Lasting m g' w' := by
  have hold : ∀ {id}, id ∉ g'.ids → id ∉ g.ids := fun hid hmem => hid (MergeLog.ids_mono hR hmem)
  have hoff : w'.disk.log.off (· ∈ g'.ids) = w.disk.log.off (· ∈ g.ids) := by
    funext id
    unfold Segments.off
    by_cases hid : id ∈ g'.ids
    · rw [if_pos hid]
      rcases hnew id hid with hmem | hnone
      · rw [if_pos hmem]
      · rw [log_of_not_linked hnone, ite_self]
    · rw [if_neg hid, if_neg (hold hid), hlog id hid]
  refine ⟨fun key id op hn => ?_, fun key value hm => ?_⟩
  · rw [hoff] at hn
    obtain ⟨hlast, hid⟩ := Segments.lastIn_off.mp hn.1
    refine (h.current key id op hn).stays hlast ?_
    have hid' : id ∉ g'.ids := by
      intro hmem
      rcases hnew id hmem with hmem | hnone
      · exact hid hmem
      · exact hnone (linked_iff_log.mpr (linked_of_lastIn hlast))
    exact (hcontent id hid').symm ▸ List.prefix_rfl
  · rcases h.found key value hm with ⟨id, op, hid, hlast⟩ | ⟨o, ho, hclosed, c, hc, hkey⟩
    · left
      have hid' : id ∉ g'.ids := by
        intro hmem
        rcases hnew id hmem with hmem | hnone
        · exact hid hmem
        · exact hnone (linked_iff_log.mpr (linked_of_lastIn hlast))
      exact ⟨id, op, hid', hlast.congr (hlog id hid')⟩
    · right
      obtain ⟨o', ho', hclosed', hcopies⟩ := MergeLog.closed_step hR ho hclosed
      exact ⟨o', ho', hclosed', c, hcopies ▸ hc, hkey⟩

/-- When an input is about to be removed, no older file is left that is no output. -/
theorem Aside.oldest (h : Aside False m g w) (hwork : AtWork True own g w) {f : FileId}
    {rest : List FileId} (hremove : g.toRemove = f :: rest) (hl : w.Linked id) (hid : id ∉ g.ids) :
    f ≤ id := by
  by_contra hlt
  have hf : f ∈ g.inputs := hwork.merge.sound.toRemove f (hremove ▸ List.mem_cons_self)
  have hin := h.old id hl hid ((not_le.mp hlt).trans (hwork.merge.sound.inputs f hf))
  rcases hwork.sourced.due id hin with hmem | hmem
  · have hsorted := h.sorted
    rw [hremove] at hmem hsorted
    rcases List.mem_cons.mp hmem with rfl | hmem
    · exact hlt le_rfl
    · exact hlt ((List.pairwise_cons.mp hsorted).1 id hmem).le
  · exact (h.linked_removed hwork hmem hl).2

/-- In the end every key of the map is named in a file that stays. -/
theorem Carrying.named (hc : Carrying m g w) (ha : Aside False m g w) (hwork : AtWork True own g w)
    (hsettled : g.Settled) (hm : m key = some value) :
    (∃ id op, id ∉ g.ids ∧ g.activeAtStart ≤ id ∧ w.disk.log.LastIn key id op) ∨
      ∃ o ∈ g.outs, o.Closed ∧ ∃ c ∈ o.copies, c.entry.key = key := by
  obtain ⟨entry, -, hleads, hle⟩ := hc.leads ha hwork hsettled hm
  by_cases hid : entry.fileId ∈ g.ids
  · right
    rcases MergeLog.mem_ids.mp hid with hclaimed | ⟨o, ho, heq⟩
    · cases hsettled.claimed.symm.trans hclaimed
    · have hclosed := hsettled.closed o ho
      obtain ⟨p, hp, -, hkey, -⟩ := World.scans_iff.mp hleads.scans
      rw [← heq, ((hwork.merge.outs o ho).content_closed hclosed).2] at hp
      obtain ⟨c, hcopy, rfl⟩ := List.mem_map.mp hp
      exact ⟨o, ho, hclosed, c, hcopy, hkey⟩
  · obtain ⟨op, hlast⟩ := hleads.logged
    exact Or.inl ⟨entry.fileId, op, hid, hle, hlast⟩

/-- Removing the data file of an input. -/
theorem Lasting.removeData (h : Lasting m g w) (hc : Carrying m g w) (ha : Aside False m g w)
    (hwork : AtWork True own g w) {f : FileId} {r : Except IoError Unit}
    (hR : MergeLog.protocol g (.removeData f) r g') : Lasting m g' (w.modifyData f .unlink) := by
  obtain ⟨hsettled, rest, hremove, hg'⟩ := id hR
  have hids : g'.ids = g.ids := by
    rw [hg']
    rfl
  have hf : f ∈ g.inputs := hwork.merge.sound.toRemove f (hremove ▸ List.mem_cons_self)
  have hapart := hwork.sourced.apart f hf
  have hlog := log_unlinked w f
  have hcontent := contentOf_unlinked w f
  refine ⟨fun key id op hn => ?_, fun key value hm => ?_⟩
  · have hoff : (w.modifyData f .unlink).disk.log.off (· ∈ g'.ids)
        = Function.update (w.disk.log.off (· ∈ g.ids)) f none := by
      rw [hlog, hids]
      exact Segments.off_update hapart
    rw [hoff] at hn
    rcases Segments.newest_remove hn with hbefore | ⟨-, hlt, hlast, -⟩
    · exact (h.current key id op hbefore).stays (Segments.lastIn_off.mp hbefore.1).1
        ((hcontent id).symm ▸ List.prefix_rfl)
    · -- what comes next below an input would be in an older file
      obtain ⟨hlast, hid⟩ := Segments.lastIn_off.mp hlast
      have hl : w.Linked id := linked_iff_log.mpr (linked_of_lastIn hlast)
      exact absurd hlt (not_lt.mpr (ha.oldest hwork hremove hl hid))
  · rcases hc.named ha hwork hsettled hm with ⟨id, op, hid, hle, hlast⟩ | ⟨o, ho, hclosed, hcopy⟩
    · left
      refine ⟨id, op, hids ▸ hid, hlast.congr ?_⟩
      have hne : id ≠ f := fun heq =>
        absurd (heq ▸ hle) (not_le_of_gt (hwork.merge.sound.inputs f hf))
      rw [hlog, Function.update_of_ne hne]
    · right
      rw [hg']
      exact ⟨o, ho, hclosed, hcopy⟩

/-- Replacing the active file. -/
theorem Lasting.rotated (h : Lasting m g w) (hwork : AtWork True own g w) : Lasting m g w.rotated := by
  obtain ⟨hnone, hlog, hcontent⟩ := hwork.files.log_rotated
  have hnew : w.nextFileId ∉ g.ids := fun hid =>
    absurd (hwork.files.own_lt _ (hwork.own _ hid)) (lt_irrefl _)
  have hsegs : ∀ key id op, w.rotated.disk.log.LastIn key id op ↔ w.disk.log.LastIn key id op := by
    intro key id op
    rw [hlog]
    exact Segments.lastIn_update_nil hnone
  refine ⟨fun key id op hn => ?_, fun key value hm => ?_⟩
  · rw [hlog, Segments.off_update hnew, Segments.newest_congr fun _ _ =>
      Segments.lastIn_update_nil (by rw [Segments.off, if_neg hnew, hnone])] at hn
    exact (h.current key id op hn).stays (Segments.lastIn_off.mp hn.1).1
      ((hcontent id).symm ▸ List.prefix_rfl)
  · rcases h.found key value hm with ⟨id, op, hid, hlast⟩ | hclosed
    · exact Or.inl ⟨id, op, hid, (hsegs key id op).mpr hlast⟩
    · exact Or.inr hclosed

/-- Every step of a merge keeps it. -/
theorem Lasting.step (h : Lasting m g w) (hc : Carrying m g w) (ha : Aside False m g w)
    (hwork : AtWork True own g w) (hR : MergeLog.protocol g op r g')
    (hO : perform op w = (r, w')) : Lasting m g' w' := by
  have hnew : (∀ id ∈ g'.ids, id ∈ g.ids ∨ ¬ w.Linked id) := by
    intro id hid
    rcases MergeLog.ids_step hR hid with hold | heq
    · exact Or.inl hold
    · obtain ⟨rfl, hr⟩ := Sigma.mk.inj heq
      cases hr
      obtain ⟨rfl, -⟩ := Prod.mk.inj hO
      right
      rintro ⟨data, hopen⟩
      cases (hwork.files.fresh _ le_rfl).1.symm.trans (open?_eq_some.mp hopen).1
  have hcontent : ∀ id, id ∉ g'.ids → w'.contentOf id = w.contentOf id :=
    fun id hid => hwork.contentOf_step hR hO hid
  rcases hwork.effect hR hO with ⟨⟨-, hsame⟩, -⟩ | ⟨f, rfl, heq | heq⟩ | ⟨f, rfl, ⟨-, rfl⟩ | rfl⟩ |
    ⟨highest, rfl, heq | heq⟩
  · refine h.alike hR hnew (fun id hid => ?_) hcontent
    exact log_congr (by rw [open?_congr (hsame id hid).1]) (by rw [open?_congr (hsame id hid).2])
  · exact h.alike hR hnew (fun id _ => by rw [heq]) hcontent
  · rw [heq]
    exact h.removeData hc ha hwork hR
  · exact h.alike hR hnew (fun _ _ => rfl) hcontent
  · refine h.alike hR hnew (fun id hid => ?_) hcontent
    obtain ⟨hf, -⟩ := hR
    have hlookup := FileTable.lookup_modify w.disk.hint f id .unlink
    by_cases hidf : id = f
    · -- the data file is gone already
      subst hidf
      have hgone : ¬ w.Linked id := fun hl => (ha.linked_removed hwork hf hl).2
      have hgone' : ¬ (w.modifyHint id .unlink).Linked id := hgone
      rw [log_of_not_linked hgone, log_of_not_linked hgone']
    · rw [if_neg hidf] at hlookup
      exact log_congr rfl (by rw [World.modifyHint, open?_congr hlookup])
  · exact h.alike hR hnew (fun id _ => by rw [heq]) hcontent
  · obtain ⟨-, -, -, hg'⟩ := id hR
    have hrotated := h.rotated hwork
    rw [heq, hg']
    cases r <;> exact { hrotated with }

/-- A merge that has listed its inputs. -/
theorem Lasting.begun (h : Ready False m w) : Lasting m (.begun w) w where
  current := fun key id op hn => by
    have hoff : w.disk.log.off (· ∈ (MergeLog.begun w).ids) = w.disk.log :=
      funext fun id => if_neg List.not_mem_nil
    rw [hoff] at hn
    exact h.newest key id op hn
  found := fun key value hm => by
    obtain ⟨entry, -, hleads⟩ := h.present key value hm
    obtain ⟨op, hlast⟩ := hleads.logged
    exact Or.inl ⟨entry.fileId, op, List.not_mem_nil, hlast⟩

/-! ## The outputs -/

variable {o : Output} {bytes hint : Bytes} {disk : Disk}

/-- The files of an output, each cut anywhere, are files that recovery can read. -/
theorem OutputSound.cut (h : OutputSound o) (hbytes : bytes <+: o.data ++ o.torn)
    (hhint : hint <+: o.hints ++ o.hintTorn) : IsLog bytes ∧ HintSound bytes hint := by
  -- a torn write is a record that did not get there whole
  obtain ⟨last, hlast, hfits, hlen⟩ : ∃ last : List Record, o.torn = encodeAll last ∧
      (∀ r ∈ last, r.Fits) ∧ (encodeAll last).length < 2 ^ 62 := by
    rcases h.torn with hnil | ⟨r, hr, heq⟩
    · exact ⟨[], hnil, by simp, by simp⟩
    · refine ⟨[r], by simp [heq], by simpa using hr, ?_⟩
      obtain ⟨hkey, hvalue⟩ := hr
      simp only [maxKeyLen, keySizeMask] at hkey
      simp only [encodeAll_cons, encodeAll_nil, List.append_nil, Record.length_encode, headerSize]
      omega
  have hall : ∀ r ∈ o.records ++ last, r.Fits := by
    intro r hr
    rcases List.mem_append.mp hr with hr | hr
    · exact h.fits r hr
    · exact hfits r hr
  have hbytes' : bytes <+: encodeAll (o.records ++ last) := by
    rw [encodeAll_append, ← hlast]
    exact hbytes
  refine ⟨isLog_cut hall hbytes', ?_⟩
  obtain ⟨trailer, htrailer, hfront⟩ := h.hints_front List.prefix_rfl
  rw [h.placed] at hfront
  apply hintSound_cut hall hbytes' (List.prefix_append ..) htrailer (hhint.trans hfront)
  have hshort : (encodeAll o.records).length ≤ 2 ^ 63 - 1 := h.short
  rw [encodeAll_append, List.length_append]
  omega

/-- What is there of an output, a write under way included: records of the map `m`, of
    which any front can be read. -/
structure Output.Begun (m : KeyMap) (o : Output) (w : World) (file : FileState) : Prop where
  opened : w.disk.data.open? o.id = some file
  log : ∀ bytes, bytes <+: file.logical → IsLog bytes
  entries : ∀ bytes, bytes <+: file.logical → ∀ p ∈ readAllEntries bytes,
    p.2.isTombstone = false ∧ m p.2.key = some p.2.value
  hint : ∀ hint, w.disk.hint.open? o.id = some hint → ∀ bytes front, bytes <+: file.logical →
    front <+: hint.logical → HintSound bytes front

theorem Output.Begun.of_sound {o' : Output} (h : OutputSound o') {file : FileState}
    (hopen : w.disk.data.open? o.id = some file) (hfile : file.logical <+: o'.data ++ o'.torn)
    (hhint : ∀ hint, w.disk.hint.open? o.id = some hint → hint.logical <+: o'.hints ++ o'.hintTorn)
    (hright : ∀ p ∈ readAllEntries file.logical,
      p.2.isTombstone = false ∧ m p.2.key = some p.2.value) : o.Begun m w file where
  opened := hopen
  log := fun _ hbytes => (h.cut (hbytes.trans hfile) (List.nil_prefix : ([] : Bytes) <+: _)).1
  entries := fun _ hbytes p hp => hright p ((readAllEntries_front hbytes).subset hp)
  hint := fun hint hl _ _ hbytes hfront =>
    (h.cut (hbytes.trans hfile) (hfront.trans (hhint hint hl))).2

/-- The copies are the map's. -/
theorem Carrying.copied_entry (hc : Carrying m g w) (hwork : AtWork True own g w) (ho : o ∈ g.outs)
    {p : Nat × Entry} (hp : p ∈ o.copies.map Copy.placed) :
    p.2.isTombstone = false ∧ m p.2.key = some p.2.value := by
  obtain ⟨c, hcopy, rfl⟩ := List.mem_map.mp hp
  exact ⟨((hwork.merge.outs o ho).sound.copies c hcopy).1.live, hc.copies o ho c hcopy⟩

/-- An output that nothing is being written to. -/
theorem Carrying.begun_idle (hc : Carrying m g w) (hwork : AtWork True own g w) (ho : o ∈ g.outs)
    (hdata : w'.disk.data.lookup o.id = w.disk.data.lookup o.id)
    (hhint : w'.disk.hint.lookup o.id = w.disk.hint.lookup o.id) :
    ∃ file, o.Begun m w' file := by
  have hok := hwork.merge.outs o ho
  obtain ⟨file, hopen⟩ := hwork.present o ho
  obtain ⟨file', hl, hfile⟩ := hok.data
  cases hl.symm.trans (open?_eq_some.mp hopen).1
  obtain ⟨junk, hlogical, hpre, hlt⟩ := hfile.wrote
  refine ⟨file, .of_sound hok.sound ((open?_congr hdata).trans hopen) ?_ (fun hint hh => ?_)
    fun p hp => ?_⟩
  · rw [hlogical, List.prefix_append_right_inj]
    exact hpre
  · rw [open?_congr hhint] at hh
    obtain ⟨junk', hlogical', hpre', -⟩ := (hok.hint (Or.inl trivial) hint (open?_eq_some.mp hh).1).wrote
    rw [hlogical', List.prefix_append_right_inj]
    exact hpre'
  · rw [hlogical, hok.sound.readAllEntries (hok.sound.torn_junk hpre hlt)] at hp
    exact hc.copied_entry hwork ho hp

/-- The output a copy is being written to. -/
theorem Carrying.begun_writeData (hc : Carrying m g w) (hwork : AtWork True own g w)
    (ho : o ∈ g.outs) {x : FileId × Nat × Entry} (hx : g.checked = some x) (hopen : o.Open) :
    ∃ file, o.Begun m (w.begin (.writeData o.id (MergeLog.copyTo o x).record.encode)) file := by
  let c := MergeLog.copyTo o x
  have hok := hwork.merge.outs o ho
  obtain ⟨hfits, hlive⟩ := hwork.merge.sound.checked x hx
  have hcopy : c.Sound := ⟨hfits, hlive⟩
  obtain ⟨file, hopened⟩ := hwork.present o ho
  obtain ⟨hl, hlinked⟩ := open?_eq_some.mp hopened
  obtain ⟨file', hl', hfile⟩ := hok.data
  cases hl.symm.trans hl'
  have hlogical : file.logical = o.data := (hopen.torn ▸ hfile.wrote).logical
  have hlookup := lookup_modifyData (g := fun f => { f with buffer := f.buffer ++ c.record.encode }) hl
  have hbytes : ({ file with buffer := file.buffer ++ c.record.encode } : FileState).logical
      = o.data ++ c.record.encode := by
    rw [← hlogical, FileState.logical, FileState.logical, List.append_assoc]
  refine ⟨_, .of_sound (hok.sound.tear hopen hcopy.fits_record)
    (open?_eq_some.mpr ⟨hlookup, hlinked⟩) ?_ (fun hint hh => ?_) fun p hp => ?_⟩
  · rw [hbytes]
    exact List.prefix_rfl
  · obtain ⟨junk, hlogical', hpre, -⟩ := (hok.hint (Or.inl trivial) hint (open?_eq_some.mp hh).1).wrote
    rw [hlogical']
    exact (List.prefix_append_right_inj _).mpr hpre
  · -- the copies and the one being written
    have hfits' : ∀ r ∈ o.records ++ [c.record], r.Fits := by
      intro r hr
      rcases List.mem_append.mp hr with hr | hr
      · exact hok.sound.fits r hr
      · exact List.mem_singleton.mp hr ▸ hcopy.fits_record
    have hwhole : o.data ++ c.record.encode <+: encodeAll (o.records ++ [c.record]) := by
      rw [encodeAll_append, encodeAll_cons, encodeAll_nil, List.append_nil]
      exact List.prefix_rfl
    have hp' := (readAllEntries_cut hfits' hwhole).subset (hbytes ▸ hp)
    rw [layout_append, ← hok.sound.placed] at hp'
    rcases List.mem_append.mp hp' with hp' | hp'
    · exact hc.copied_entry hwork ho hp'
    · obtain rfl := List.mem_singleton.mp hp'
      show c.record.entry.isTombstone = false ∧ m c.record.entry.key = some c.record.entry.value
      rw [hcopy.entry_record]
      exact ⟨hlive, hc.checked x hx⟩

/-- The output whose hint file is being written. -/
theorem Carrying.begun_writeHint (hc : Carrying m g w) (hwork : AtWork True own g w)
    (ho : o ∈ g.outs) (hopen : o.Open) (hbytes : (∃ c, o.copies = o.hinted ++ [c] ∧ bytes = c.hint) ∨
      o.hinted = o.copies ∧ bytes = hintTrailer o.hinted) :
    ∃ file, o.Begun m (w.begin (.writeHint o.id bytes)) file := by
  have hok := hwork.merge.outs o ho
  obtain ⟨file, hopened⟩ := hwork.present o ho
  obtain ⟨file', hl, hfile⟩ := hok.data
  cases hl.symm.trans (open?_eq_some.mp hopened).1
  have hlogical : file.logical = o.data := (hopen.torn ▸ hfile.wrote).logical
  refine ⟨file, .of_sound (hok.sound.tearHint hopen hbytes) hopened ?_ (fun hint hh => ?_) fun p hp => ?_⟩
  · rw [hlogical]
    exact List.prefix_append ..
  · have hlookup := (FileTable.lookup_modify w.disk.hint o.id o.id fun f =>
      { f with buffer := f.buffer ++ bytes }).symm.trans (open?_eq_some.mp hh).1
    rw [if_pos rfl] at hlookup
    obtain ⟨hint', hl', rfl⟩ := Option.map_eq_some_iff.mp hlookup
    have hlogical' := (hopen.hintTorn ▸ (hok.hint (Or.inl trivial) hint' hl').wrote).logical
    rw [FileState.logical, ← List.append_assoc]
    show hint'.logical ++ bytes <+: o.hints ++ bytes
    rw [hlogical']
  · rw [hlogical, ← List.append_nil o.data, hok.sound.readAllEntries torn_nil] at hp
    exact hc.copied_entry hwork ho hp

/-- The outputs while an operation of the merge is under way; those complete are not
    touched. -/
theorem Carrying.outs_begun (hc : Carrying m g w) (hwork : AtWork True own g w)
    (hR : MergeLog.protocol g op r g') (ho : o ∈ g.outs) :
    (∃ file, o.Begun m (w.begin op) file) ∧
      (o.Closed → (w.begin op).disk.data.lookup o.id = w.disk.data.lookup o.id ∧
        (w.begin op).disk.hint.lookup o.id = w.disk.hint.lookup o.id) := by
  have hidle : w.begin op = w → (∃ file, o.Begun m (w.begin op) file) ∧
      (o.Closed → (w.begin op).disk.data.lookup o.id = w.disk.data.lookup o.id ∧
        (w.begin op).disk.hint.lookup o.id = w.disk.hint.lookup o.id) := by
    intro heq
    rw [heq]
    exact ⟨hc.begun_idle hwork ho rfl rfl, fun _ => ⟨rfl, rfl⟩⟩
  have hother : ∀ {o₀ : Output} {outs : List Output}, g.outs = o₀ :: outs → o ≠ o₀ → o.id ≠ o₀.id := by
    intro o₀ outs houts hne
    rw [houts] at ho
    exact (hwork.merge.sound.current_ne houts).2 o ((List.mem_cons.mp ho).resolve_left hne)
  cases op with
  | writeData id bytes =>
    obtain ⟨o₀, outs, x, houts, rfl, hx, hopen, -, rfl, -⟩ := hR
    by_cases heq : o = o₀
    · subst heq
      exact ⟨hc.begun_writeData hwork ho hx hopen, fun hclosed => absurd hclosed (MergeLog.Output.Open.not_closed hopen)⟩
    · have hdata : (w.begin (.writeData o₀.id (MergeLog.copyTo o₀ x).record.encode)).disk.data.lookup
          o.id = w.disk.data.lookup o.id :=
        FileTable.lookup_modify_of_ne w.disk.data _ (hother houts heq)
      exact ⟨hc.begun_idle hwork ho hdata rfl, fun _ => ⟨hdata, rfl⟩⟩
  | writeHint id bytes =>
    obtain ⟨o₀, outs, houts, rfl, hopen, o', ho', -⟩ := hR
    by_cases heq : o = o₀
    · subst heq
      refine ⟨hc.begun_writeHint hwork ho hopen ?_, fun hclosed => absurd hclosed (MergeLog.Output.Open.not_closed hopen)⟩
      rcases ho' with ⟨c, hcopies, hbytes, -⟩ | ⟨hhinted, -, hbytes, -⟩
      · exact Or.inl ⟨c, hcopies, hbytes⟩
      · exact Or.inr ⟨hhinted, hbytes⟩
    · have hhint : (w.begin (.writeHint o₀.id bytes)).disk.hint.lookup o.id
          = w.disk.hint.lookup o.id :=
        FileTable.lookup_modify_of_ne w.disk.hint _ (hother houts heq)
      exact ⟨hc.begun_idle hwork ho rfl hhint, fun _ => ⟨rfl, hhint⟩⟩
  | _ => exact hidle rfl

/-! ## What a kill leaves -/

variable {w₂ : World} {r : Restart}

/-- The log of a file nobody writes to is a front of what a scan finds. -/
theorem SealedFile.ops_prefix {file : FileState} (hopen : disk.data.open? id = some file)
    (h : SealedFile file (disk.hint.open? id)) :
    fileOps disk id <+: (readAllEntries file.content).map (entryOp id) := by
  unfold fileOps
  rw [hopen]
  simp only [Option.map_some, Option.getD_some]
  cases hhint : disk.hint.open? id with
  | none => exact List.prefix_rfl
  | some hint =>
    obtain ⟨-, hsound⟩ := h.hint hint hhint
    rw [Option.bind_some]
    split
    · rename_i records hvalid
      have hfront := (hsound records hvalid).map (hintOp id)
      rwa [List.map_map] at hfront
    · exact List.prefix_rfl

/-- The directory left while a merge was at work: its outputs have records of the map,
    those complete all of them, and the other files are as they were. -/
structure Halts (m : KeyMap) (g : MergeLog) (w : World) (disk : Disk) : Prop where
  out : ∀ o ∈ g.outs, ∃ file, disk.data.open? o.id = some file ∧
    SealedFile file (disk.hint.open? o.id) ∧ ∀ p ∈ readAllEntries file.content,
      p.2.isTombstone = false ∧ m p.2.key = some p.2.value
  closed : ∀ o ∈ g.outs, o.Closed → disk.log o.id = w.disk.log o.id
  claimed : ∀ id, g.claimed = some id → ∀ key op, ¬ disk.log.LastIn key id op
  rest : ∀ id, id ∉ g.ids → disk.log id = w.disk.log id ∧
    (w.Linked id → disk.contentOf id = w.contentOf id)

/-- What such a directory's log says is what the map says. -/
theorem Lasting.agrees (h : Lasting m g w) (hd : Halts m g w disk) {op : Option KeydirEntry}
    (hn : disk.log.Newest key id op) : disk.Says (m key) op := by
  obtain ⟨ops, hops, hlast⟩ := hn.1
  by_cases hid : id ∈ g.ids
  · rcases MergeLog.mem_ids.mp hid with hclaimed | ⟨o, ho, rfl⟩
    · exact absurd hn.1 (hd.claimed id hclaimed key op)
    · -- a record of an output is one of the map's
      obtain ⟨file, hopen, hsealed, hentries⟩ := hd.out o ho
      obtain ⟨-, -, rfl⟩ := Option.map_eq_some_iff.mp hops
      have hmem := (hsealed.ops_prefix hopen).subset (mem_of_lastOn hlast)
      obtain ⟨p, hp, heq⟩ := List.mem_map.mp hmem
      obtain ⟨hlive, hm⟩ := hentries p hp
      have hop : entryOp o.id p = (p.2.key, some (keydirEntryOf o.id p.1 p.2)) :=
        entryOp_eq_some.mpr ⟨hlive, rfl, rfl⟩
      obtain ⟨rfl, rfl⟩ := Prod.mk.inj (hop.symm.trans heq)
      refine ⟨p.2.value, hm, ?_⟩
      have hfound := mem_readAllEntries hp
      have hcontent : disk.contentOf o.id = file.content := by
        rw [Disk.contentOf, (open?_eq_some.mp hopen).1]
        rfl
      show preadExact (disk.contentOf o.id) (valuePosOf p.1 p.2) p.2.header.valueSize = .ok p.2.value
      rw [hcontent, preadExact, if_pos (Or.inr hfound.le), ← hfound.value]
  · have hsays := h.current key id op ⟨Segments.lastIn_off.mpr ⟨hn.1.congr (hd.rest id hid).1.symm, hid⟩,
      fun id' hlt op' hlast' => by
        obtain ⟨hlast', hid'⟩ := Segments.lastIn_off.mp hlast'
        exact hn.2 id' hlt op' (hlast'.congr (hd.rest id' hid').1)⟩
    cases op with
    | none => exact hsays
    | some entry =>
      obtain ⟨value, hvalue, hholds⟩ := hsays
      obtain ⟨-, -, rfl⟩ := Option.map_eq_some_iff.mp hops
      obtain ⟨rfl, -⟩ := fileOps_some (mem_of_lastOn hlast)
      obtain ⟨hlog, hcontent⟩ := hd.rest _ hid
      have hl : w.Linked entry.fileId := (linked_of_log (hlog.symm.trans hops)).1
      exact ⟨value, hvalue, (hcontent hl).symm ▸ hholds⟩

/-- A key of the map is named in it. -/
theorem Lasting.logged (h : Lasting m g w) (hwork : AtWork True own g w) (hd : Halts m g w disk)
    (hm : m key = some value) : ∃ id op, disk.log.LastIn key id op := by
  rcases h.found key value hm with ⟨id, op, hid, hlast⟩ | ⟨o, ho, hclosed, c, hc, hkey⟩
  · exact ⟨id, op, hlast.congr (hd.rest id hid).1⟩
  · have hl := hwork.present o ho
    obtain ⟨hops, hscan⟩ := (hwork.merge.outs o ho).log_closed hclosed hl
    have hlog : disk.log o.id = some (w.scanOps o.id) := by
      rw [hd.closed o ho hclosed, log_of_linked hl, hops]
    have hmem : (key, some c.new) ∈ w.scanOps o.id := by
      rw [hscan]
      exact List.mem_map.mpr ⟨c, hc, by rw [hkey]⟩
    obtain ⟨op, hlast⟩ := lastOn_of_mem hmem
    exact ⟨o.id, op, _, hlog, hlast⟩

/-- An operation of the merge writes to outputs only. -/
theorem begin_other (hR : MergeLog.protocol g op b g') (hid : ∀ o ∈ g.outs, o.id ≠ id) :
    (w.begin op).disk.data.lookup id = w.disk.data.lookup id ∧
      (w.begin op).disk.hint.lookup id = w.disk.hint.lookup id := by
  cases op with
  | writeData id' bytes =>
    obtain ⟨o, outs, x, houts, rfl, -⟩ := hR
    have hne := hid o (houts ▸ List.mem_cons_self)
    exact ⟨FileTable.lookup_modify_of_ne w.disk.data _ hne.symm, rfl⟩
  | writeHint id' bytes =>
    obtain ⟨o, outs, houts, rfl, -⟩ := hR
    have hne := hid o (houts ▸ List.mem_cons_self)
    exact ⟨rfl, FileTable.lookup_modify_of_ne w.disk.hint _ hne.symm⟩
  | _ => exact ⟨rfl, rfl⟩

omit [Crc32Fast] in
/-- What is left of the files whose lookups are as they were and whose buffers are empty. -/
theorem crash_alike (hdata : w₂.disk.data.lookup id = w.disk.data.lookup id)
    (hhint : w₂.disk.hint.lookup id = w.disk.hint.lookup id) :
    (w₂.crash r).data.lookup id = (w.crash r).data.lookup id ∧
      (w₂.crash r).hint.lookup id = (w.crash r).hint.lookup id := by
  simp only [World.crash, FileTable.lookup_cut, open?_congr hdata, open?_congr hhint, and_self]

/-- A file with nothing in its buffers says after a kill what it said before. -/
theorem log_crash_drained (hdata : ∀ f, w.disk.data.open? id = some f → f.buffer = [] ∧
    ∀ hint, w.disk.hint.open? id = some hint → hint.buffer = []) :
    (w.crash r).log id = w.disk.log id := by
  cases hopen : w.disk.data.open? id with
  | none =>
    have hnone : (w.crash r).data.open? id = none := by
      rw [World.crash, FileTable.open?_cut, hopen]
      rfl
    rw [Disk.log, Disk.log, hopen, hnone]
    rfl
  | some f =>
    obtain ⟨hbuffer, hhint⟩ := hdata f hopen
    apply log_congr
    · rw [World.crash, FileTable.open?_cut, hopen]
      exact congrArg some (FileState.content_cut hbuffer _)
    · rw [World.crash, FileTable.open?_cut]
      cases hh : w.disk.hint.open? id with
      | none => rfl
      | some hint => exact congrArg some (FileState.content_cut (hhint hint hh) _)

/-- The directory left while an operation of the merge is under way. -/
theorem Carrying.halts (hc : Carrying m g w) (hwork : AtWork True own g w)
    (hown : ∀ id, own id → id ∈ g.ids) (hR : MergeLog.protocol g op b g') :
    Halts m g w ((w.begin op).crash r) where
  out := fun o ho => by
    obtain ⟨⟨file, hbegun⟩, -⟩ := hc.outs_begun hwork hR ho
    have hcut : ∀ (f : FileState) n, (f.cut n).content <+: f.logical := fun f n =>
      (List.prefix_append_right_inj _).mpr (List.take_prefix ..)
    have hfront := hcut file (r.keepData o.id)
    refine ⟨file.cut (r.keepData o.id), ?_, ⟨rfl, hbegun.log _ hfront, fun hint hh => ?_⟩,
      hbegun.entries _ hfront⟩
    · rw [World.crash, FileTable.open?_cut, hbegun.opened]
      rfl
    · rw [World.crash, FileTable.open?_cut] at hh
      obtain ⟨hint', hh', rfl⟩ := Option.map_eq_some_iff.mp hh
      exact ⟨rfl, hbegun.hint hint' hh' _ _ hfront (hcut _ _)⟩
  closed := fun o ho hclosed => by
    obtain ⟨-, hsame⟩ := hc.outs_begun hwork hR ho
    obtain ⟨hdata, hhint⟩ := hsame hclosed
    obtain ⟨hdata', hhint'⟩ := crash_alike (r := r) hdata hhint
    have hok := hwork.merge.outs o ho
    have hlog : ((w.begin op).crash r).log o.id = (w.crash r).log o.id :=
      log_congr (by rw [open?_congr hdata']) (by rw [open?_congr hhint'])
    rw [hlog]
    apply log_crash_drained
    intro f hopen
    obtain ⟨file, hl, hfile⟩ := hok.data
    cases hl.symm.trans (open?_eq_some.mp hopen).1
    refine ⟨hfile.flushed hclosed.drained.1, fun hint hh => ?_⟩
    exact (hok.hint (Or.inl trivial) hint (open?_eq_some.mp hh).1).flushed hclosed.drained.2
  claimed := fun id hclaimed key op' hlast => by
    have hne : ∀ o ∈ g.outs, o.id ≠ id := by
      intro o ho heq
      have hnodup := hwork.merge.sound.nodup
      rw [MergeLog.ids, hclaimed] at hnodup
      exact (List.nodup_cons.mp hnodup).1 (heq ▸ List.mem_map_of_mem ho)
    obtain ⟨hdata, hhint⟩ := begin_other (w := w) hR hne
    obtain ⟨hnoHint, hempty⟩ := hwork.merge.claimed id hclaimed
    -- there is no file, or an empty one
    obtain ⟨ops, hops, hlast⟩ := hlast
    obtain ⟨f, hopen, rfl⟩ := Option.map_eq_some_iff.mp hops
    have hlookup := (crash_alike (r := r) hdata hhint).1.symm.trans (open?_eq_some.mp hopen).1
    rw [World.crash, FileTable.lookup_cut] at hlookup
    obtain ⟨f', hopen', rfl⟩ := Option.map_eq_some_iff.mp hlookup
    obtain ⟨hlogical, -⟩ := hempty f' (open?_eq_some.mp hopen').1
    have hcontent : (f'.cut (r.keepData id)).content = [] := by
      have hfront : (f'.cut (r.keepData id)).content <+: f'.logical :=
        (List.prefix_append_right_inj _).mpr (List.take_prefix ..)
      rwa [hlogical, List.prefix_nil] at hfront
    have hnone : ((w.begin op).crash r).hint.open? id = none := by
      rw [World.crash, FileTable.open?_cut, FileTable.open?, hhint, hnoHint trivial]
      rfl
    unfold fileOps at hlast
    rw [hopen, hnone] at hlast
    simp only [Option.map_some, Option.getD_some, hcontent, Option.bind_none, readAllEntries_nil] at hlast
    cases hlast
  rest := fun id hid => by
    have hne : ∀ o ∈ g.outs, o.id ≠ id := fun o ho heq => hid (heq ▸ MergeLog.id_mem_ids ho)
    obtain ⟨hdata, hhint⟩ := begin_other (w := w) hR hne
    obtain ⟨hdata', hhint'⟩ := crash_alike (r := r) hdata hhint
    have hdrained : ∀ f, w.disk.data.open? id = some f → f.buffer = [] ∧
        ∀ hint, w.disk.hint.open? id = some hint → hint.buffer = [] :=
      fun f => hwork.files.drained fun hid' => hid (hown id hid')
    constructor
    · have hlog : ((w.begin op).crash r).log id = (w.crash r).log id :=
        log_congr (by rw [open?_congr hdata']) (by rw [open?_congr hhint'])
      exact hlog.trans (log_crash_drained hdrained)
    · rintro ⟨f, hopen⟩
      have hcut : (w.crash r).data.lookup id = some (f.cut (r.keepData id)) := by
        rw [World.crash, FileTable.lookup_cut, hopen]
        rfl
      rw [Disk.contentOf, hdata', hcut, contentOf_of_lookup (open?_eq_some.mp hopen).1]
      exact FileState.content_cut (hdrained f hopen).1 _

/-- Killed while an operation of it is under way that is no section, a merge leaves the
    map. -/
theorem Lasting.stores_begun (h : Lasting m g w) (hc : Carrying m g w) (hwork : AtWork True own g w)
    (hown : ∀ id, own id → id ∈ g.ids) (hR : MergeLog.protocol g op b g') :
    ((w.begin op).crash r).Stores False m w.allotted := by
  have hd := hc.halts (r := r) hwork hown hR
  -- a file left is one of an output or one that was there
  have hcases : ∀ id, (∃ o ∈ g.outs, o.id = id) ∨ (∀ o ∈ g.outs, o.id ≠ id) ∧
      ((w.begin op).crash r).data.lookup id = (w.crash r).data.lookup id ∧
        ((w.begin op).crash r).hint.lookup id = (w.crash r).hint.lookup id := by
    intro id
    by_cases hid : ∃ o ∈ g.outs, o.id = id
    · exact Or.inl hid
    · have hne : ∀ o ∈ g.outs, o.id ≠ id := fun o ho heq => hid ⟨o, ho, heq⟩
      obtain ⟨hdata, hhint⟩ := begin_other (w := w) hR hne
      exact Or.inr ⟨hne, crash_alike hdata hhint⟩
  -- the merge's ids are those of its outputs and the one claimed, which has no hint file
  have hclaimed : ∀ id, own id → (∀ o ∈ g.outs, o.id ≠ id) → g.claimed = some id := by
    intro id hid hne
    rcases MergeLog.mem_ids.mp (hown id hid) with hclaimed | ⟨o, ho, heq⟩
    · exact hclaimed
    · exact absurd heq (hne o ho)
  have hfound : ∀ id f, (∀ o ∈ g.outs, o.id ≠ id) → w.disk.data.open? id = some f →
      ∃ f', ((w.begin op).crash r).data.lookup id = some f' := by
    intro id f hne hopen
    rcases hcases id with ⟨o, ho, heq⟩ | ⟨-, hsame, -⟩
    · exact absurd heq (hne o ho)
    · rw [hsame, World.crash, FileTable.lookup_cut, hopen]
      exact ⟨_, rfl⟩
  have hopened : ∀ id f, (w.crash r).data.lookup id = some f →
      ∃ f₀, w.disk.data.open? id = some f₀ ∧ f = f₀.cut (r.keepData id) := by
    intro id f hl
    obtain ⟨f₀, hopen, rfl⟩ := Option.map_eq_some_iff.mp (FileTable.lookup_cut.symm.trans hl)
    exact ⟨f₀, hopen, rfl⟩
  have hbelow : ∀ id f, ((w.begin op).crash r).data.lookup id = some f →
      f.linked = true ∧ id < w.allotted := by
    intro id f hl
    rcases hcases id with ⟨o, ho, rfl⟩ | ⟨-, hsame, -⟩
    · obtain ⟨file, hopen, -⟩ := hd.out o ho
      obtain ⟨hl', hlinked⟩ := open?_eq_some.mp hopen
      cases hl.symm.trans hl'
      obtain ⟨data, hdata, -⟩ := (hwork.merge.outs o ho).data
      exact ⟨hlinked, (hwork.files.lt_of_lookup hdata).trans_le hwork.files.allotted⟩
    · obtain ⟨f₀, hopen, rfl⟩ := hopened id f (hsame.symm.trans hl)
      obtain ⟨hl₀, hlinked⟩ := open?_eq_some.mp hopen
      exact ⟨hlinked, (hwork.files.lt_of_lookup hl₀).trans_le hwork.files.allotted⟩
  refine ⟨fun keep => ⟨FileTable.cut_cut _ _ _, FileTable.cut_cut _ _ _⟩, hbelow, fun id f hl => ?_,
    fun id hint hl => ?_, fun key id op hn => h.agrees hd hn, fun key value hm => ?_,
    fun hf => hf.elim⟩
  · rcases hcases id with ⟨o, ho, rfl⟩ | ⟨hne, hsame, hsameHint⟩
    · obtain ⟨file, hopen, hsealed, -⟩ := hd.out o ho
      cases hl.symm.trans (open?_eq_some.mp hopen).1
      exact hsealed
    · obtain ⟨f₀, hopen, rfl⟩ := hopened id f (hsame.symm.trans hl)
      rw [open?_congr hsameHint]
      by_cases hid : own id
      · obtain ⟨hnoHint, hempty⟩ := hwork.merge.claimed id (hclaimed id hid hne)
        obtain ⟨hlogical, -⟩ := hempty f₀ (open?_eq_some.mp hopen).1
        have hfront : (f₀.cut (r.keepData id)).content <+: f₀.logical :=
          (List.prefix_append_right_inj _).mpr (List.take_prefix ..)
        rw [hlogical, List.prefix_nil] at hfront
        refine ⟨rfl, hfront ▸ isLog_nil, fun hint hh => ?_⟩
        rw [World.crash, FileTable.open?_cut, FileTable.open?, hnoHint trivial] at hh
        cases hh
      · exact hwork.files.sealed_crash hid r hopen
  · rcases hcases id with ⟨o, ho, rfl⟩ | ⟨hne, -, hsame⟩
    · obtain ⟨file, hopen, -⟩ := hd.out o ho
      exact ⟨o.id, file, (open?_eq_some.mp hopen).1, le_rfl⟩
    · obtain ⟨hint₀, hopen, rfl⟩ := Option.map_eq_some_iff.mp
        (FileTable.lookup_cut.symm.trans (hsame.symm.trans hl))
      have hid : ¬ own id := by
        intro hid
        have hnone := (hwork.merge.claimed id (hclaimed id hid hne)).1 trivial
        cases hnone.symm.trans (open?_eq_some.mp hopen).1
      rcases hwork.files.hint_lt trivial id hint₀ hopen hid with ⟨f, hf⟩ | hlt
      · obtain ⟨f', hf'⟩ := hfound id f hne hf
        exact ⟨id, f', hf', le_rfl⟩
      · obtain ⟨f, hf⟩ := hwork.files.linked_active
        obtain ⟨f', hf'⟩ := hfound _ f (fun o ho =>
          hwork.files.own_ne _ (hwork.own _ (MergeLog.id_mem_ids ho))) hf
        exact ⟨_, f', hf', hlt.le⟩
  · obtain ⟨id, op, hlast⟩ := h.logged hwork hd hm
    refine Segments.exists_newest (n := w.allotted) (fun id op hlast => ?_) hlast
    obtain ⟨ops, hops, -⟩ := hlast
    obtain ⟨f, hopen, -⟩ := Option.map_eq_some_iff.mp hops
    exact (hbelow id f (open?_eq_some.mp hopen).1).2.le

omit [Crc32Fast] in
theorem interrupted_activeFileId (w : World) (stage : Nat) :
    w.interrupted stage (.locked .activeFileId) = w := by
  apply World.interrupted_mem (P := (· = w)) rfl
  intro x hx
  rcases Prog.mem_visits_act.mp hx with rfl | hx
  · rfl
  · cases hx

/-- Killed while any operation of it is under way, a merge leaves the map. -/
theorem Lasting.stores (h : Lasting m g w) (hc : Carrying m g w) (hwork : AtWork True own g w)
    (hown : ∀ id, own id → id ∈ g.ids) (hR : MergeLog.protocol g op b g') :
    ((w.interrupted r.stage op).crash r).Stores False m
      (w.interrupted r.stage op).allotted := by
  have hbegun := h.stores_begun (r := r) hc hwork hown hR
  cases op with
  | locked s =>
    cases s with
    | append => exact hR.elim
    | activeFileId =>
      rw [interrupted_activeFileId]
      exact hbegun
    | restoreActive highest =>
      obtain ⟨front, hfront, hleaves⟩ :=
        (World.midway_restoreActive hwork.files highest r.stage).leaves r
      obtain rfl := List.prefix_nil.mp hfront
      exact hleaves.stores_torn hwork.files hbegun torn_nil
  | _ =>
    show ((w.begin _).crash r).Stores False m (w.begin _).allotted
    rw [(w.begin_same _).1]
    exact hbegun

end

end Yabiir
